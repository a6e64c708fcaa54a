import LinearModel.Double
import LinearModel.Proofs.Caches
import LinearModel.Proofs.Exact
import LinearModel.Proofs.Reached

/-!
# Stale results

A registry changes by declarations, by assigned data, and by being read, which fills in what had to
be computed. Data that is assigned makes it forget all of that, and a declaration does not change
what has been found before. So a registry that is reached by such steps stays current, and reading
it gives the same as reading it after everything computed is forgotten.

Members of families are kept by outer index, and indices that compare equal need not give the same
member. Where they do not, a read may give the member at another index.
-/
namespace LinearModel

open Run Registry Table

variable {K : Type} {α : Type} {s : String} {x : Run K α} {r : Registry K}

/-- Whether a parameter or domain mentions no decision variable and no decision expression. -/
def Entity.isData : Entity K → Bool
  | .parameter p => p.isData
  | .domain d => d.isData
  | _ => true

namespace Registry

variable {r t : Registry K} {e : Entity K}

theorem invalidate_invalidate (r : Registry K) : r.invalidate.invalidate = r.invalidate := by
  have hclear : ∀ p : Parameter K,
      (if (if p.definition.isSome then p.clear else p).definition.isSome then
        (if p.definition.isSome then p.clear else p).clear
      else if p.definition.isSome then p.clear else p) =
        if p.definition.isSome then p.clear else p := by
    intro p
    by_cases hp : p.definition.isSome = true <;> simp [hp, Parameter.clear]
  simp only [invalidate, Table.map, List.map_map, Function.comp_def, hclear]

theorem isData_invalidate : r.invalidate.IsData ↔ r.IsData := by
  have hclear : ∀ p : Parameter K,
      (if p.definition.isSome then p.clear else p).isData = p.isData := by
    intro p
    split <;> rfl
  constructor <;> intro h
  · refine ⟨fun {s p} hp => ?_, fun {s d} hd => ?_, fun {s d} hd => ?_⟩
    · rw [← hclear]
      exact h.params (s := s) (by rw [find?_params_invalidate, hp, Option.map_some])
    · have hdata := h.ranges (s := s) (d := d.forget) (by
        simp only [invalidate, find?_map, hd, Option.map_some]; rfl)
      exact hdata
    · have hdata := h.sets (s := s) (d := d.forget) (by
        simp only [invalidate, find?_map, hd, Option.map_some]; rfl)
      exact hdata
  · refine ⟨fun {s q} hq => ?_, fun {s d} hd => ?_, fun {s d} hd => ?_⟩
    · rw [find?_params_invalidate, Option.map_eq_some_iff] at hq
      obtain ⟨p, hp, rfl⟩ := hq
      rw [hclear]
      exact h.params hp
    · simp only [invalidate, find?_map, Option.map_eq_some_iff] at hd
      obtain ⟨d, hd, rfl⟩ := hd
      have hdata := h.ranges hd
      exact hdata
    · simp only [invalidate, find?_map, Option.map_eq_some_iff] at hd
      obtain ⟨d, hd, rfl⟩ := hd
      have hdata := h.sets hd
      exact hdata

theorem IsData.put (h : r.IsData) (he : e.isData = true) : (r.put e).IsData := by
  cases e with
  | parameter p =>
    exact { h with
      params := forall_insert (P := fun _ (p : Parameter K) => p.isData = true) h.params he }
  | domain d =>
    cases d with
    | range d =>
      exact { h with
        ranges := forall_insert (P := fun _ d => (Domain.range d).isData = true) h.ranges he }
    | computed d =>
      exact { h with
        sets := forall_insert (P := fun _ d => (Domain.computed d).isData = true) h.sets he }
    | _ => exact { h with }
  | _ => exact { h with }

/-! ## Declarations -/

theorem find?_params_put (hs : e.symbol ≠ s) : (r.put e).params.find? s = r.params.find? s := by
  cases e with
  | parameter p => exact find?_insert_of_ne _ _ hs
  | domain d => cases d <;> rfl
  | _ => rfl

theorem find?_tupleSets_put (hs : e.symbol ≠ s) :
    (r.put e).tupleSets.find? s = r.tupleSets.find? s := by
  cases e with
  | domain d =>
    cases d with
    | tuples d => exact find?_insert_of_ne _ _ hs
    | _ => rfl
  | _ => rfl

theorem domain?_put (hs : e.symbol ≠ s) : (r.put e).domain? s = r.domain? s := by
  cases e with
  | domain d =>
    cases d with
    | tuples d | computed d | primitive d | index d | range d =>
      simp only [put, putDomain, domain?]
      rw [find?_insert_of_ne _ _ (show d.symbol ≠ s from hs)]
  | _ => rfl

/-- A registry says the same after another symbol is declared. -/
theorem offers_put (h : r.isDeclared e.symbol = false) :
    r.invalidate.Offers (fun _ => True) (r.put e).invalidate := by
  simp only [isDeclared, Bool.or_eq_false_iff] at h
  obtain ⟨⟨⟨⟨_, hdomain⟩, hparams⟩, _⟩, _⟩ := h
  have hdomain : r.domain? e.symbol = none := by simpa using hdomain
  have hparams : r.params.find? e.symbol = none := by simpa [contains] using hparams
  have htuples : r.tupleSets.find? e.symbol = none := by
    cases hfound : r.tupleSets.find? e.symbol with
    | none => rfl
    | some d => simp [domain?, hfound] at hdomain
  refine ⟨fun s => ?_, fun s => ?_, fun s => ?_⟩ <;> by_cases hs : e.symbol = s
  · subst hs
    exact .inr ⟨by rw [find?_params_invalidate, hparams]; rfl, fun _ => trivial⟩
  · exact .inl (by rw [find?_params_invalidate, find?_params_invalidate, find?_params_put hs])
  · subst hs
    exact .inr ⟨htuples, fun _ => trivial⟩
  · have htuples := find?_tupleSets_put (r := r) hs
    exact .inl htuples.symm
  · subst hs
    exact .inr ⟨by rw [domain?_invalidate, hdomain]; rfl, fun _ => trivial⟩
  · exact .inl (by rw [domain?_invalidate, domain?_invalidate, domain?_put hs])

end Registry

variable [Scalar K]

namespace Registry

variable {B C r t : Registry K} {e : Entity K}

/-- A parameter whose values need not be computed means itself. -/
theorem amounts_of_settled {p : Parameter K} (h : B.params.find? s = some p)
    (hp : p.isSettled = true) : B.Amounts (.parameter s) (.ok p) :=
  .workedOut (B.meant _) id (fun _ _ => means_meant) (ends_ok p)
    (congrArg Prod.fst (start_settledParameter h hp _))

theorem currentFor_invalidate (hr : r.Keyed) : r.invalidate.CurrentFor r.invalidate where
  keyed := hr.invalidate
  base := invalidate_invalidate r
  ranges {s d} hd := by
    simp only [invalidate, find?_map, Option.map_eq_some_iff] at hd
    obtain ⟨d, _, rfl⟩ := hd
    exact ⟨fun _ h => (by cases h), fun _ h => (by cases h)⟩
  sets {s d} hd := by
    simp only [invalidate, find?_map, Option.map_eq_some_iff] at hd
    obtain ⟨d, _, rfl⟩ := hd
    exact fun _ h => (by cases h)
  params := amounts_of_settled

section Extension

variable (hB : B.Keyed) (hBdata : B.IsData) (hC : C.Keyed) (hCdata : C.IsData)
  (hBC : B.Offers (fun _ => True) C)

include hB hBdata hC hCdata hBC

/-- What everything means where less is declared, it still means if it is not a failure. -/
theorem meant_agree :
    (B.meant fun _ => False).Agree (fun _ => True) (fun _ => False) (C.meant fun _ => False) := by
  intro q hq
  cases hmeant : B.meant (fun _ => False) q with
  | error f => exact .inl ⟨f, rfl, trivial⟩
  | ok a =>
    have hmeans := means_meant (B := B) (W := fun _ => False) (q := q) (hmeant ▸ ends_ok a)
    rw [hmeant] at hmeans
    exact .inr (.inr ((hmeans.extend hB hBdata hBC rfl hq).meant_eq hC hCdata hq).symm)

theorem bound_extend {e : Expr K} (he : e.isData = true) {i : Int} (h : B.bound e = .ok i) :
    C.bound e = .ok i := by
  have hL := (meant_agree hB hBdata hC hCdata hBC).lookups (Q := Seen fun _ _ => True) id
  have hstep := Simulation.rangeBound e
    (Simulation.exprValue hL e ⟨rfl, Env.isPlain_empty⟩ (.inr he)) (s := ⟨B, []⟩) (t := ⟨C, []⟩)
    hBC.seen
  obtain ⟨f, _, hf, _⟩ | ⟨_, _, hfalse⟩ | hsame := hstep.answers
  · cases h.symm.trans hf
  · exact hfalse.elim
  · exact hsame.symm.trans h

theorem members_extend {d : ComputedSet K} (hd : (Domain.computed d).isData = true)
    {key : Value K} {vs : List (Value K)} (h : B.members d key = .ok vs) :
    C.members d key = .ok vs := by
  have hL := (meant_agree hB hBdata hC hCdata hBC).lookups (Q := Seen fun _ _ => True) id
  have hstep := Simulation.comprehend hL d hd (a := d.scopeAt key) ⟨rfl, d.isPlain_scopeAt key⟩
    (s := ⟨B, []⟩) (t := ⟨C, []⟩) hBC.seen
  obtain ⟨f, _, hf, _⟩ | ⟨_, _, hfalse⟩ | hsame := hstep.answers
  · cases h.symm.trans hf
  · exact hfalse.elim
  · exact hsame.symm.trans h

end Extension

/-- A registry of data in which everything that has been computed is what it amounts to. -/
structure IsCurrent (r : Registry K) : Prop where
  isData : r.IsData
  current : r.CurrentFor r.invalidate

theorem isCurrent_empty : ({} : Registry K).IsCurrent where
  isData := ⟨fun h => (by cases h), fun h => (by cases h), fun h => (by cases h)⟩
  current := currentFor_invalidate (r := {})
    ⟨fun h => (by cases h), fun h => (by cases h), fun h => (by cases h)⟩

/-- Declaring something new does not change what has been found before. -/
theorem IsCurrent.put (h : r.IsCurrent) {P : Expr K → Prop} (hnew : e.IsNew P)
    (hdata : e.isData = true) (hdeclared : r.isDeclared e.symbol = false) :
    (r.put e).IsCurrent := by
  refine ⟨h.isData.put hdata, ?_⟩
  have hBC := offers_put hdeclared
  have hB := h.current.keyed.invalidate
  have hBdata := isData_invalidate.2 h.isData
  have hC := (h.current.keyed.put e).invalidate
  have hCdata := isData_invalidate.2 (h.isData.put hdata)
  generalize hCeq : (r.put e).invalidate = C at hBC hC hCdata ⊢
  have hranges : ∀ {s d}, r.boundRanges.find? s = some d → d.IsCurrent C := by
    intro s d hd
    have hddata := h.isData.ranges hd
    simp only [Domain.isData, Bool.and_eq_true] at hddata
    have hcurrent := h.current.ranges hd
    exact ⟨fun i hi => bound_extend hB hBdata hC hCdata hBC hddata.1 (hcurrent.first i hi),
      fun i hi => bound_extend hB hBdata hC hCdata hBC hddata.2 (hcurrent.last i hi)⟩
  have hsets : ∀ {s d}, r.computedSets.find? s = some d → d.IsCurrent C := fun hd entry hentry =>
    (h.current.sets hd entry hentry).imp_right
      (members_extend hB hBdata hC hCdata hBC (h.isData.sets hd))
  have hparams : ∀ {s p}, r.params.find? s = some p → p.isSettled = true →
      C.Amounts (.parameter s) (.ok p) := fun hp hsettled =>
    (h.current.params hp hsettled).extend hB hBdata hBC rfl trivial
  have hkeyed := h.current.keyed.put e
  cases e with
  | parameter p =>
    refine ⟨hkeyed, hCeq, hranges, hsets, forall_insert (P := fun s (p : Parameter K) =>
      p.isSettled = true → C.Amounts (.parameter s) (.ok p)) hparams fun hsettled => ?_⟩
    have hgiven : p.definition = none := by
      simpa [Parameter.isSettled, hnew.1] using hsettled
    refine amounts_of_settled ?_ hsettled
    rw [← hCeq, find?_params_invalidate]
    simp [put, putParameter, find?_insert_self, hgiven]
  | domain d =>
    cases d with
    | range d =>
      refine ⟨hkeyed, hCeq, forall_insert (P := fun _ (d : BoundRange K) => d.IsCurrent C)
        hranges ⟨fun i hi => ?_, fun i hi => ?_⟩, hsets, hparams⟩
      · simp [hnew.1] at hi
      · simp [hnew.2] at hi
    | computed d =>
      refine ⟨hkeyed, hCeq, hranges, forall_insert
        (P := fun _ (d : ComputedSet K) => d.IsCurrent C) hsets fun entry hentry => ?_, hparams⟩
      have hnone : d.known = empty := hnew
      simp [hnone, empty] at hentry
    | _ => exact ⟨hkeyed, hCeq, hranges, hsets, hparams⟩
  | _ => exact ⟨hkeyed, hCeq, hranges, hsets, hparams⟩

/-- Assigned data makes a registry forget what it has computed. -/
theorem renewed_isCurrent : Renewed (K := K) (fun r => r.Keyed ∧ r.IsData) IsCurrent where
  stored {r s p q} hp hpq hr := by
    have hdata : q.isData = p.isData := by
      rw [← hpq]
      rfl
    exact ⟨hr.1.putParameter q, { hr.2 with
      params := forall_insert (P := fun _ (p : Parameter K) => p.isData = true) hr.2.params
        (hdata.trans (hr.2.params hp)) }⟩
  elements _ hr := ⟨hr.1.putDomain _, { hr.2 with }⟩
  records _ hr := ⟨hr.1.putDomain _, { hr.2 with }⟩
  forgotten {r} hr := by
    refine ⟨isData_invalidate.2 hr.2, ?_⟩
    rw [invalidate_invalidate]
    exact currentFor_invalidate hr.1

end Registry

/-! ## Reading -/

/-- The operations that read a registry. -/
inductive IsRead : ∀ {α : Type}, Run K α → Prop
  | elements (symbol : String) (given : Option (Value K)) :
      IsRead (resolveDomain symbol Env.empty given)
  | parameter (symbol : String) (idx : Index K) : IsRead (readParameter symbol idx)
  | value (e : Expr K) (he : e.isData = true) : IsRead (e.evaluateValue Env.empty)

/-- Reading looks up data, and nothing else. -/
theorem IsRead.lookup (hx : IsRead x) : ∃ c : Lookup K → Run K α,
    (∀ s, x.start s = (c s.registry.lookup).start s) ∧
      ∀ {R : Simulation K} {L M}, R.Lookups L M → R.sees Env.empty Env.empty →
        R.rel (c L) (c M) := by
  cases hx with
  | elements symbol given =>
    exact ⟨fun L => L.elements symbol Env.empty given, start_lookup _, fun hL hsees =>
      hL.elements symbol given hsees⟩
  | parameter symbol idx =>
    exact ⟨fun L => L.parameter symbol idx, start_lookup _, fun hL _ => hL.parameter symbol idx⟩
  | value e he =>
    exact ⟨fun L => e.value L Env.empty, start_lookup _, fun hL hsees =>
      Simulation.exprValue hL e hsees (.inr he)⟩

/-- A current registry is read in step with what everything means. -/
theorem IsRead.inStepAt (hx : IsRead x) {B : Registry K} (hB : B.Keyed)
    (hdata : B.IsData) (hfamilies : B.FamiliesAgree) : ∃ y : Run K α,
      ∀ {s : Store K}, s.registry.CurrentFor B →
        InStepAt B.GivesUp (fun _ => False) (fun r _ => r.CurrentFor B) x y s ⟨B, []⟩ := by
  obtain ⟨c, hc, hstep⟩ := hx.lookup
  refine ⟨c B.meaning, fun {s} hs => ?_⟩
  have hL := lookup_meaning hB hdata hfamilies (s.registry.size + familyDepth) s.registry
  have hahead : B.Ahead s.registry (fun _ => False) s.registry B := ⟨hs, fun _ _ => rfl, .refl B⟩
  refine inStepAt_congr (hc s) rfl ?_
  exact (hstep hL ⟨rfl, Env.isPlain_empty⟩ hahead).mono fun hr => hr.1

/-- Reading leaves a registry current, also if it fails. -/
theorem IsRead.isCurrent (hx : IsRead x) {s : Store K} (hs : s.registry.IsCurrent)
    (hfamilies : s.registry.invalidate.FamiliesAgree) (hends : Ends (x.start s).1) :
    (x.start s).2.registry.IsCurrent := by
  have hB := hs.current.keyed.invalidate
  have hdata := isData_invalidate.2 hs.isData
  obtain ⟨y, hy⟩ := hx.inStepAt hB hdata hfamilies
  obtain ⟨f, s', hfails, hf⟩ | ⟨_, _, _, hfalse⟩ | ⟨a, s', t', hstart, _, hs'⟩ := hy hs.current
  · exact absurd hf.1 (hends f (congrArg Prod.fst hfails))
  · exact hfalse.elim
  · rw [hstart]
    have hsame : s'.registry.invalidate = s.registry.invalidate := hs'.base
    exact ⟨isData_invalidate.1 (hsame ▸ hdata), hsame ▸ hs'⟩

/-- The registries that declarations, assignments of data and reads lead to, where a property holds
of each registry that is read. Declared parameters and domains mention no decision variables and no
decision expressions, and no read goes on forever. -/
inductive Registry.Visited (P : Registry K → Prop) : Registry K → Prop
  | empty : Visited P {}
  | declared {r t : Registry K} {e : Entity K} (hr : Visited P r) (hnew : e.IsNew fun _ => True)
      (hdata : e.isData = true) (h : r.declare e = .ok t) : Visited P t
  | data {s s' : Store K} {x : Run K Unit} (hs : Visited P s.registry) (hx : IsDataOperation x)
      (h : x.Returns s () s') : Visited P s'.registry
  | read {α : Type} {s : Store K} {x : Run K α} (hs : Visited P s.registry) (hP : P s.registry)
      (hx : IsRead x) (hends : Ends (x.start s).1) : Visited P (x.start s).2.registry

theorem Registry.Visited.declareAll {P : Registry K → Prop} {es : List (Entity K)}
    (hnew : ∀ e ∈ es, e.IsNew fun _ => True) (hdata : es.all Entity.isData = true)
    (hr : r.Visited P) (h : (es.foldlM declare r).toOption.isSome = true) :
    (es.foldl Registry.put r).Visited P := by
  induction es generalizing r with
  | nil => exact hr
  | cons e es ih =>
    simp only [List.all_cons, Bool.and_eq_true] at hdata
    rw [List.foldlM_cons, declare] at h
    split at h
    · cases h
    · rename_i hfree
      refine ih (fun e' he' => hnew e' (List.mem_cons_of_mem _ he')) hdata.2
        (.declared hr (hnew e List.mem_cons_self) hdata.1 ?_) h
      rw [declare, if_neg hfree]

theorem Registry.Visited.assigned {P : Registry K → Prop} {s : Store K} {x : Run K Unit}
    (hs : s.registry.Visited P) (hx : IsDataOperation x)
    (h : (x.start s).1.toOption = some ()) : (x.start s).2.registry.Visited P := by
  obtain ⟨s', hs'⟩ := returns_of_toOption h
  rw [show (x.start s).2 = s' from congrArg Prod.snd hs']
  exact .data hs hx hs'

theorem Registry.Visited.isCurrent
    (h : r.Visited fun r => r.invalidate.FamiliesAgree) : r.IsCurrent := by
  induction h with
  | empty => exact isCurrent_empty
  | declared _ hnew hdata h ih =>
    unfold declare at h
    split at h
    · cases h
    · rename_i hfree
      cases h
      exact ih.put hnew hdata (Bool.eq_false_iff.2 hfree)
  | data _ hx h ih => exact (hx.leads renewed_isCurrent ⟨ih.current.keyed, ih.isData⟩ h).1
  | read _ hfamilies hx hends ih => exact hx.isCurrent ih hfamilies hends

/-- A registry gives the same answers as when everything it has computed is forgotten first, if the
members of its families agree at outer indices that compare equal. -/
theorem read_invalidated {s : Store K}
    (hs : s.registry.Visited fun r => r.invalidate.FamiliesAgree)
    (hfamilies : s.registry.invalidate.FamiliesAgree) {x : Run K α} (hx : IsRead x)
    (hends : Ends (x.start s).1) (hends' : Ends ((do invalidate; x).start s).1) :
    (x.start s).1 = ((do invalidate; x).start s).1 := by
  have hcurrent := hs.isCurrent
  have hkeyed := hcurrent.current.keyed
  obtain ⟨y, hy⟩ := hx.inStepAt hkeyed.invalidate
    (isData_invalidate.2 hcurrent.isData) hfamilies
  have hanswer : ∀ {t : Store K}, t.registry.CurrentFor s.registry.invalidate →
      Ends (x.start t).1 → (x.start t).1 = (y.start ⟨s.registry.invalidate, []⟩).1 := by
    intro t ht hends
    obtain ⟨f, _, hf, hendless, _⟩ | ⟨_, _, hfalse⟩ | hsame := (hy ht).answers
    · exact absurd hendless (hends f hf)
    · exact hfalse.elim
    · exact hsame
  have hforgotten : (do invalidate; x).start s =
      x.start { s with registry := s.registry.invalidate } :=
    Returns.start_bind (a := ()) (returns_modifyRegistry.2 rfl)
  rw [hforgotten] at hends' ⊢
  rw [hanswer hcurrent.current hends,
    hanswer (currentFor_invalidate hkeyed) hends']

/-- Comprehensions that are no families have one member. -/
theorem Registry.familiesAgree_of_outer
    (h : r.computedSets.toList.all (·.2.outer.isNone) = true) : r.FamiliesAgree := by
  intro s d hd v w _ _ _
  obtain ⟨k, hmem, _⟩ := exists_of_find? hd
  have houter : d.outer = none := Option.isNone_iff_eq_none.1 (List.all_eq_true.1 h _ hmem)
  simp only [members, ComputedSet.scopeAt, houter, implies_true]

/-- Whether a comprehension is no family, or its first iterator runs up to its outer index. -/
def ComputedSet.countsToIndex (d : ComputedSet K) : Bool :=
  match d.outer, d.iterators with
  | none, _ => true
  | some outer, .mk _ (.range _ (.name i)) _ :: _ => i == outer.symbol
  | some _, _ => false

/-- Numbers that compare equal as indices are the same. -/
theorem Value.eq_of_beq_number {v w : Value ℚ} (hv : v.IsIndex) (hw : w.IsIndex)
    (hnumber : v.number?.isSome = true ∨ w.number?.isSome = true) (h : (v == w) = true) :
    v = w := by
  have hreal : ∀ {i : Int} {x : ℚ}, (real x).IsIndex → Scalar.intEq i x = false := by
    intro i x hx
    refine Bool.eq_false_iff.2 fun heq => ?_
    have hnormal := hx.2
    simp [normalize, beq_iff_eq.1 heq] at hnormal
  change beq v w = true at h
  cases v with
  | bool b => cases hv.2
  | int i =>
    cases w with
    | bool b => cases hw.2
    | int j => simpa [beq, number?, Number.beq] using h
    | real y => simp [beq, number?, Number.beq, hreal hw] at h
    | _ => simp [beq, number?] at h
  | real x =>
    cases w with
    | bool b => cases hw.2
    | int j => simp [beq, number?, Number.beq, hreal hv] at h
    | real y => simpa [beq, number?, Number.beq, Scalar.eq] using h
    | _ => simp [beq, number?] at h
  | _ => cases w <;> simp [beq, number?] at h hnumber

/-- A family that counts up to its outer index has members at numbers only. -/
theorem Registry.number_of_members {B : Registry K} {d : ComputedSet K} {v : Value K}
    {vs : List (Value K)} {outer : Iter K} (houter : d.outer = some outer)
    (hcounts : d.countsToIndex = true) (h : B.members d v = .ok vs) : v.number?.isSome = true := by
  have hits : ∃ k first filter its,
      d.iterators = .mk k (.range first (.name outer.symbol)) filter :: its := by
    simp only [ComputedSet.countsToIndex, houter] at hcounts
    split at hcounts
    · rename_i hnone
      cases hnone
    · rename_i hsome hits
      cases hsome
      rw [beq_iff_eq] at hcounts
      exact ⟨_, _, _, _, hcounts ▸ hits⟩
    · cases hcounts
  obtain ⟨k, first, filter, its, hits⟩ := hits
  have hbound : (d.scopeAt v).get? outer.symbol = some v := by
    simp only [ComputedSet.scopeAt, houter, Env.get?_bind_self]
  obtain ⟨s', hs'⟩ : ∃ s', (comprehend B.meaning d (d.scopeAt v)).Returns ⟨B, []⟩ vs s' :=
    ⟨_, Prod.ext h rfl⟩
  obtain ⟨found, _, hfound, -⟩ := returns_bind.1 hs'
  simp only [enumerate, Stage.enumerate, hits] at hfound
  split at hfound
  · simp at hfound
  · simp only [Expr.stages, Stage.visit] at hfound
    obtain ⟨ks, s₁, helements, -⟩ := returns_bind.1 hfound
    have hrange : (Expr.sourceElements B.meaning (.range first (.name outer.symbol))
        (d.scopeAt v)).Returns ⟨B, []⟩ ks s₁ := by
      cases filter <;> exact helements
    -- the last bound is the outer index as a number
    obtain ⟨_, _, -, hrest⟩ := returns_bind.1 hrange
    obtain ⟨_, _, hlast, -⟩ := returns_bind.1 hrest
    obtain ⟨x, _, hx, -⟩ := returns_bind.1 hlast
    obtain ⟨u, _, hu, hx⟩ := returns_bind.1 hx
    simp only [Expr.value, hbound] at hu
    obtain ⟨rfl, rfl⟩ := returns_pure.1 hu
    cases v with
    | bool | int | real => rfl
    | _ => simp [Expr.readNumber] at hx

theorem Registry.familiesAgree_of_countsToIndex {r : Registry ℚ}
    (h : r.computedSets.toList.all (·.2.countsToIndex) = true) : r.FamiliesAgree := by
  intro s d hd v w hv hw hvw vs
  obtain ⟨k, hmem, _⟩ := exists_of_find? hd
  have hcounts : d.countsToIndex = true := List.all_eq_true.1 h _ hmem
  cases houter : d.outer with
  | none => simp only [members, ComputedSet.scopeAt, houter]
  | some outer =>
    constructor
    · intro hvs
      have hnumber := number_of_members houter hcounts hvs
      rwa [← Value.eq_of_beq_number hv hw (.inl hnumber) hvw]
    · intro hvs
      have hnumber := number_of_members houter hcounts hvs
      rwa [Value.eq_of_beq_number hv hw (.inr hnumber) hvw]

/-- The multiples of a number, up to each of its first ones, and their sum. -/
def multiples : List (Entity ℚ) :=
  [.parameter { symbol := "m", type := .int, isExternal := true },
    .domain (.range { symbol := "R", first := .num 1, last := .name "m" }),
    .domain (.computed
      { symbol := "S", iterators := [.mk "k" (.range (.num 1) (.name "i")) none]
        output := some (.arith .mul (.name "k") (.name "m"))
        outer := some (.mk "i" (.named "R" none) none) }),
    .parameter
      { symbol := "total", type := .int
        definition := some (.sum
          [.mk "i" (.named "R" none) none, .mk "k" (.named "S" (some (.name "i"))) none]
          (.name "k") none) }]

/-- The number is given after the sum has been asked for in vain, and the sum is found. -/
def multiplesOfThree : Store ℚ :=
  let declared : Store ℚ := ⟨multiples.foldl Registry.put {}, []⟩
  let failed := ((readParameter "total" []).start declared).2
  let given := ((assignParameter "m" none (.int 3)).start failed).2
  ((readParameter "total" []).start given).2

theorem visited_multiplesOfThree :
    multiplesOfThree.registry.Visited fun r => r.invalidate.FamiliesAgree := by
  have hdeclared : (multiples.foldl Registry.put {}).Visited fun r =>
      r.invalidate.FamiliesAgree :=
    .declareAll (by simp [multiples, Entity.IsNew]) (by decide +kernel) .empty (by decide +kernel)
  have hfailed := Visited.read (s := ⟨_, []⟩) hdeclared
    (familiesAgree_of_countsToIndex (by decide +kernel)) (.parameter "total" [])
    (by decide +kernel)
  have hassigned := hfailed.assigned (.parameter "m" none (.int 3)) (by decide +kernel)
  exact hassigned.read (familiesAgree_of_countsToIndex (by decide +kernel))
    (.parameter "total" []) (by decide +kernel)

/-- A member of a family that has been found is found again after everything is forgotten. -/
theorem read_invalidated_multiples :
    (multiplesOfThree.registry.computedSets.find? "S").map (·.known.toList.length) = some 3 ∧
    ∃ vs : List (Value ℚ), vs.map Value.scalar? = [some 3, some 6] ∧
      ((resolveDomain "S" Env.empty (some (.int 2))).start multiplesOfThree).1 = .ok vs ∧
      ((do invalidate; resolveDomain "S" Env.empty (some (.int 2))).start
        multiplesOfThree).1 = .ok vs := by
  have hread : ((resolveDomain "S" Env.empty (some (.int 2))).start
      multiplesOfThree).1.toOption.map (·.map Value.scalar?) = some [some 3, some 6] := by
    decide +kernel
  obtain ⟨vs, hsome, hvalues⟩ := Option.map_eq_some_iff.1 hread
  obtain ⟨s, hvs⟩ := returns_of_toOption hsome
  have hanswer := congrArg Prod.fst hvs
  refine ⟨by decide +kernel, vs, hvalues, hanswer, ?_⟩
  rw [← read_invalidated visited_multiplesOfThree
    (familiesAgree_of_countsToIndex (by decide +kernel)) (.elements "S" (some (.int 2)))
    (by decide +kernel) (by decide +kernel)]
  exact hanswer

/-- The type of records with one number. -/
def cellType : Schema := ⟨"T", [("f", .float)], ["f"]⟩

/-- A family of sets with the reciprocal of the number in its outer index. -/
def reciprocals : List (Entity Float) :=
  [.schema cellType,
    .domain (.tuples
      { symbol := "A", schema := cellType, records := [.record cellType [.real Scalar.zero]] }),
    .domain (.computed
      { symbol := "S", iterators := [.mk "k" (.range (.num Scalar.one) (.num Scalar.one)) none]
        output := some (.arith .div (.num Scalar.one) (.field (.name "a") "f"))
        outer := some (.mk "a" (.named "A" none) none) })]

/-- A member of a family is kept for an outer index that compares equal: the reciprocal of zero is
given as that of the negative zero. -/
theorem kept_for_equal_index : ∃ s : Store Float, (s.registry.Visited fun _ => True) ∧
    ∃ x : Run Float (List (Value Float)), IsRead x ∧ Ends (x.start s).1 ∧
      Ends ((do invalidate; x).start s).1 ∧
      (x.start s).1 ≠ ((do invalidate; x).start s).1 := by
  have hdeclared : (reciprocals.foldl Registry.put {}).Visited fun _ => True :=
    .declareAll (by simp [reciprocals, Entity.IsNew]) (by decide +kernel) .empty
      (by decide +kernel)
  have hread := Visited.read (s := ⟨_, []⟩) hdeclared trivial
    (.elements "S" (some (.record cellType [.real Scalar.zero]))) (by decide +kernel)
  refine ⟨_, hread, _, .elements "S" (some (.record cellType [.real (-Scalar.zero)])),
    by decide +kernel, by decide +kernel, fun hsame => ?_⟩
  have hsigns := congrArg (fun a => a.toOption.map fun vs =>
    vs.map (· == .real Scalar.infinity)) hsame
  revert hsigns
  decide +kernel

end LinearModel
