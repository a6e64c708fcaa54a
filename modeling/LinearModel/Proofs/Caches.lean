import LinearModel.Proofs.Meaning

/-!
# Caches

A registry keeps the bounds of ranges, the members of comprehensions and the values of derived
parameters that it has computed. It is current if each of them is what the definitions amount to in
the registry that knows nothing. Questions put to a current registry are answered by their meaning,
and leave it current, also when they fail halfway.

Members of a family are kept by outer index, and found by an index that compares equal. A current
registry therefore needs that the members at such indices agree.
-/
namespace LinearModel

open Run Registry Table Parameter

variable {K : Type} {α : Type} {f : ComputedSet K → ComputedSet K} {key : Value K} {B : Registry K}
  {e : Expr K}

/-- A domain without what has been computed of it. -/
def Domain.forget : Domain K → Domain K
  | .computed d => .computed d.forget
  | .range d => .range d.forget
  | d => d

/-- Two states of a derived parameter that was declared once. -/
theorem Parameter.sameDeclaration_of_clear {p q : Parameter K} (h : p.clear = q.clear) :
    p.SameDeclaration q := by
  obtain ⟨_, _, _, _, _, _, _, _, _, _⟩ := p
  obtain ⟨_, _, _, _, _, _, _, _, _, _⟩ := q
  obtain ⟨rfl, rfl, rfl, rfl, rfl, rfl, rfl, _⟩ := h
  rfl

/-- The environment of the member of a comprehension at an outer index. -/
def ComputedSet.scopeAt (d : ComputedSet K) (key : Value K) : Env K :=
  match d.outer with
  | none => Env.empty
  | some outer => Env.empty.bind outer.symbol key

theorem ComputedSet.isPlain_scopeAt (d : ComputedSet K) (key : Value K) :
    (d.scopeAt key).IsPlain := by
  unfold scopeAt
  split <;> rfl

namespace Registry

variable {B r t : Registry K} {s : String}

/-- Two registries in which expressions see the same declarations. -/
structure SameSight (r t : Registry K) : Prop where
  params : ∀ s, r.params.contains s = t.params.contains s
  tupleSets : r.tupleSets = t.tupleSets

theorem SameSight.refl (r : Registry K) : r.SameSight r := ⟨fun _ => rfl, rfl⟩

theorem SameSight.seen (hr : B.SameSight r) (ht : B.SameSight t)
    (left : Failure K → Registry K → Prop) : r.Seen left t where
  params s := .inl ((hr.params s).symm.trans (ht.params s))
  tupleSets s := .inl (by rw [← hr.tupleSets, ← ht.tupleSets])

theorem SameSight.putParameter (h : B.SameSight t) {q : Parameter K}
    (hq : B.params.contains q.symbol = true) : B.SameSight (t.putParameter q) where
  params s := by
    by_cases hs : q.symbol = s
    · subst hs
      rw [hq]
      simp [contains, Registry.putParameter, find?_insert_self]
    · simpa [contains, Registry.putParameter, find?_insert_of_ne _ _ hs] using h.params s
  tupleSets := h.tupleSets

theorem sameSight_invalidate (r : Registry K) : r.invalidate.SameSight r where
  params s := by simp [contains, invalidate, find?_map]
  tupleSets := rfl

theorem find?_params_invalidate (r : Registry K) (s : String) : r.invalidate.params.find? s =
      (r.params.find? s).map fun p => if p.definition.isSome then p.clear else p :=
  find?_map _ _ _

theorem params_changeRange (r : Registry K) (s : String) (f : BoundRange K → BoundRange K) :
    (r.changeRange s f).params = r.params := by
  unfold changeRange
  split <;> rfl

theorem params_changeMembers (r : Registry K) (s : String) (f : ComputedSet K → ComputedSet K) :
    (r.changeMembers s f).params = r.params := by
  unfold changeMembers
  split <;> rfl

theorem domain?_invalidate (r : Registry K) (s : String) :
    r.invalidate.domain? s = (r.domain? s).map Domain.forget := by
  simp only [domain?, invalidate, find?_map]
  cases r.tupleSets.find? s <;> cases r.computedSets.find? s <;>
    cases r.primitiveSets.find? s <;> cases r.indexSets.find? s <;>
    cases r.boundRanges.find? s <;> rfl

/-- The values of a derived parameter are forgotten. -/
theorem invalidate_putParameter {p q : Parameter K} (hp : r.params.find? q.symbol = some p)
    (hpq : p.SameDeclaration q) (hderived : q.definition.isSome = true) :
    (r.putParameter q).invalidate = r.invalidate := by
  simp only [invalidate, putParameter]
  have hsame : (if q.definition.isSome then q.clear else q) =
      if p.definition.isSome then p.clear else p := by
    rw [← hpq.definition, if_pos hderived, if_pos hderived, ← hpq]
    rfl
  rw [map_insert (f := fun p : Parameter K => if p.definition.isSome then p.clear else p)
    hp hsame]

/-- What is known of a range is forgotten. -/
theorem invalidate_changeRange (hr : r.Keyed) {f : BoundRange K → BoundRange K}
    (hf : ∀ {d}, r.boundRanges.find? s = some d → (f d).forget = d.forget) :
    (r.changeRange s f).invalidate = r.invalidate := by
  unfold changeRange
  cases hd : r.boundRanges.find? s with
  | none => rfl
  | some d =>
    have hs : d.symbol = s := hr.boundRanges hd
    exact congrArg (fun u => { r.invalidate with boundRanges := u })
      (map_insert (hs.symm ▸ hd) (hf hd))

theorem Keyed.changeRange (hr : r.Keyed) {f : BoundRange K → BoundRange K}
    (hf : ∀ {d}, r.boundRanges.find? s = some d → (f d).forget = d.forget) :
    (r.changeRange s f).Keyed := by
  unfold Registry.changeRange
  cases hd : r.boundRanges.find? s with
  | none => exact hr
  | some d =>
    have hsymbol : (f d).symbol = d.symbol := by
      have hsame := congrArg BoundRange.symbol (hf hd)
      exact hsame
    exact { hr with
      boundRanges := forall_insert (P := fun s (d : BoundRange K) => d.symbol = s)
        hr.boundRanges hsymbol }

/-- What is known of a comprehension is forgotten. -/
theorem invalidate_changeMembers (hr : r.Keyed)
    (hf : ∀ {d}, r.computedSets.find? s = some d → (f d).forget = d.forget) :
    (r.changeMembers s f).invalidate = r.invalidate := by
  unfold changeMembers
  cases hd : r.computedSets.find? s with
  | none => rfl
  | some d =>
    have hs : d.symbol = s := hr.computedSets hd
    exact congrArg (fun u => { r.invalidate with computedSets := u })
      (map_insert (hs.symm ▸ hd) (hf hd))

theorem Keyed.changeMembers (hr : r.Keyed)
    (hf : ∀ {d}, r.computedSets.find? s = some d → (f d).forget = d.forget) :
    (r.changeMembers s f).Keyed := by
  unfold Registry.changeMembers
  cases hd : r.computedSets.find? s with
  | none => exact hr
  | some d =>
    have hsymbol : (f d).symbol = d.symbol := by
      have hsame := congrArg ComputedSet.symbol (hf hd)
      exact hsame
    exact { hr with
      computedSets := forall_insert (P := fun s (d : ComputedSet K) => d.symbol = s)
        hr.computedSets hsymbol }

end Registry

variable [Scalar K] {d : ComputedSet K} {s : Store K} {q : Question K} {env : Env K}

/-- A value in the form in which it serves as an index. -/
def Value.IsIndex (v : Value K) : Prop := v.isKey = true ∧ v.normalize = v

theorem memberScope_isIndex {given : Option (Value K)} {scope : Env K}
    (h : memberScope d env given = .ok (key, scope)) : key.IsIndex := by
  simp only [memberScope] at h
  split at h
  · cases h
    exact ⟨rfl, rfl⟩
  · rename_i outer _
    obtain ⟨v, hv, h⟩ := bind_eq_ok.1 h
    split at h
    · rename_i hkey
      cases h
      refine ⟨hkey, ?_⟩
      have hnormal : ∃ w : Value K, key = w.normalize := by
        simp only [outerIndex] at hv
        split at hv
        · split at hv <;> cases hv
          exact ⟨_, rfl⟩
        · split at hv <;> cases hv
          exact ⟨_, rfl⟩
        · cases hv
          exact ⟨_, rfl⟩
      obtain ⟨w, rfl⟩ := hnormal
      exact w.normalize_normalize
    · cases h

theorem memberScope_eq {given : Option (Value K)} {scope : Env K}
    (henv : env.IsPlain) (h : memberScope d env given = .ok (key, scope)) :
    scope = d.scopeAt key := by
  have henv : env.spawn = Env.empty := henv
  simp only [memberScope, henv] at h
  unfold ComputedSet.scopeAt
  cases ho : d.outer with
  | none =>
    simp only [ho] at h
    cases h
    rfl
  | some outer =>
    simp only [ho] at h
    obtain ⟨v, _, h⟩ := bind_eq_ok.1 h
    split at h
    · cases h
      rfl
    · cases h

/-! ## Current registries -/

/-- What the bound of a range amounts to. -/
noncomputable def Registry.bound (B : Registry K) (e : Expr K) : Except (Failure K) Int :=
  ((rangeBound e (e.value B.meaning Env.empty)).start ⟨B, []⟩).1

/-- What the member of a comprehension at an outer index amounts to. -/
noncomputable def Registry.members (B : Registry K) (d : ComputedSet K) (key : Value K) :
    Except (Failure K) (List (Value K)) :=
  ((comprehend B.meaning d (d.scopeAt key)).start ⟨B, []⟩).1

/-- The members of a family at outer indices that compare equal amount to the same, or cannot be
computed at either of them. -/
def Registry.FamiliesAgree (B : Registry K) : Prop :=
  ∀ ⦃s : String⦄ ⦃d : ComputedSet K⦄, B.computedSets.find? s = some d →
    ∀ ⦃v w : Value K⦄, v.IsIndex → w.IsIndex → (v == w) = true →
      ∀ vs, B.members d v = .ok vs ↔ B.members d w = .ok vs

/-- The known bounds of a range are what they amount to. -/
structure BoundRange.IsCurrent (d : BoundRange K) (B : Registry K) : Prop where
  first : ∀ i, d.knownFirst = some i → B.bound d.first = .ok i
  last : ∀ i, d.knownLast = some i → B.bound d.last = .ok i

/-- The known members of a comprehension are what they amount to. -/
def ComputedSet.IsCurrent (d : ComputedSet K) (B : Registry K) : Prop :=
  ∀ e ∈ d.known.toList, e.1.IsIndex ∧ B.members d e.1 = .ok e.2

namespace Registry

/-- A registry in which everything that has been computed is what it amounts to in the registry that
knows nothing. -/
structure CurrentFor (r B : Registry K) : Prop where
  keyed : r.Keyed
  base : r.invalidate = B
  ranges : ∀ {s d}, r.boundRanges.find? s = some d → d.IsCurrent B
  sets : ∀ {s d}, r.computedSets.find? s = some d → d.IsCurrent B
  params : ∀ {s p}, r.params.find? s = some p → p.isSettled = true →
    B.Amounts (.parameter s) (.ok p)

variable {B r t : Registry K}

theorem CurrentFor.sameSight (h : r.CurrentFor B) : B.SameSight r := by
  rw [← h.base]
  exact sameSight_invalidate r

/-- Changing the values of a derived parameter. -/
theorem CurrentFor.putParameter (h : r.CurrentFor B) {p q : Parameter K}
    (hp : r.params.find? q.symbol = some p) (hpq : p.SameDeclaration q)
    (hderived : q.definition.isSome = true)
    (hq : q.isSettled = true → B.Amounts (.parameter q.symbol) (.ok q)) :
    (r.putParameter q).CurrentFor B where
  keyed := h.keyed.putParameter q
  base := (invalidate_putParameter hp hpq hderived).trans h.base
  ranges := h.ranges
  sets := h.sets
  params := forall_insert (P := fun (s : String) (p : Parameter K) => p.isSettled = true →
    B.Amounts (.parameter s) (.ok p)) h.params hq

/-- Changing what is known of a range. -/
theorem CurrentFor.changeRange (h : r.CurrentFor B) {s : String} {f : BoundRange K → BoundRange K}
    (hf : ∀ {d}, r.boundRanges.find? s = some d → (f d).IsCurrent B ∧ (f d).forget = d.forget) :
    (r.changeRange s f).CurrentFor B := by
  have hforget : ∀ {d}, r.boundRanges.find? s = some d → (f d).forget = d.forget :=
    fun hd => (hf hd).2
  have hkeyed := h.keyed.changeRange hforget
  have hbase := (invalidate_changeRange h.keyed hforget).trans h.base
  unfold Registry.changeRange at hkeyed hbase ⊢
  cases hd : r.boundRanges.find? s with
  | none => exact h
  | some d =>
    simp only [hd] at hkeyed hbase
    exact
      { keyed := hkeyed
        base := hbase
        ranges := forall_insert (P := fun _ (d : BoundRange K) => d.IsCurrent B) h.ranges
          (hf hd).1
        sets := h.sets
        params := h.params }

/-- Changing what is known of a comprehension. -/
theorem CurrentFor.changeMembers (h : r.CurrentFor B) {s : String}
    
    (hf : ∀ {d}, r.computedSets.find? s = some d → (f d).IsCurrent B ∧ (f d).forget = d.forget) :
    (r.changeMembers s f).CurrentFor B := by
  have hforget : ∀ {d}, r.computedSets.find? s = some d → (f d).forget = d.forget :=
    fun hd => (hf hd).2
  have hkeyed := h.keyed.changeMembers hforget
  have hbase := (invalidate_changeMembers h.keyed hforget).trans h.base
  unfold Registry.changeMembers at hkeyed hbase ⊢
  cases hd : r.computedSets.find? s with
  | none => exact h
  | some d =>
    simp only [hd] at hkeyed hbase
    exact
      { keyed := hkeyed
        base := hbase
        ranges := h.ranges
        sets := forall_insert (P := fun _ (d : ComputedSet K) => d.IsCurrent B) h.sets
          (hf hd).1
        params := h.params }

/-- Noting the first bound of a range. -/
theorem CurrentFor.noteFirst (h : r.CurrentFor B) {s : String} {i : Int}
    (hi : ∀ {d}, r.boundRanges.find? s = some d → B.bound d.first = .ok i) :
    (r.changeRange s fun d => { d with knownFirst := some i }).CurrentFor B := by
  refine h.changeRange fun {d} hd => ⟨⟨fun j hj => ?_, (h.ranges hd).last⟩, rfl⟩
  have hfirst : B.bound d.first = .ok j := Option.some.inj hj ▸ hi hd
  exact hfirst

/-- Noting the last bound of a range. -/
theorem CurrentFor.noteLast (h : r.CurrentFor B) {s : String} {i : Int}
    (hi : ∀ {d}, r.boundRanges.find? s = some d → B.bound d.last = .ok i) :
    (r.changeRange s fun d => { d with knownLast := some i }).CurrentFor B := by
  refine h.changeRange fun {d} hd => ⟨⟨(h.ranges hd).first, fun j hj => ?_⟩, rfl⟩
  have hlast : B.bound d.last = .ok j := Option.some.inj hj ▸ hi hd
  exact hlast

/-- Members are found at outer indices that compare equal. -/
theorem CurrentFor.members_iff (h : r.CurrentFor B) (hfamilies : B.FamiliesAgree) {s : String}
    (hd : r.computedSets.find? s = some d) {v w : Value K} (hv : v.IsIndex) (hw : w.IsIndex)
    (hvw : (v == w) = true) (vs : List (Value K)) :
    B.members d v = .ok vs ↔ B.members d w = .ok vs := by
  have hfound : B.computedSets.find? s = some d.forget := by
    rw [← h.base]
    simp only [invalidate, find?_map, hd]
    rfl
  exact hfamilies hfound hv hw hvw vs

/-- Noting a member of a comprehension. -/
theorem CurrentFor.noteMember (h : r.CurrentFor B) (hfamilies : B.FamiliesAgree) {s : String}
    {vs : List (Value K)} (hkey : key.IsIndex)
    (hvs : ∀ {d}, r.computedSets.find? s = some d → B.members d key = .ok vs) :
    (r.changeMembers s fun d => { d with known := d.known.insert key vs }).CurrentFor B := by
  refine h.changeMembers fun {d} hd => ⟨fun entry hentry => ?_, rfl⟩
  obtain hold | ⟨hentrykey, hvalue⟩ := mem_insert_beq hentry
  · exact h.sets hd entry hold
  · have hmembers : entry.1.IsIndex ∧ B.members d entry.1 = .ok vs := by
      obtain hentrykey | ⟨ws, hold, hequal⟩ := hentrykey
      · rw [hentrykey]
        exact ⟨hkey, hvs hd⟩
      · have hindex := (h.sets hd _ hold).1
        exact ⟨hindex, (h.members_iff hfamilies hd hindex hkey hequal vs).2 (hvs hd)⟩
    rw [hvalue]
    exact hmembers

theorem CurrentFor.range_forget (hr : r.CurrentFor B) (ht : t.CurrentFor B) {s : String}
    {d e : BoundRange K} (hd : r.boundRanges.find? s = some d)
    (he : t.boundRanges.find? s = some e) : e.forget = d.forget := by
  have hsame := congrArg (·.boundRanges.find? s) (hr.base.trans ht.base.symm)
  simp only [invalidate, find?_map, hd, he, Option.map_some, Option.some.injEq] at hsame
  exact hsame.symm

theorem CurrentFor.set_forget (hr : r.CurrentFor B) (ht : t.CurrentFor B) {s : String}
    {e : ComputedSet K} (hd : r.computedSets.find? s = some d)
    (he : t.computedSets.find? s = some e) : e.forget = d.forget := by
  have hsame := congrArg (·.computedSets.find? s) (hr.base.trans ht.base.symm)
  simp only [invalidate, find?_map, hd, he, Option.map_some, Option.some.injEq] at hsame
  exact hsame.symm

/-- Two registries that hold the same of some parameters. -/
def SameParams (W : String → Prop) (r t : Registry K) : Prop :=
  ∀ u, W u → t.params.find? u = r.params.find? u

end Registry

/-! ## Domains -/

/-- A definition that never ends is given up, and the registry is left current. -/
def Registry.GivesUp (B : Registry K) (f : Failure K) (r : Registry K) : Prop :=
  f.IsEndless ∧ r.CurrentFor B

/-- A computation that is given up leaves the registry current and does not end. -/
theorem Run.Fails.givenUp {x : Run K α} {s s' : Store K} {e : Failure K} (h : x.Fails s e s')
    (he : B.GivesUp e s'.registry) : (x.start s).2.registry.CurrentFor B ∧ ¬ Ends (x.start s).1 :=
  ⟨congrArg (·.2.registry) h ▸ he.2, fun hends => hends e (congrArg Prod.fst h) he.1⟩

/-- From a current registry, a computation is given up, or it gives an answer and leaves the
registry current and some of its parameters as they were. -/
def Run.Follows (B : Registry K) (right : Failure K → Prop) (W : String → Prop) (x : Run K α)
    (a : Except (Failure K) α) : Prop :=
  ∀ ⦃s : Store K⦄, s.registry.CurrentFor B →
    InStepAt B.GivesUp right (fun r _ => r.CurrentFor B ∧ s.registry.SameParams W r)
      x (give a) s ⟨B, []⟩

theorem Run.Follows.inStep {right : Failure K → Prop} {W : String → Prop}
    {x : Run K α} {a : Except (Failure K) α} (h : x.Follows B right W a)
    {Q : Registry K → Registry K → Prop} (hcurrent : ∀ {r t}, Q r t → r.CurrentFor B)
    (hkeep : ∀ {r r' t}, Q r t → r'.CurrentFor B → r.SameParams W r' → Q r' t) :
    InStep B.GivesUp right Q x (give a) := by
  intro s t hst
  obtain hleft | ⟨e, t', hfails, he⟩ | ⟨b, s', t', hx, hb, hs', hsame⟩ := h (hcurrent hst)
  · exact .inl hleft
  · have ha : a = .error e := congrArg Prod.fst hfails
    exact .inr (.inl ⟨e, t, by rw [ha]; rfl, he⟩)
  · have ha : a = b := congrArg Prod.fst hb
    exact .inr (.inr ⟨a, s', t, ha ▸ hx, rfl, hkeep hst hs' hsame⟩)

section Domains

variable {B r₀ : Registry K} {right : Failure K → Prop} {W : String → Prop} {f : Answers K}
  {L : Lookup K} {ask : ∀ q : Question K, Run K q.Answer}

/-- A registry that is current, with some parameters as they were before, and one in which
expressions see the same. -/
def Registry.Ahead (B r₀ : Registry K) (W : String → Prop) (r t : Registry K) : Prop :=
  r.CurrentFor B ∧ r₀.SameParams W r ∧ B.SameSight t

theorem Registry.Ahead.seen {r t : Registry K} (h : B.Ahead r₀ W r t)
    (left : Failure K → Registry K → Prop) : r.Seen left t :=
  h.1.sameSight.seen h.2.2 left

variable (hagree : f.Agree right (fun _ => False) (B.meant fun _ => False)) {t : Store K}

include hagree

/-- A bound computed from answers that are meant is what it amounts to. -/
theorem rangeBound_inStepAt (he : e.isData = true) (ht : B.SameSight t.registry) :
    InStepAt (fun f _ => right f) (fun _ => False) (fun t b => B.SameSight t ∧ B.SameSight b)
      (rangeBound e (e.value (.ofAnswers f) Env.empty))
      (rangeBound e (e.value B.meaning Env.empty)) t ⟨B, []⟩ := by
  have hL := hagree.lookups (Q := fun t b => B.SameSight t ∧ B.SameSight b)
    fun h => h.1.seen h.2 _
  exact Simulation.rangeBound e (Simulation.exprValue hL e ⟨rfl, Env.isPlain_empty⟩ (.inr he))
    ⟨ht, .refl B⟩

/-- Members computed from answers that are meant are what they amount to. -/
theorem comprehend_inStepAt (hd : (Domain.computed d).isData = true) (key : Value K)
    (ht : B.SameSight t.registry) :
    InStepAt (fun f _ => right f) (fun _ => False) (fun t b => B.SameSight t ∧ B.SameSight b)
      (comprehend (.ofAnswers f) d (d.scopeAt key)) (comprehend B.meaning d (d.scopeAt key))
      t ⟨B, []⟩ := by
  have hL := hagree.lookups (Q := fun t b => B.SameSight t ∧ B.SameSight b)
    fun h => h.1.seen h.2 _
  exact Simulation.comprehend hL d hd ⟨rfl, d.isPlain_scopeAt key⟩ ⟨ht, .refl B⟩

variable (hL : L.Asks ask) (hask : ∀ q, q.IsPlain → (ask q).Follows B right W (f q))

include hL hask

omit hagree in
variable (r₀) in
theorem Lookup.Asks.ahead :
    (Simulation.inStep B.GivesUp right (Q := B.Ahead r₀ W) fun h => h.seen _).Lookups L
      (.ofAnswers f) := by
  refine hL.inStep _ (Lookup.ofAnswers_asks f) fun q hq => (hask q hq).inStep (fun h => h.1) ?_
  intro r r' t hrt hr' hsame
  exact ⟨hr', fun u hu => (hsame u hu).trans (hrt.2.1 u hu), hrt.2.2⟩

/-- The bound of a range is computed in step, be it known or not. -/
theorem boundOf_inStepAt {symbol : String} (he : e.isData = true) {known : Option Int}
    (hknown : ∀ i, known = some i → B.bound e = .ok i) {note : Int → BoundRange K → BoundRange K}
    (hnote : ∀ {r : Registry K} {i}, r.CurrentFor B → B.bound e = .ok i →
      (r.changeRange symbol (note i)).CurrentFor B)
    (henv : env.IsPlain) (h : B.Ahead r₀ W s.registry t.registry) :
    InStepAt B.GivesUp right (B.Ahead r₀ W) (boundOf L symbol e known note env)
      (rangeBound e (e.value (.ofAnswers f) env.spawn)) s t := by
  have henv : env.spawn = Env.empty := henv
  simp only [boundOf, henv]
  cases hk : known with
  | some i =>
    exact (rangeBound_inStepAt hagree he h.2.2).known (hknown i hk) fun ht => ⟨h.1, h.2.1, ht.1⟩
  | none =>
    have hcomputed := Simulation.rangeBound e (Simulation.exprValue (hL.ahead r₀ hask) e
      ⟨rfl, Env.isPlain_empty⟩ (.inr he)) h
    rw [← bind_pure (rangeBound e (e.value (.ofAnswers f) Env.empty))]
    refine hcomputed.bind id fun {i s' t'} _ hreturns h' => ?_
    have hi := (rangeBound_inStepAt hagree he h.2.2).confirms hreturns
    refine .inr (.inr ⟨.ok i, _, t', rfl, rfl, hnote h'.1 hi, fun u hu => ?_, h'.2.2⟩)
    rw [← h'.2.1 u hu]
    exact congrArg (fun params : Table String (Parameter K) => params.find? u)
      (params_changeRange _ _ _)

/-- The elements of a range are computed in step, whatever is known of its bounds. -/
theorem rangeElements_inStepAt {d : BoundRange K} (hdata : (Domain.range d).isData = true)
    (henv : env.IsPlain) (h : B.Ahead r₀ W s.registry t.registry)
    (hd : s.registry.boundRanges.find? d.symbol = some d) :
    InStepAt B.GivesUp right (B.Ahead r₀ W) (rangeElements L d env)
      (do
        let first ← rangeBound d.first (d.first.value (.ofAnswers f) env.spawn)
        let last ← rangeBound d.last (d.last.value (.ofAnswers f) env.spawn)
        return intRange first last) s t := by
  simp only [Domain.isData, Bool.and_eq_true] at hdata
  have hsame : ∀ {r : Registry K} {e}, r.CurrentFor B → r.boundRanges.find? d.symbol = some e →
      e.first = d.first ∧ e.last = d.last := fun hr he => by
    have hfirst := congrArg BoundRange.first (h.1.range_forget hr hd he)
    have hlast := congrArg BoundRange.last (h.1.range_forget hr hd he)
    exact ⟨hfirst, hlast⟩
  refine (boundOf_inStepAt hagree hL hask hdata.1 (h.1.ranges hd).first
    (fun hr hi => hr.noteFirst fun he => (hsame hr he).1 ▸ hi) henv h).bind id ?_
  intro i s' t' _ _ h'
  refine (boundOf_inStepAt hagree hL hask hdata.2 (fun j hj => ?_)
    (fun hr hj => hr.noteLast fun he => (hsame hr he).2 ▸ hj) henv h').bind id fun _ _ h'' =>
      inStepAt_pure _ h''
  obtain ⟨e, he, hlast⟩ := Option.bind_eq_some_iff.1 hj
  exact (hsame h'.1 he).2 ▸ (h'.1.ranges he).last j hlast

/-- The elements of a comprehension are computed in step, whatever is known of its members. -/
theorem memberElements_inStepAt (hfamilies : B.FamiliesAgree)
    (hdata : (Domain.computed d).isData = true) (henv : env.IsPlain) (given : Option (Value K))
    (h : B.Ahead r₀ W s.registry t.registry)
    (hd : s.registry.computedSets.find? d.symbol = some d) :
    InStepAt B.GivesUp right (B.Ahead r₀ W) (memberElements L d env given)
      (do
        let (_, scope) ← Run.ofExcept (memberScope d env given)
        comprehend (.ofAnswers f) d scope) s t := by
  refine (inStepAt_ofExcept (memberScope d env given) h).bind id ?_
  rintro ⟨key, scope⟩ s' t' hreturns hreturns' h'
  obtain ⟨hscope, rfl⟩ := returns_ofExcept.1 hreturns
  obtain ⟨_, rfl⟩ := returns_ofExcept.1 hreturns'
  obtain rfl := memberScope_eq henv hscope
  have hindex := memberScope_isIndex hscope
  dsimp only
  cases hknown : d.known.find? key with
  | some vs =>
    obtain ⟨v, hv, hvkey⟩ := exists_of_find? hknown
    obtain ⟨hvindex, hvs⟩ := h.1.sets hd (v, vs) hv
    have hmembers : B.members d key = .ok vs :=
      (h.1.members_iff hfamilies hd hvindex hindex hvkey vs).1 hvs
    exact (comprehend_inStepAt hagree hdata key h.2.2).known hmembers fun ht => ⟨h.1, h.2.1, ht.1⟩
  | none =>
    rw [← bind_pure (comprehend (.ofAnswers f) d (d.scopeAt key))]
    refine (Simulation.comprehend (hL.ahead r₀ hask) d hdata
      ⟨rfl, d.isPlain_scopeAt key⟩ h).bind id ?_
    intro vs s' t' _ hreturns h'
    have hvs := (comprehend_inStepAt hagree hdata key h.2.2).confirms hreturns
    refine .inr (.inr ⟨.ok vs, _, t', rfl, rfl, h'.1.noteMember hfamilies hindex ?_,
      fun u hu => ?_, h'.2.2⟩)
    · intro e he
      have hsame : B.members e.forget key = B.members d key := by
        rw [h.1.set_forget h'.1 hd he]
        rfl
      exact hsame.trans hvs
    · rw [← h'.2.1 u hu]
      exact congrArg (fun params : Table String (Parameter K) => params.find? u)
        (params_changeMembers _ _ _)

/-- The elements of a domain are computed in step, whatever is known of it. -/
theorem domainElements_inStepAt (hfamilies : B.FamiliesAgree) (hdata : B.IsData) (symbol : String)
    (henv : env.IsPlain) (given : Option (Value K)) (h : s.registry.CurrentFor B) :
    InStepAt B.GivesUp right (B.Ahead s.registry W) (domainElements L symbol env given)
      (freshElements (.ofAnswers f) symbol env given) s ⟨B, []⟩ := by
  have hahead : B.Ahead s.registry W s.registry B := ⟨h, fun _ _ => rfl, .refl B⟩
  have hforget : B.domain? symbol = (s.registry.domain? symbol).map Domain.forget := by
    rw [← h.base]
    exact domain?_invalidate _ _
  refine inStepAt_registry ?_
  cases hd : s.registry.domain? symbol with
  | none =>
    simp only [hforget, hd, Option.map_none]
    exact inStepAt_fail _ hahead
  | some d =>
    have hddata : d.forget.isData = true := hdata.domains (by rw [hforget, hd]; rfl)
    simp only [hforget, hd, Option.map_some]
    cases d with
    | tuples d | primitive d | index d => exact inStepAt_pure _ hahead
    | range d =>
      have hfound := find?_of_domain?_range hd
      rw [← h.keyed.boundRanges hfound] at hfound
      exact rangeElements_inStepAt hagree hL hask hddata henv hahead hfound
    | computed d =>
      have hddata : (Domain.computed d).isData = true := hddata
      have hfound := find?_of_domain?_computed hd
      rw [← h.keyed.computedSets hfound] at hfound
      exact memberElements_inStepAt hagree hL hask hfamilies hddata henv given hahead hfound

end Domains

/-! ## Questions put to a current registry -/

theorem Registry.CurrentFor.derived {B r t : Registry K} (hr : r.CurrentFor B)
    (ht : t.CurrentFor B) {s : String} {p : Parameter K} (hp : r.params.find? s = some p)
    (hderived : p.definition.isSome = true) :
    ∃ q, t.params.find? s = some q ∧ q.SameDeclaration p := by
  have hsame := congrArg (·.params.find? s) (ht.base.trans hr.base.symm)
  simp only [find?_params_invalidate, hp, Option.map_some, if_pos hderived,
    Option.map_eq_some_iff] at hsame
  obtain ⟨q, hq, hclear⟩ := hsame
  refine ⟨q, hq, sameDeclaration_of_clear ?_⟩
  split at hclear
  · exact hclear
  · rw [hclear]
    rfl

section Questions

variable {B r₀ : Registry K} {right : Failure K → Prop} {W : String → Prop} {f : Answers K}
  {L : Lookup K} {ask : ∀ q : Question K, Run K q.Answer} {p : Parameter K}

/-- Changing an unfinished parameter keeps everything else. -/
theorem Registry.Ahead.putDraft {r t : Registry K} {q : Parameter K} (h : B.Ahead r₀ W r t)
    (h₀ : r₀.CurrentFor B) (hp : r₀.params.find? p.symbol = some p)
    (hderived : p.definition.isSome = true) (hfree : ¬ W p.symbol) (hpq : p.SameDeclaration q)
    (hq : q.isDefined = false) : B.Ahead r₀ W (r.putParameter q) (t.putParameter q) := by
  obtain ⟨hr, hsame, ht⟩ := h
  have hqderived : q.definition.isSome = true := by
    rw [hpq.definition]
    exact hderived
  obtain ⟨p', hp', hdeclared⟩ := h₀.derived hr hp hderived
  refine ⟨hr.putParameter (hpq.symbol ▸ hp') (hdeclared.trans hpq) hqderived fun hsettled => ?_,
    fun u hu => ?_, ht.putParameter ?_⟩
  · simp [isSettled, hq, Option.isNone_eq_false_iff.2 hqderived] at hsettled
  · have hne : q.symbol ≠ u := fun heq => hfree (hpq.symbol ▸ heq ▸ hu)
    exact (find?_insert_of_ne _ _ hne).trans (hsame u hu)
  · rw [hpq.symbol, h₀.sameSight.params, contains, hp]
    rfl

/-- What is asked while a parameter is unfinished leaves it as it is. -/
theorem Lookup.Asks.drafting (hL : L.Asks ask)
    (hask : ∀ q, q.IsPlain → (ask q).Follows B right (fun u => u = p.symbol ∨ W u) (f q)) :
    (Simulation.inStep B.GivesUp right
      (Q := fun r t => B.Ahead r₀ W r t ∧ SameDraft p r t) fun h => h.1.seen _).Lookups
        L (.ofAnswers f) := by
  refine hL.inStep _ (Lookup.ofAnswers_asks f) fun q hq => (hask q hq).inStep (fun h => h.1.1) ?_
  rintro r r' t ⟨⟨_, hbefore, ht⟩, q, hpq, hq, hr, hqt⟩ hr' hsame
  exact ⟨⟨hr', fun u hu => (hsame u (.inr hu)).trans (hbefore u hu), ht⟩,
    q, hpq, hq, (hsame _ (.inl rfl)).trans hr, hqt⟩

/-- From a store, a computation gives the answer that a question means, and leaves the registry
current and some of its parameters as they were. -/
def Question.AnsweredAt (B : Registry K) (W : String → Prop) (q : Question K)
    (x : Run K q.Answer) (s : Store K) : Prop :=
  ∃ a s', x.start s = (a, s') ∧ B.Amounts q a ∧ s'.registry.CurrentFor B ∧
    s.registry.SameParams W s'.registry

/-- A derived parameter that is asked of a current registry before it has been evaluated. -/
theorem openParameter_answered (hdata : B.IsData) (hL : L.Asks ask) (hfree : ¬ W p.symbol)
    (hask : ∀ q, q.IsPlain → (ask q).Follows B right (fun u => u = p.symbol ∨ W u) (f q))
    (hf : ∀ q, q.IsPlain → Ends (f q) → B.Means (fun u => u = p.symbol ∨ W u) q (f q))
    (h : s.registry.CurrentFor B) (hp : s.registry.params.find? p.symbol = some p)
    (he : p.definition = some e) (hopen : p.isDefined = false) :
    (∃ e s', (settledParameter L p.symbol).Fails s e s' ∧ B.GivesUp e s'.registry) ∨
      (∃ e t', (settledParameter (.ofAnswers f) p.symbol).Fails ⟨B, []⟩ e t' ∧ right e) ∨
      Question.AnsweredAt B W (.parameter p.symbol) (settledParameter L p.symbol) s := by
  have hderived : p.definition.isSome = true := by
    rw [he]
    rfl
  have hfind : B.params.find? p.symbol = some p.clear := by
    rw [← h.base, find?_params_invalidate, hp, Option.map_some, if_pos hderived]
  have hpdata := hdata.params hfind
  simp only [isData, clear, he, Option.all_some, Bool.and_eq_true] at hpdata
  have hstart := start_settledParameter_open hp he hopen L
  have hstart' := start_settledParameter_open (s := ⟨B, []⟩) hfind he rfl (.ofAnswers f)
  rw [draftParameter_congr _ e (p := p) (q := p.clear) rfl hopen.symm] at hstart'
  have hworked : ∀ {a}, Ends a →
      ((settledParameter (.ofAnswers f) p.symbol).start ⟨B, []⟩).1 = a →
      B.Amounts (.parameter p.symbol) a := fun hends ha =>
    (Means.workedOut (W := W) (q := .parameter p.symbol) f hfree hf hends ha).amounts
  have hahead : B.Ahead s.registry W s.registry B := ⟨h, fun _ _ => rfl, .refl B⟩
  have hdrafted := draftParameter_inStep (fun h => h.1.seen _)
    (fun hrt => hrt.putDraft h hp hderived hfree) (hL.drafting hask) hpdata.1 hpdata.2 hopen
    (s := s) (t := ⟨B, []⟩) hahead
  obtain ⟨c, s', hfails, hc⟩ | ⟨c, t', hfails, hc⟩ | ⟨a, s', t', hleft, hright, hahead, hdraft⟩ :=
    hdrafted
  · exact .inl ⟨c, s', hstart.trans (fails_bind.2 (.inl hfails)), hc⟩
  · exact .inr (.inl ⟨c, t', hstart'.trans (fails_bind.2 (.inl hfails)), hc⟩)
  · cases a with
    | error c =>
      have hfails := hstart.trans (fails_bind.2 (.inl hleft))
      by_cases hends : c.IsEndless
      · exact .inl ⟨c, s', hfails, hends, hahead.1⟩
      · have hfails' := hstart'.trans (fails_bind.2 (.inl hright))
        exact .inr (.inr ⟨.error c, s', hfails,
          hworked (ends_error hends) (congrArg Prod.fst hfails'), hahead.1, hahead.2.1⟩)
    | ok u =>
      -- The parameter is finished in both registries, with the same values.
      obtain ⟨q, hpq, _, hs', ht'⟩ := hdraft
      have hclosed := hstart.trans
        ((Returns.start_bind hleft).trans (start_closeParameter hs' hpq.symbol))
      have hclosed' := hstart'.trans
        ((Returns.start_bind hright).trans (start_closeParameter ht' hpq.symbol))
      have hamounts := hworked (ends_ok _) (congrArg Prod.fst hclosed')
      refine .inr (.inr ⟨_, _, hclosed, hamounts, ?_, fun u hu => ?_⟩)
      · refine hahead.1.putParameter (p := q) ?_ rfl ?_ fun _ => ?_
        · exact hpq.symbol ▸ hs'
        · exact hpq.definition ▸ hderived
        · exact hpq.symbol ▸ hamounts
      · have hne : q.symbol ≠ u := fun heq => hfree (hpq.symbol ▸ heq ▸ hu)
        exact (find?_insert_of_ne _ _ hne).trans (hahead.2.1 u hu)

/-- A parameter that is asked of a current registry. -/
theorem settledParameter_answered (hdata : B.IsData) (hL : L.Asks ask) {symbol : String}
    (hfree : ¬ W symbol)
    (hask : ∀ q, q.IsPlain → (ask q).Follows B right (fun u => u = symbol ∨ W u) (f q))
    (hf : ∀ q, q.IsPlain → Ends (f q) → B.Means (fun u => u = symbol ∨ W u) q (f q))
    (h : s.registry.CurrentFor B) :
    (∃ e s', (settledParameter L symbol).Fails s e s' ∧ B.GivesUp e s'.registry) ∨
      (∃ e t', (settledParameter (.ofAnswers f) symbol).Fails ⟨B, []⟩ e t' ∧ right e) ∨
      Question.AnsweredAt B W (.parameter symbol) (settledParameter L symbol) s := by
  cases hp : s.registry.params.find? symbol with
  | none =>
    have hfind : B.params.find? symbol = none := by
      rw [← h.base, find?_params_invalidate, hp, Option.map_none]
    have hends : Ends (.error { cause := .parameterNotDeclared symbol } :
        Except (Failure K) (Parameter K)) := ends_error fun hcause => by cases hcause
    have hmeans := Means.workedOut (W := W) (q := .parameter symbol) f hfree hf hends
      (congrArg Prod.fst (start_settledParameter_none hfind _))
    exact .inr (.inr ⟨_, s, start_settledParameter_none hp L, hmeans.amounts, h, fun _ _ => rfl⟩)
  | some p =>
    cases hsettled : p.isSettled with
    | true =>
      exact .inr (.inr ⟨_, s, start_settledParameter hp hsettled L, h.params hp hsettled, h,
        fun _ _ => rfl⟩)
    | false =>
      obtain ⟨e, he, hopen⟩ := definition_of_open hsettled
      obtain rfl : p.symbol = symbol := h.keyed.params hp
      exact openParameter_answered hdata hL hfree hask hf h hp he hopen

/-- The elements of a domain that are asked of a current registry. -/
theorem domainElements_answered (hB : B.Keyed) (hdata : B.IsData) (hfamilies : B.FamiliesAgree)
    (hagree : f.Agree right (fun _ => False) (B.meant fun _ => False)) (hL : L.Asks ask)
    (hask : ∀ q, q.IsPlain → (ask q).Follows B right W (f q)) (symbol : String) (henv : env.IsPlain)
    (given : Option (Value K)) (h : s.registry.CurrentFor B) :
    (∃ e s', (domainElements L symbol env given).Fails s e s' ∧ B.GivesUp e s'.registry) ∨
      (∃ e t', (freshElements (.ofAnswers f) symbol env given).Fails ⟨B, []⟩ e t' ∧ right e) ∨
      Question.AnsweredAt B W (.elements symbol env given)
        (domainElements L symbol env given) s := by
  obtain hleft | hright | ⟨a, s', t', hstart, hfresh, hahead⟩ :=
    domainElements_inStepAt hagree hL hask hfamilies hdata symbol henv given h
  · exact .inl hleft
  · exact .inr (.inl hright)
  · by_cases hends : Ends a
    · have hstep := workOut_inStepAt (.refl right B) hB hdata hagree
        (q := .elements symbol env given) henv [] []
      obtain ⟨e, _, he, hright⟩ | ⟨_, _, hfalse⟩ | hsame := hstep.answers
      · exact .inr (.inl ⟨e, t', hfresh.trans (Prod.ext ((congrArg Prod.fst hfresh).symm.trans he)
          rfl), hright⟩)
      · exact hfalse.elim
      · have hmeaning := hsame.symm.trans (congrArg Prod.fst hfresh)
        have hamounts : B.Amounts (.elements symbol env given) a :=
          .workedOut (B.meant fun _ => False) id (fun _ _ => means_meant) hends hmeaning
        exact .inr (.inr ⟨a, s', hstart, hamounts, hahead.1, hahead.2.1⟩)
    · obtain ⟨e, rfl, he⟩ := exists_of_not_ends hends
      exact .inl ⟨e, s', hstart, he, hahead.1⟩

/-- A question that is asked of a current registry. -/
theorem resolve_answered (hB : B.Keyed) (hdata : B.IsData) (hfamilies : B.FamiliesAgree)
    (hagree : f.Agree right (fun _ => False) (B.meant fun _ => False)) (hL : L.Asks ask)
    (hq : q.IsPlain) (hfree : ¬ q.IsBlocked W)
    (hask : ∀ q', q'.IsPlain → (ask q').Follows B right (q.blocking W) (f q'))
    (hf : ∀ q', q'.IsPlain → Ends (f q') → B.Means (q.blocking W) q' (f q'))
    (h : s.registry.CurrentFor B) : (∃ e s', (q.resolve L).Fails s e s' ∧ B.GivesUp e s'.registry) ∨
      (∃ e t', (q.workOut (.ofAnswers f)).Fails ⟨B, []⟩ e t' ∧ right e) ∨
      q.AnsweredAt B W (q.resolve L) s := by
  cases q with
  | parameter symbol => exact settledParameter_answered hdata hL hfree hask hf h
  | elements symbol env given =>
    exact domainElements_answered hB hdata hfamilies hagree hL hask symbol hq given h

end Questions

/-! ## Lookups of any depth -/

section Lookups

variable {B : Registry K} (hB : B.Keyed) (hdata : B.IsData) (hfamilies : B.FamiliesAgree)

include hB hdata hfamilies

/-- A question that means an answer is given it, if the lookup is deep enough. -/
theorem Registry.Means.follows {W : String → Prop} {a : Except (Failure K) q.Answer}
    (h : B.Means W q a) (hq : q.IsPlain) (n : Nat) :
    (resolving n q).Follows B Failure.IsEndless W a := by
  induction h generalizing n with
  | @workedOut W q a f hfree hf hends h ih =>
    intro s hs
    cases n with
    | zero => exact .inl ⟨_, s, rfl, rfl, hs⟩
    | succ n =>
      have hask : ∀ q', q'.IsPlain →
          (resolving n q').Follows B Failure.IsEndless (q.blocking W) (f q') := by
        intro q' hq'
        by_cases hends' : Ends (f q')
        · exact ih q' hq' hends' hq' n
        · obtain ⟨e, he, hendless⟩ := exists_of_not_ends hends'
          exact fun _ _ => .inr (.inl ⟨e, _, by rw [he]; rfl, hendless⟩)
      have hagree : f.Agree Failure.IsEndless (fun _ => False) (B.meant fun _ => False) := by
        intro q' hq'
        by_cases hends' : Ends (f q')
        · exact .inr (.inr ((hf q' hq' hends').amounts.meant_eq hB hdata hq').symm)
        · exact .inl (exists_of_not_ends hends')
      obtain hleft | ⟨e, t', hfails, hendless⟩ | ⟨b, s', hstart, hb, hs', hsame⟩ :=
        resolve_answered hB hdata hfamilies hagree (lookup_asks n) hq hfree hask hf hs
      · exact .inl hleft
      · exact absurd hendless (hends e (h.symm.trans (congrArg Prod.fst hfails)))
      · have hmeans : B.Means W q a := .workedOut f hfree hf hends h
        obtain rfl := hb.unique hB hdata hmeans hq
        exact .inr (.inr ⟨b, s', _, hstart, rfl, hs', hsame⟩)

/-- While a question without a meaning is worked out, it is not asked again, and its parameter is
left as it is. -/
theorem Registry.follows_blocking (hnone : ∀ a, ¬ B.Amounts q a) {n : Nat}
    (hamounts : ∀ {q' : Question K}, q'.IsPlain → ∀ {s : Store K}, s.registry.CurrentFor B →
      ((resolving n q').start s).2.registry.CurrentFor B ∧
        (Ends ((resolving n q').start s).1 → B.Amounts q' ((resolving n q').start s).1))
    {q' : Question K} (hq' : q'.IsPlain) :
    (resolving n q').Follows B (fun _ => False) (q.blocking fun _ => False)
      (B.meant (q.blocking fun _ => False) q') := by
  intro s hs
  obtain ⟨hcurrent, hamounts⟩ := hamounts hq' hs
  by_cases hends : Ends ((resolving n q').start s).1
  · have hblocked := (hamounts hends).blocking hnone
    obtain ⟨e, s', hfails, he, -⟩ | ⟨e, t', hfails, he⟩ | hsame :=
      hblocked.follows hB hdata hfamilies hq' n hs
    · exact absurd he (hends e (congrArg Prod.fst hfails))
    · exact absurd he (hblocked.ends e (congrArg Prod.fst hfails))
    · rw [hblocked.meant_eq hB hdata hq']
      exact .inr (.inr hsame)
  · obtain ⟨e, he, hendless⟩ := exists_of_not_ends hends
    exact .inl ⟨e, _, Prod.ext he rfl, hendless, hcurrent⟩

/-- A current registry stays current, however a question ends. An answer that is reached is the one
that the question means. -/
theorem resolving_amounts (n : Nat) (hq : q.IsPlain) (h : s.registry.CurrentFor B) :
    ((resolving n q).start s).2.registry.CurrentFor B ∧
      (Ends ((resolving n q).start s).1 → B.Amounts q ((resolving n q).start s).1) := by
  induction n generalizing q s with
  | zero => exact ⟨h, fun hends => absurd rfl (hends _ rfl)⟩
  | succ n ih =>
    by_cases hmeans : ∃ a, B.Amounts q a
    · obtain ⟨a, ha⟩ := hmeans
      obtain ⟨e, s', hfails, he⟩ | ⟨e, t', hfails, he⟩ | ⟨b, s', t', hstart, hb, hs', _⟩ :=
        ha.follows hB hdata hfamilies hq (n + 1) h
      · exact (hfails.givenUp he).imp_right (flip absurd)
      · exact absurd he (ha.ends e (congrArg Prod.fst hfails))
      · obtain rfl : a = b := congrArg Prod.fst hb
        rw [hstart]
        exact ⟨hs', fun _ => ha⟩
    · -- A question without a meaning is not asked again while it is worked out.
      have hnone : ∀ a, ¬ B.Amounts q a := fun a ha => hmeans ⟨a, ha⟩
      let f := B.meant (q.blocking fun _ => False)
      have hask : ∀ q', q'.IsPlain → (resolving n q').Follows B (fun _ => False)
          (q.blocking fun _ => False) (f q') := fun q' hq' =>
        follows_blocking hB hdata hfamilies hnone (fun hq' _ hs' => ih hq' hs') hq'
      have hagree : f.Agree (fun _ => False) (fun _ => False) (B.meant fun _ => False) :=
        fun q' hq' => .inr (.inr (meant_blocking hB hdata hnone hq'))
      have hfree : ¬ q.IsBlocked fun _ => False := by cases q <;> exact id
      obtain ⟨e, s', hfails, he⟩ | ⟨_, _, _, hfalse⟩ | ⟨a, s', hstart, ha, hs', _⟩ :=
        resolve_answered hB hdata hfamilies hagree (lookup_asks n) hq hfree hask
          (fun _ _ => means_meant) h
      · exact (hfails.givenUp he).imp_right (flip absurd)
      · exact hfalse.elim
      · exact absurd ha (hnone a)

/-- Questions put to a current registry are answered by their meaning. -/
theorem resolving_follows (n : Nat) (hq : q.IsPlain) :
    (resolving n q).Follows B (fun _ => False) (fun _ => False) (B.meant (fun _ => False) q) := by
  intro s hs
  obtain ⟨hcurrent, hamounts⟩ := resolving_amounts hB hdata hfamilies n hq hs
  by_cases hends : Ends ((resolving n q).start s).1
  · rw [(hamounts hends).meant_eq hB hdata hq]
    exact .inr (.inr ⟨_, _, _, rfl, rfl, hcurrent, fun _ => False.elim⟩)
  · obtain ⟨f, hf, hendless⟩ := exists_of_not_ends hends
    exact .inl ⟨f, _, Prod.ext hf rfl, hendless, hcurrent⟩

/-- A lookup in a current registry and the lookup of what everything means are in step. -/
theorem lookup_meaning (n : Nat) (r₀ : Registry K) :
    (Simulation.inStep B.GivesUp (fun _ => False) (Q := B.Ahead r₀ fun _ => False)
      fun h => h.seen _).Lookups (lookup n) B.meaning :=
  (lookup_asks n).ahead r₀ fun _ hq => resolving_follows hB hdata hfamilies n hq

end Lookups

end LinearModel
