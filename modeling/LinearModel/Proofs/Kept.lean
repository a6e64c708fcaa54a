import LinearModel.Proofs.Returns
import LinearModel.Evaluation
import Mathlib.Data.Option.Defs
import Mathlib.Data.List.Infix

/-!
# Kept results

Evaluation fills a registry with values of derived parameters, bounds of ranges and members of
comprehensions. What has been computed once is never computed again, and never changed: the
registry that a successful evaluation leaves keeps everything that was known before. All later
arguments about the store rest on this order.
-/
namespace LinearModel

open Table

variable {K : Type} {p q : Parameter K} {s x : String} {d e : ComputedSet K}

/-! ## Tables -/

namespace Table

variable {α κ : Type} {P : String → α → α → Prop} {t u : Table String α} {k : String} {a b : α}

theorem find?_map {β : Type} (f : α → β) (t : Table String α) (k : String) :
    (t.map f).find? k = (t.find? k).map f := by
  obtain ⟨es⟩ := t
  simp only [find?, map]
  induction es with
  | nil => rfl
  | cons e es ih =>
    simp only [List.map_cons, findIn]
    split
    exacts [rfl, ih]

/-- Two tables with the same keys, whose entries are related key by key. -/
structure Related (P : String → α → α → Prop) (t u : Table String α) : Prop where
  size : t.size = u.size
  entry : ∀ k, Option.Rel (P k) (t.find? k) (u.find? k)

theorem Related.refl (h : ∀ k a, P k a a) (t : Table String α) : t.Related P t := by
  refine ⟨rfl, fun k => ?_⟩
  cases t.find? k with
  | none => exact .none
  | some a => exact .some (h k a)

theorem Related.trans {P Q S : String → α → α → Prop} {t u v : Table String α}
    (h : ∀ k a b c, P k a b → Q k b c → S k a c) (htu : t.Related P u) (huv : u.Related Q v) :
    t.Related S v := by
  refine ⟨htu.size.trans huv.size, fun k => ?_⟩
  have h₁ := htu.entry k
  have h₂ := huv.entry k
  revert h₁ h₂
  rcases t.find? k with _ | a <;> rcases u.find? k with _ | b <;> rcases v.find? k with _ | c <;>
    intro h₁ h₂ <;> cases h₁ <;> cases h₂
  · exact .none
  · exact .some (h k a b c ‹_› ‹_›)

theorem Related.mono {Q : String → α → α → Prop}
    (h : ∀ k a b, P k a b → Q k a b) (htu : t.Related P u) : t.Related Q u := by
  refine ⟨htu.size, fun k => ?_⟩
  have h₁ := htu.entry k
  revert h₁
  rcases t.find? k with _ | a <;> rcases u.find? k with _ | b <;> intro h₁ <;> cases h₁
  · exact .none
  · exact .some (h k a b ‹_›)

/-- The entry that the second table has under a key of the first. -/
theorem Related.find (h : t.Related P u)
    (ha : t.find? k = some a) : ∃ b, u.find? k = some b ∧ P k a b := by
  have hk := h.entry k
  rw [ha] at hk
  cases hb : u.find? k with
  | none =>
    rw [hb] at hk
    cases hk
  | some b =>
    rw [hb] at hk
    cases hk
    exact ⟨b, rfl, ‹_›⟩

theorem Related.find_none (h : t.Related P u) (ha : t.find? k = none) : u.find? k = none := by
  have hk := h.entry k
  rw [ha] at hk
  cases hb : u.find? k with
  | none => rfl
  | some b =>
    rw [hb] at hk
    cases hk

/-- The entry that the first table has under a key of the second. -/
theorem Related.find_of (h : t.Related P u)
    (hb : u.find? k = some b) : ∃ a, t.find? k = some a ∧ P k a b := by
  cases ha : t.find? k with
  | none => simp [h.find_none ha] at hb
  | some a =>
    obtain ⟨b', hb', hab⟩ := h.find ha
    have hbb : b' = b := Option.some.inj (hb'.symm.trans hb)
    exact ⟨a, rfl, hbb ▸ hab⟩

theorem Related.contains (h : t.Related P u) (k : String) : t.contains k = u.contains k := by
  cases ha : t.find? k with
  | none => simp [Table.contains, ha, h.find_none ha]
  | some a =>
    obtain ⟨b, hb, _⟩ := h.find ha
    simp [Table.contains, ha, hb]

/-- What is found under a key was entered under an equal one. -/
theorem exists_of_find? [BEq κ] {t : Table κ α} {k : κ} (h : t.find? k = some a) :
    ∃ k', (k', a) ∈ t.toList ∧ (k' == k) = true := by
  obtain ⟨es⟩ := t
  simp only [find?] at h ⊢
  induction es with
  | nil => simp [findIn] at h
  | cons e es ih =>
    simp only [findIn] at h
    split at h
    · rename_i hek
      obtain rfl : e.2 = a := by simpa using h
      exact ⟨e.1, List.mem_cons_self, hek⟩
    · obtain ⟨k', hmem, hk'⟩ := ih h
      exact ⟨k', List.mem_cons_of_mem _ hmem, hk'⟩

theorem mem_keys_iff [BEq κ] [LawfulBEq κ] {t : Table κ α} {k : κ} :
    k ∈ t.keys ↔ ∃ a, t.find? k = some a := by
  obtain ⟨es⟩ := t
  simp only [keys, find?]
  induction es with
  | nil => simp [findIn]
  | cons e es ih =>
    by_cases hek : e.1 = k
    · simp [findIn, hek]
    · have hke : k ≠ e.1 := fun h => hek h.symm
      simp only [List.map_cons, List.mem_cons, hke, false_or, findIn, beq_iff_eq, hek, if_false, ih]

/-- An entry of a table is one that it had before, or the one that was entered last, which may have
taken the place of one under an equal key. -/
theorem mem_insert_beq [BEq κ] {t : Table κ α} {k : κ} {e : κ × α} (h : e ∈ (t.insert k a).toList) :
    e ∈ t.toList ∨ (e.1 = k ∨ ∃ b, (e.1, b) ∈ t.toList ∧ (e.1 == k) = true) ∧ e.2 = a := by
  obtain ⟨es⟩ := t
  simp only [insert] at h ⊢
  induction es with
  | nil =>
    obtain rfl : e = (k, a) := by simpa [insertIn] using h
    exact .inr ⟨.inl rfl, rfl⟩
  | cons e' es ih =>
    simp only [insertIn] at h
    split at h
    · rename_i hek
      obtain rfl | hmem := List.mem_cons.1 h
      · exact .inr ⟨.inr ⟨e'.2, List.mem_cons_self, hek⟩, rfl⟩
      · exact .inl (List.mem_cons_of_mem _ hmem)
    · obtain rfl | hmem := List.mem_cons.1 h
      · exact .inl List.mem_cons_self
      · obtain hold | ⟨hkey, hvalue⟩ := ih hmem
        · exact .inl (List.mem_cons_of_mem _ hold)
        · refine .inr ⟨hkey.imp_right ?_, hvalue⟩
          rintro ⟨b, hb, hek⟩
          exact ⟨b, List.mem_cons_of_mem _ hb, hek⟩

/-- Whatever is found in some entries is found in more of them. -/
theorem findIn_of_initial [BEq κ] {k : κ} {es fs : List (κ × α)} (h : es <+: fs)
    (ha : findIn k es = some a) : findIn k fs = some a := by
  obtain ⟨more, rfl⟩ := h
  induction es with
  | nil => simp [findIn] at ha
  | cons e es ih =>
    simp only [List.cons_append, findIn] at ha ⊢
    split
    · rename_i hek
      simpa [hek] using ha
    · rename_i hek
      exact ih (by simpa [hek] using ha)

/-- A key that is not among the first entries is entered after them. -/
theorem initial_insertIn [BEq κ] {k : κ} {es fs : List (κ × α)} (h : es <+: fs)
    (hk : findIn k es = none) : es <+: insertIn k a fs := by
  obtain ⟨more, rfl⟩ := h
  induction es with
  | nil => exact ⟨_, rfl⟩
  | cons e es ih =>
    simp only [findIn] at hk
    split at hk
    · cases hk
    · rename_i hek
      simp only [List.cons_append, insertIn, hek]
      exact List.cons_prefix_cons.2 ⟨rfl, ih hk⟩

theorem length_insertIn [BEq κ] {k : κ} {es : List (κ × α)} (h : findIn k es = some a) :
    (insertIn k b es).length = es.length := by
  induction es with
  | nil => simp [findIn] at h
  | cons e es ih =>
    simp only [findIn, insertIn] at h ⊢
    split
    · rfl
    · rename_i hek
      simp [ih (by simpa [hek] using h)]

/-- Changing one entry of the second table keeps the tables related. -/
theorem Related.insert (h : t.Related P u) (ha : t.find? k = some a) (hb : P k a b) :
    t.Related P (u.insert k b) := by
  obtain ⟨c, hc, _⟩ := h.find ha
  refine ⟨h.size.trans (length_insertIn hc).symm, fun k' => ?_⟩
  by_cases hk : k = k'
  · subst hk
    rw [ha, find?_insert_self]
    exact .some hb
  · rw [find?_insert_of_ne u b hk]
    exact h.entry k'

/-- What holds of the entries of a table holds of them after a new one is entered under its own
symbol. -/
theorem forall_insert {P : String → α → Prop}
    (ht : ∀ {s b}, t.find? s = some b → P s b) (ha : P k a)
    (h : (t.insert k a).find? s = some b) : P s b := by
  by_cases hs : k = s
  · subst hs
    rw [find?_insert_self] at h
    rwa [← Option.some.inj h]
  · rw [find?_insert_of_ne _ _ hs] at h
    exact ht h

/-- Changing an entry does not show where it makes no difference. -/
theorem map_insert {β : Type} {f : α → β} (ha : t.find? k = some a)
    (hb : f b = f a) : (t.insert k b).map f = t.map f := by
  obtain ⟨es⟩ := t
  simp only [find?, insert, map, mk.injEq] at ha ⊢
  induction es with
  | nil => simp [findIn] at ha
  | cons e es ih =>
    simp only [findIn, insertIn] at ha ⊢
    split
    · rename_i hek
      simp only [hek, if_true, Option.some.injEq] at ha
      simp [hb, ha]
    · rename_i hek
      simp [ih (by simpa [hek] using ha)]

end Table

/-! ## Entries of the registry -/

/-- A parameter whose values are not to be computed any more. -/
def Parameter.isSettled (p : Parameter K) : Bool := p.definition.isNone || p.isDefined

/-- Two states of one declared parameter. -/
def Parameter.SameDeclaration (p q : Parameter K) : Prop :=
  { q with value := p.value, values := p.values, isDefined := p.isDefined } = p

/-- A later state of a parameter: once settled it stays as it is, and it only changes to become
settled. -/
structure Parameter.KeptIn (p q : Parameter K) : Prop where
  declaration : p.SameDeclaration q
  settled : p.isSettled = true → q = p
  changed : q = p ∨ q.isSettled = true

/-- A later state of a range: a bound that is known stays known. -/
structure BoundRange.KeptIn (d e : BoundRange K) : Prop where
  declaration : { e with knownFirst := d.knownFirst, knownLast := d.knownLast } = d
  first : ∀ i, d.knownFirst = some i → e.knownFirst = some i
  last : ∀ i, d.knownLast = some i → e.knownLast = some i

/-- A later state of a comprehension: further members come after those that are known. -/
structure ComputedSet.KeptIn (d e : ComputedSet K) : Prop where
  declaration : { e with known := d.known } = d
  known : d.known.toList <+: e.known.toList

namespace Parameter

theorem SameDeclaration.trans {u : Parameter K} (h₁ : p.SameDeclaration q)
    (h₂ : q.SameDeclaration u) : p.SameDeclaration u := by
  obtain ⟨_, _, _, _, _, _, _, _, _, _⟩ := p
  obtain ⟨_, _, _, _, _, _, _, _, _, _⟩ := q
  obtain ⟨_, _, _, _, _, _, _, _, _, _⟩ := u
  simp_all [SameDeclaration]

theorem SameDeclaration.symm (h : p.SameDeclaration q) : q.SameDeclaration p := by
  rw [SameDeclaration, ← h]

theorem SameDeclaration.definition (h : p.SameDeclaration q) : q.definition = p.definition := by
  rw [← h]

theorem SameDeclaration.symbol (h : p.SameDeclaration q) : q.symbol = p.symbol := by
  rw [← h]

theorem SameDeclaration.domains (h : p.SameDeclaration q) : q.domains = p.domains := by
  rw [← h]

theorem KeptIn.refl (p : Parameter K) : p.KeptIn p := ⟨rfl, fun _ => rfl, .inl rfl⟩

theorem KeptIn.trans {p q u : Parameter K} (h₁ : p.KeptIn q) (h₂ : q.KeptIn u) : p.KeptIn u where
  declaration := h₁.declaration.trans h₂.declaration
  settled hp := by
    have hq := h₁.settled hp
    subst hq
    exact h₂.settled hp
  changed := by
    rcases h₂.changed with rfl | hu
    · exact h₁.changed
    · exact .inr hu

end Parameter

namespace BoundRange

theorem KeptIn.refl (d : BoundRange K) : d.KeptIn d := ⟨rfl, fun _ h => h, fun _ h => h⟩

theorem KeptIn.trans {d e f : BoundRange K} (h₁ : d.KeptIn e) (h₂ : e.KeptIn f) : d.KeptIn f where
  declaration := by
    have h := h₁.declaration
    have h' := h₂.declaration
    obtain ⟨_, _, _, _, _⟩ := d
    obtain ⟨_, _, _, _, _⟩ := e
    obtain ⟨_, _, _, _, _⟩ := f
    simp_all
  first i hi := h₂.first i (h₁.first i hi)
  last i hi := h₂.last i (h₁.last i hi)

end BoundRange

namespace ComputedSet

theorem KeptIn.refl (d : ComputedSet K) : d.KeptIn d := ⟨rfl, List.prefix_refl _⟩

theorem KeptIn.trans {d e f : ComputedSet K} (h₁ : d.KeptIn e) (h₂ : e.KeptIn f) : d.KeptIn f where
  declaration := by
    have h := h₁.declaration
    have h' := h₂.declaration
    obtain ⟨_, _, _, _, _, _⟩ := d
    obtain ⟨_, _, _, _, _, _⟩ := e
    obtain ⟨_, _, _, _, _, _⟩ := f
    simp_all
  known := h₁.known.trans h₂.known

theorem KeptIn.find [Scalar K] (h : d.KeptIn e) {key : Value K}
    {vs : List (Value K)} (hk : d.known.find? key = some vs) : e.known.find? key = some vs :=
  findIn_of_initial h.known hk

theorem KeptIn.insert [Scalar K] (h : d.KeptIn e) {key : Value K}
    (vs : List (Value K)) (hk : d.known.find? key = none) :
    d.KeptIn { e with known := e.known.insert key vs } :=
  ⟨h.declaration, initial_insertIn h.known hk⟩

end ComputedSet

/-- A later state of a domain. -/
inductive Domain.KeptIn : Domain K → Domain K → Prop
  | tuples (d : TupleSet K) : KeptIn (.tuples d) (.tuples d)
  | primitive (d : PrimitiveSet K) : KeptIn (.primitive d) (.primitive d)
  | index (d : IndexSet) : KeptIn (.index d) (.index d)
  | range {d e : BoundRange K} (h : d.KeptIn e) : KeptIn (.range d) (.range e)
  | computed {d e : ComputedSet K} (h : d.KeptIn e) : KeptIn (.computed d) (.computed e)

/-! ## Registries -/

namespace Registry

variable {r t u : Registry K}

/-- A later state of a registry, in which parameters are related as given, ranges and
comprehensions keep what they know, and all else is as it was. -/
structure Later (P : String → Parameter K → Parameter K → Prop) (r t : Registry K) : Prop where
  schemas : t.schemas = r.schemas
  tupleSets : t.tupleSets = r.tupleSets
  primitiveSets : t.primitiveSets = r.primitiveSets
  indexSets : t.indexSets = r.indexSets
  vars : t.vars = r.vars
  dexprs : t.dexprs = r.dexprs
  params : r.params.Related P t.params
  boundRanges : r.boundRanges.Related (fun _ => BoundRange.KeptIn) t.boundRanges
  computedSets : r.computedSets.Related (fun _ => ComputedSet.KeptIn) t.computedSets

/-- A later state of a registry, which keeps what was computed. -/
abbrev KeptIn (r t : Registry K) : Prop := r.Later (fun _ => Parameter.KeptIn) t

/-- A later state of a registry while one parameter is being computed. -/
abbrev KeptButFor (x : String) (r t : Registry K) : Prop :=
  r.Later (fun s p q => p.SameDeclaration q ∧ (s ≠ x → p.KeptIn q)) t

theorem Later.trans {P Q S : String → Parameter K → Parameter K → Prop}
    (h : ∀ k p q u, P k p q → Q k q u → S k p u) (h₁ : r.Later P t) (h₂ : t.Later Q u) :
    r.Later S u where
  schemas := h₂.schemas.trans h₁.schemas
  tupleSets := h₂.tupleSets.trans h₁.tupleSets
  primitiveSets := h₂.primitiveSets.trans h₁.primitiveSets
  indexSets := h₂.indexSets.trans h₁.indexSets
  vars := h₂.vars.trans h₁.vars
  dexprs := h₂.dexprs.trans h₁.dexprs
  params := h₁.params.trans h h₂.params
  boundRanges := h₁.boundRanges.trans (fun _ _ _ _ h h' => h.trans h') h₂.boundRanges
  computedSets := h₁.computedSets.trans (fun _ _ _ _ h h' => h.trans h') h₂.computedSets

theorem Later.mono {P Q : String → Parameter K → Parameter K → Prop}
    (h : ∀ k p q, P k p q → Q k p q) (hrt : r.Later P t) : r.Later Q t :=
  { hrt with params := hrt.params.mono h }

theorem KeptIn.refl (r : Registry K) : r.KeptIn r where
  schemas := rfl
  tupleSets := rfl
  primitiveSets := rfl
  indexSets := rfl
  vars := rfl
  dexprs := rfl
  params := .refl (fun _ => Parameter.KeptIn.refl) _
  boundRanges := .refl (fun _ => BoundRange.KeptIn.refl) _
  computedSets := .refl (fun _ => ComputedSet.KeptIn.refl) _

theorem KeptIn.trans (h₁ : r.KeptIn t) (h₂ : t.KeptIn u) : r.KeptIn u :=
  Later.trans (fun _ _ _ _ h h' => h.trans h') h₁ h₂

theorem KeptIn.size (h : r.KeptIn t) : r.size = t.size := by
  simp only [Registry.size, h.computedSets.size, h.boundRanges.size, h.params.size, h.dexprs]

theorem KeptButFor.trans_kept (h₁ : r.KeptButFor x t) (h₂ : t.KeptIn u) : r.KeptButFor x u :=
  Later.trans (fun _ _ _ _ hpq hqu =>
    ⟨hpq.1.trans hqu.declaration, fun hx => (hpq.2 hx).trans hqu⟩) h₁ h₂

theorem KeptIn.butFor (h : r.KeptIn t) : r.KeptButFor x t :=
  Later.mono (fun _ _ _ hpq => ⟨hpq.declaration, fun _ => hpq⟩) h

/-- A symbol names a later state of the same domain. -/
theorem KeptIn.domain (h : r.KeptIn t) {d : Domain K}
    (hd : r.domain? s = some d) : ∃ e, t.domain? s = some e ∧ d.KeptIn e := by
  simp only [domain?, h.tupleSets, h.primitiveSets, h.indexSets] at hd ⊢
  cases htuples : r.tupleSets.find? s with
  | some d' =>
    obtain rfl : Domain.tuples d' = d := by simpa [htuples] using hd
    exact ⟨.tuples d', by simp, .tuples d'⟩
  | none =>
    cases hcomputed : r.computedSets.find? s with
    | some c =>
      obtain rfl : Domain.computed c = d := by simpa [htuples, hcomputed] using hd
      obtain ⟨c', hc', hcc'⟩ := h.computedSets.find hcomputed
      exact ⟨.computed c', by simp [hc'], .computed hcc'⟩
    | none =>
      have hcomputed' := h.computedSets.find_none hcomputed
      simp only [htuples, hcomputed, hcomputed'] at hd ⊢
      cases hprimitive : r.primitiveSets.find? s with
      | some d' =>
        obtain rfl : Domain.primitive d' = d := by simpa [hprimitive] using hd
        exact ⟨.primitive d', by simp, .primitive d'⟩
      | none =>
        cases hindex : r.indexSets.find? s with
        | some d' =>
          obtain rfl : Domain.index d' = d := by simpa [hprimitive, hindex] using hd
          exact ⟨.index d', by simp, .index d'⟩
        | none =>
          cases hrange : r.boundRanges.find? s with
          | none => simp [hprimitive, hindex, hrange] at hd
          | some e =>
            obtain rfl : Domain.range e = d := by simpa [hprimitive, hindex, hrange] using hd
            obtain ⟨e', he', hee'⟩ := h.boundRanges.find hrange
            exact ⟨.range e', by simp [he'], .range hee'⟩

theorem find?_of_domain?_range {d : BoundRange K} (h : r.domain? s = some (.range d)) :
    r.boundRanges.find? s = some d := by
  simp only [domain?] at h
  cases htuples : r.tupleSets.find? s <;> cases hcomputed : r.computedSets.find? s <;>
    cases hprimitive : r.primitiveSets.find? s <;> cases hindex : r.indexSets.find? s <;>
    cases hrange : r.boundRanges.find? s <;> simp_all

theorem find?_of_domain?_computed
    (h : r.domain? s = some (.computed d)) : r.computedSets.find? s = some d := by
  simp only [domain?] at h
  cases htuples : r.tupleSets.find? s <;> cases hcomputed : r.computedSets.find? s <;>
    cases hprimitive : r.primitiveSets.find? s <;> cases hindex : r.indexSets.find? s <;>
    cases hrange : r.boundRanges.find? s <;> simp_all

/-- When the parameter that was being computed is settled, nothing is left open. -/
theorem KeptButFor.kept (h : r.KeptButFor x t) (hp : r.params.find? x = some p)
    (hpn : p.isSettled = false) (hq : t.params.find? x = some q) (hqs : q.isSettled = true) :
    r.KeptIn t :=
  { h with
    params := by
      refine ⟨h.params.size, fun k => ?_⟩
      by_cases hk : k = x
      · subst hk
        obtain ⟨q', hq', hd, _⟩ := h.params.find hp
        have hqq : q' = q := Option.some.inj (hq'.symm.trans hq)
        subst hqq
        rw [hp, hq]
        exact .some ⟨hd, fun hs => by simp [hpn] at hs, .inr hqs⟩
      · have hr := h.params.entry k
        revert hr
        rcases r.params.find? k with _ | a <;> rcases t.params.find? k with _ | b <;> intro hr <;>
          cases hr
        · exact .none
        · rename_i hab
          exact .some (hab.2 hk) }

/-- Changing a parameter that is being computed keeps all others. -/
theorem KeptButFor.putParameter
    (h : r.KeptButFor q.symbol t) (hp : r.params.find? q.symbol = some p)
    (hd : p.SameDeclaration q) : r.KeptButFor q.symbol (t.putParameter q) :=
  { h with params := h.params.insert hp ⟨hd, fun hne => absurd rfl hne⟩ }

/-- Storing a value of the parameter that is being computed changes nothing else. -/
theorem KeptButFor.stored (h : r.KeptButFor p.symbol t) (hp : r.params.find? p.symbol = some p)
    (hq : ∃ p', t.params.find? p.symbol = some p' ∧ p'.SameDeclaration q) :
    r.KeptButFor p.symbol (t.putParameter q) := by
  obtain ⟨p', hp', hq⟩ := hq
  obtain ⟨p'', hp'', hd, _⟩ := h.params.find hp
  obtain rfl : p'' = p' := Option.some.inj (hp''.symm.trans hp')
  have hpq := hd.trans hq
  have h' := h
  rw [← hpq.symbol] at h' ⊢
  exact h'.putParameter (by rw [hpq.symbol]; exact hp) hpq

/-- Every entry stands under its own symbol. -/
structure Keyed (r : Registry K) : Prop where
  params : ∀ {s p}, r.params.find? s = some p → p.symbol = s
  boundRanges : ∀ {s d}, r.boundRanges.find? s = some d → d.symbol = s
  computedSets : ∀ {s d}, r.computedSets.find? s = some d → d.symbol = s

/-- A registry is keyed if every entry stands under its symbol. -/
theorem Keyed.of_entries (hparams : ∀ e ∈ r.params.toList, e.2.symbol = e.1)
    (hranges : ∀ e ∈ r.boundRanges.toList, e.2.symbol = e.1)
    (hsets : ∀ e ∈ r.computedSets.toList, e.2.symbol = e.1) : r.Keyed := by
  have hfound : ∀ {α : Type} {t : Table String α} {f : α → String}, (∀ e ∈ t.toList, f e.2 = e.1) →
      ∀ {k a}, t.find? k = some a → f a = k := by
    intro α t f h k a ha
    obtain ⟨k', hmem, hk⟩ := exists_of_find? ha
    exact (h _ hmem).trans (LawfulBEq.eq_of_beq hk)
  exact ⟨hfound hparams, hfound hranges, hfound hsets⟩

theorem Keyed.later {P : String → Parameter K → Parameter K → Prop}
    (hP : ∀ s p q, P s p q → p.SameDeclaration q) (hr : r.Keyed) (h : r.Later P t) : t.Keyed where
  params hq := by
    obtain ⟨p, hp, hpq⟩ := h.params.find_of hq
    rw [(hP _ _ _ hpq).symbol]
    exact hr.params hp
  boundRanges he := by
    obtain ⟨d, hd, hde⟩ := h.boundRanges.find_of he
    rw [← hr.boundRanges hd, ← hde.declaration]
  computedSets he := by
    obtain ⟨d, hd, hde⟩ := h.computedSets.find_of he
    rw [← hr.computedSets hd, ← hde.declaration]

theorem Keyed.putParameter (hr : r.Keyed) (p : Parameter K) : (r.putParameter p).Keyed where
  params := forall_insert hr.params rfl
  boundRanges := hr.boundRanges
  computedSets := hr.computedSets

theorem Keyed.invalidate (hr : r.Keyed) : r.invalidate.Keyed where
  params {s q} hq := by
    simp only [Registry.invalidate, find?_map, Option.map_eq_some_iff] at hq
    obtain ⟨p, hp, rfl⟩ := hq
    rw [← hr.params hp]
    split <;> rfl
  boundRanges {s d} h := by
    simp only [Registry.invalidate, find?_map, Option.map_eq_some_iff] at h
    obtain ⟨d', hd', rfl⟩ := h
    have hsymbol := hr.boundRanges hd'
    exact hsymbol
  computedSets {s d} h := by
    simp only [Registry.invalidate, find?_map, Option.map_eq_some_iff] at h
    obtain ⟨d', hd', rfl⟩ := h
    have hsymbol := hr.computedSets hd'
    exact hsymbol

theorem Keyed.kept (hr : r.Keyed) (h : r.KeptIn t) : t.Keyed :=
  hr.later (fun _ _ _ hpq => hpq.declaration) h

/-- A registry as it is between computations: a derived parameter that has not been evaluated holds
no values. -/
structure Tidy (r : Registry K) : Prop extends r.Keyed where
  unsettled : ∀ {s p}, r.params.find? s = some p → p.isSettled = false →
    p.value = none ∧ p.values = empty

theorem Tidy.kept (hr : r.Tidy) (h : r.KeptIn t) : t.Tidy where
  toKeyed := hr.toKeyed.kept h
  unsettled {s q} hq hopen := by
    obtain ⟨p, hp, hpq⟩ := h.params.find_of hq
    obtain rfl | hsettled := hpq.changed
    · exact hr.unsettled hp hopen
    · rw [hopen] at hsettled
      cases hsettled

theorem find?_changeRange (hr : r.Keyed) (s : String) (f : BoundRange K → BoundRange K) :
    (r.changeRange s f).boundRanges.find? s = (r.boundRanges.find? s).map f := by
  cases hd : r.boundRanges.find? s with
  | none => simp [changeRange, hd]
  | some d => simp [changeRange, hd, hr.boundRanges hd, find?_insert_self]

theorem find?_changeMembers (hr : r.Keyed) (s : String) (f : ComputedSet K → ComputedSet K) :
    (r.changeMembers s f).computedSets.find? s = (r.computedSets.find? s).map f := by
  cases hd : r.computedSets.find? s with
  | none => simp [changeMembers, hd]
  | some d => simp [changeMembers, hd, hr.computedSets hd, find?_insert_self]

/-- Changing a range in the later registry keeps what the earlier one knows of it. -/
theorem KeptIn.changeRange {d : BoundRange K}
    {f : BoundRange K → BoundRange K} (h : r.KeptIn t) (ht : t.Keyed)
    (hd : r.boundRanges.find? s = some d) (hf : ∀ e, d.KeptIn e → d.KeptIn (f e)) :
    r.KeptIn (t.changeRange s f) := by
  obtain ⟨e, he, hde⟩ := h.boundRanges.find hd
  simp only [Registry.changeRange, he, ht.boundRanges he]
  exact { h with boundRanges := h.boundRanges.insert hd (hf e hde) }

/-- Changing a comprehension in the later registry keeps what the earlier one knows of it. -/
theorem KeptIn.changeMembers {f : ComputedSet K → ComputedSet K} (h : r.KeptIn t) (ht : t.Keyed)
    (hd : r.computedSets.find? s = some d) (hf : ∀ e, d.KeptIn e → d.KeptIn (f e)) :
    r.KeptIn (t.changeMembers s f) := by
  obtain ⟨e, he, hde⟩ := h.computedSets.find hd
  simp only [Registry.changeMembers, he, ht.computedSets he]
  exact { h with computedSets := h.computedSets.insert hd (hf e hde) }

end Registry

end LinearModel
