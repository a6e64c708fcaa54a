import LinearModel.Proofs.Termination

/-!
# What evaluation leaves alone

Evaluation computes what it comes to, and keeps it in the registry. What it comes to stands in a
definition, or in a definition that is mentioned there, and so on. Nothing else changes. In a
grounded registry this holds of the entry itself that is being computed.
-/
namespace LinearModel

open Run Relation Simulation

variable {K : Type} {α β : Type} {B : Registry K} {symbol : String} {x : Mention}

namespace Registry

/-- Two registries hold the same in one place. -/
def SameAt (m : Mention) (r t : Registry K) : Prop :=
  match m with
  | .parameter s => r.params.find? s = t.params.find? s
  | .domain s =>
    r.boundRanges.find? s = t.boundRanges.find? s ∧ r.computedSets.find? s = t.computedSets.find? s
  | .dvar _ | .dexpr _ => True

variable {m y : Mention} {r t u : Registry K}

theorem SameAt.refl (m : Mention) (r : Registry K) : r.SameAt m r := by
  cases m <;> simp [SameAt]

theorem SameAt.trans (h : r.SameAt m t) (h' : t.SameAt m u) : r.SameAt m u := by
  cases m with
  | parameter s => exact Eq.trans h h'
  | domain s => exact ⟨h.1.trans h'.1, h.2.trans h'.2⟩
  | dvar s | dexpr s => trivial

theorem sameAt_putParameter {q : Parameter K} (hq : m ≠ .parameter q.symbol) :
    (r.putParameter q).SameAt m r := by
  cases m with
  | parameter s =>
    exact Table.find?_insert_of_ne _ _ fun h => hq (congrArg Mention.parameter h.symm)
  | domain s => exact ⟨rfl, rfl⟩
  | dvar s | dexpr s => trivial

theorem sameAt_closeParameter (hr : r.Keyed) (hm : m ≠ .parameter symbol) :
    (r.closeParameter symbol).SameAt m r := by
  unfold closeParameter
  split
  · rename_i q hq
    exact sameAt_putParameter (by rwa [← hr.params hq] at hm)
  · exact .refl m r

theorem sameAt_changeRange (hr : r.Keyed) (f : BoundRange K → BoundRange K)
    (hm : m ≠ .domain symbol) : (r.changeRange symbol f).SameAt m r := by
  unfold changeRange
  split
  · rename_i d hd
    cases m with
    | parameter s => rfl
    | domain s =>
      refine ⟨Table.find?_insert_of_ne _ _ fun h => hm ?_, rfl⟩
      rw [← h, hr.boundRanges hd]
    | dvar s | dexpr s => trivial
  · exact .refl m r

theorem sameAt_changeMembers (hr : r.Keyed) (f : ComputedSet K → ComputedSet K)
    (hm : m ≠ .domain symbol) : (r.changeMembers symbol f).SameAt m r := by
  unfold changeMembers
  split
  · rename_i d hd
    cases m with
    | parameter s => rfl
    | domain s =>
      refine ⟨rfl, Table.find?_insert_of_ne _ _ fun h => hm ?_⟩
      rw [← h, hr.computedSets hd]
    | dvar s | dexpr s => trivial
  · exact .refl m r

/-- A parameter or domain does not lead to something. -/
def Spares (B : Registry K) (m x : Mention) : Prop := x.IsData ∧ ¬ ReflTransGen B.Refers x m

/-- What is mentioned does not lead there either. -/
theorem Spares.mentioned (h : B.Spares m x) (hxy : B.Refers x y) (hy : y.IsData) : B.Spares m y :=
  ⟨hy, fun hym => h.2 (ReflTransGen.head hxy hym)⟩

theorem Spares.ne (h : B.Spares m x) : m ≠ x :=
  fun hmx => h.2 (hmx ▸ .refl)

/-- In a grounded registry no definition leads to what it defines. -/
theorem IsGrounded.spares (hB : B.IsGrounded) (hx : x.IsData) (hxy : B.Refers x y)
    (hy : y.IsData) : B.Spares x y :=
  ⟨hy, fun hyx => hB.acyclic hx (TransGen.head' hxy hyx)⟩

/-- In a registry of data, definitions mention parameters and domains. -/
theorem IsData.mentioned [Scalar K] (hB : B.IsData) (hx : x.IsData)
    (hxy : B.Refers x y) : y.IsData := by
  obtain ⟨q, hq, rfl⟩ := hxy
  have hdata : ∃ s, q.2 = .parameter s ∨ q.2 = .domain s := by
    cases x with
    | parameter s =>
      cases hp : B.params.find? s with
      | none => simp [mentionsOf, hp] at hq
      | some p =>
        simp only [mentionsOf, hp, Option.elim_some] at hq
        exact Parameter.isData_mentions (hB.params hp) q hq
    | domain s =>
      cases hd : B.domain? s with
      | none => simp [mentionsOf, hd] at hq
      | some d =>
        simp only [mentionsOf, hd, Option.elim_some] at hq
        exact Domain.isData_mentions (hB.domains hd) q hq
    | dvar s | dexpr s => exact hx.elim
  obtain ⟨s, hs | hs⟩ := hdata <;> rw [hs] <;> trivial

/-- A state of a registry that holds the same in one place as another one. -/
structure StillAt (B r₀ : Registry K) (m : Mention) (r : Registry K) : Prop where
  state : r.IsStateOf B
  same : r.SameAt m r₀

variable {B r₀ : Registry K}

/-- A computation that leaves a registry as it is declared, and one place of it as it is. -/
theorem StillAt.maintains {x : Run K α} (hx : Maintains (·.IsStateOf B) x)
    (hsame : ∀ s : Store K, s.registry.IsStateOf B → (x.start s).2.registry.SameAt m s.registry) :
    Maintains (B.StillAt r₀ m) x :=
  fun s hs => ⟨hx hs.state, (hsame s hs.state).trans hs.same⟩

theorem StillAt.change {f : Registry K → Registry K}
    (hx : B.unrestricted.Rel (modifyRegistry f) (modifyRegistry f))
    (hsame : ∀ r : Registry K, r.Keyed → (f r).SameAt m r) :
    Maintains (B.StillAt r₀ m) (modifyRegistry f) :=
  StillAt.maintains hx.maintains fun s hs => hsame s.registry hs.keyed

end Registry

open Registry

variable [Scalar K]

/-- A comparison that permits less. -/
def Comparison.narrow (R : Comparison K) (P : List String → Mention → Prop)
    (h : ∀ {A m}, P A m → R.permits A m) : Comparison K :=
  { R with
    permits := P
    vars := fun hp => R.vars (h hp)
    dexprs := fun hp => R.dexprs (h hp)
    undeclared := fun hp => R.undeclared (h hp)
    spawn := fun hp => R.spawn (h hp)
    assigned := fun hp => R.assigned (h hp)
    enter := fun s hab hp => R.enter s hab (h hp) }

/-- A simulation, of what does not lead to some place. -/
def Simulation.sparing (R : Simulation K) (B : Registry K) (m : Mention) : Comparison K :=
  R.comparison.narrow (fun _ x => B.Spares m x) fun {A x} hx => by
    cases x with
    | parameter s | domain s => trivial
    | dvar s | dexpr s => exact hx.1.elim

theorem Simulation.sparing_allows {R : Simulation K} {m : Mention} (hB : B.IsData) (hx : x.IsData)
    (hspares : ∀ {y}, B.Refers x y → y.IsData → B.Spares m y) (A : List String) :
    (R.sparing B m).Allows A (B.mentionsOf x) := by
  intro q hq
  have hrefers : B.Refers x q.2 := ⟨q, hq, rfl⟩
  exact hspares hrefers (hB.mentioned hx hrefers)

section Parameters

variable {B r₀ : Registry K} {m : Mention} {p : Parameter K}

/-- Writing to a parameter leaves everything else alone. -/
theorem writing_stillAt (hp : B.unrestricted.Derives p) (hm : m ≠ .parameter p.symbol)
    (place : Option (Index K)) (v : Value K) :
    Maintains (B.StillAt r₀ m) (writing p.symbol place v) := by
  refine StillAt.maintains (hp.rel_writing (fun _ => trivial) B.single_unrestricted.lawful
    place v).maintains fun s hs => ?_
  simp only [writing, start_bind, start_registry]
  cases hq : s.registry.params.find? p.symbol with
  | none => exact .refl m _
  | some q =>
    simp only [start_bind]
    cases hwrite : q.write place v with
    | error c => exact .refl m _
    | ok q' =>
      exact sameAt_putParameter (by rwa [(Parameter.write_ok hwrite).1.symbol, hs.keyed.params hq])

end Parameters

/-! ## Looking up -/

omit [Scalar K] in
/-- All states of a registry mention the same. -/
theorem Registry.IsStateOf.mentionsOf {r B : Registry K} (h : r.IsStateOf B) (x : Mention) :
    r.mentionsOf x = B.mentionsOf x := by
  rw [← r.mentionsOf_invalidate, h.same, B.mentionsOf_invalidate]

section Lookups

variable {B r₀ : Registry K} {m : Mention} {L : Lookup K}
  (hL : ((maintaining (B.StillAt r₀ m)).sparing B m).Lookups L L)

include hL

theorem settledParameter_stillAt (hdata : B.IsData) (hs : B.Spares m (.parameter symbol)) :
    Maintains (B.StillAt r₀ m) (settledParameter L symbol) := by
  intro s hstill
  cases hp : s.registry.params.find? symbol with
  | none =>
    rw [start_settledParameter_none hp]
    exact hstill
  | some p =>
    cases hsettled : p.isSettled with
    | true =>
      rw [start_settledParameter hp hsettled]
      exact hstill
    | false =>
      obtain ⟨e, he, hopen⟩ := Parameter.definition_of_open hsettled
      obtain rfl := hstill.state.keyed.params hp
      have hderives : B.unrestricted.Derives p :=
        .of_find hstill.state.keyed hstill.state.same hp (by simp [he])
      have hmentions :
          B.mentionsOf (.parameter p.symbol) = { p with definition := some e }.mentions := by
        rw [← hstill.state.mentionsOf, mentionsOf, hp, Option.elim_some, ← he]
      have hput : Maintains (B.StillAt r₀ m)
          (modifyRegistry (·.putParameter { p with value := none, values := Table.empty })) :=
        StillAt.change (hderives.rel_put (fun _ => trivial) rfl)
          fun r _ => sameAt_putParameter hs.ne
      have hfill : Maintains (B.StillAt r₀ m) (fillParameter L p e) :=
        Comparison.fillParameter hL ⟨rfl, rfl, Env.binds_nil _⟩
          (hmentions ▸ sparing_allows hdata hs.1 hs.mentioned [])
          (writing_stillAt hderives hs.ne)
      have hclose : Maintains (B.StillAt r₀ m) (modifyRegistry (·.closeParameter p.symbol)) :=
        StillAt.change (hderives.rel_close fun _ => trivial) fun r hr =>
          sameAt_closeParameter hr hs.ne
      rw [start_settledParameter_open hp he hopen]
      refine Maintains.bind (Maintains.bind hput fun _ => hfill)
        (fun _ => hclose.bind fun _ => ?_) hstill
      refine Maintains.registry_bind fun r _ => ?_
      cases r.params.find? p.symbol with
      | none => exact maintains_fail _
      | some q => exact maintains_pure q

theorem rangeElements_stillAt {d : BoundRange K} {a : Env K} (hm : m ≠ .domain d.symbol)
    (hd : ((maintaining (B.StillAt r₀ m)).sparing B m).Allows a.active
      (Domain.range d).mentions) : Maintains (B.StillAt r₀ m) (rangeElements L d a) :=
  Comparison.rangeElements hL ⟨rfl, rfl, Env.binds_nil _⟩ hd (fun h => by rw [h.2]) fun f hf =>
    StillAt.change (Regime.rel_changeRange (fun _ => trivial) hf)
      fun r hr => sameAt_changeRange hr f hm

theorem memberElements_stillAt {d : ComputedSet K} {a : Env K} (given : Option (Value K))
    (hm : m ≠ .domain d.symbol) (hd : ((maintaining (B.StillAt r₀ m)).sparing B m).Allows a.active
      (Domain.computed d).mentions) : Maintains (B.StillAt r₀ m) (memberElements L d a given) :=
  Comparison.memberElements hL (memberScope_meets fun _ => rfl) hd fun f hf =>
    StillAt.change (Regime.rel_changeMembers (fun _ => trivial) hf)
      fun _ hr => sameAt_changeMembers hr f hm

theorem domainElements_stillAt (hdata : B.IsData) (hs : B.Spares m (.domain symbol)) (a : Env K)
    (given : Option (Value K)) : Maintains (B.StillAt r₀ m) (domainElements L symbol a given) := by
  have hallows : ∀ {r : Registry K} {d}, r.IsStateOf B → r.domain? symbol = some d →
      ((maintaining (B.StillAt r₀ m)).sparing B m).Allows a.active d.mentions := by
    intro r d hr hd
    have hallows := sparing_allows (R := maintaining (B.StillAt r₀ m)) hdata
      hs.1 hs.mentioned a.active
    rwa [← hr.mentionsOf, mentionsOf, hd, Option.elim_some] at hallows
  refine Comparison.domainElements (R := (maintaining (B.StillAt r₀ m)).sparing B m)
    (M := L) (b := a) (fun h => by rw [h.2]) (fun hr hd => ?_) fun hr hd => ?_
  · have hd' := hallows hr.1.state hd
    obtain rfl := hr.1.state.keyed.boundRanges (find?_of_domain?_range hd)
    exact rangeElements_stillAt hL hs.ne hd'
  · have hd' := hallows hr.1.state hd
    obtain rfl := hr.1.state.keyed.computedSets (find?_of_domain?_computed hd)
    exact memberElements_stillAt hL given hs.ne hd'

end Lookups

/-- Whatever is looked up, what it does not lead to is left alone. -/
theorem lookup_spares (hdata : B.IsData) (r₀ : Registry K) (m : Mention) (n : Nat) :
    ((maintaining (B.StillAt r₀ m)).sparing B m).Lookups (lookup n) (lookup n : Lookup K) := by
  induction n with
  | zero =>
    exact ⟨fun _ _ _ => maintains_fail _, fun _ _ _ _ => maintains_fail _,
      fun hab _ _ => hab.entered.choose_spec.2.2.1.elim⟩
  | succ n ih =>
    refine ⟨fun symbol idx hs => ?_, fun {a b} symbol given _ hs => ?_,
      fun hab _ _ => hab.entered.choose_spec.2.2.1.elim⟩
    · have hvalue : Maintains (B.StillAt r₀ m) (parameterValue (lookup n) symbol idx) := by
        rw [parameterValue_eq]
        exact (settledParameter_stillAt ih hdata hs).bind fun p => maintains_ofExcept _
      exact hvalue
    · exact domainElements_stillAt ih hdata hs a given

end LinearModel
