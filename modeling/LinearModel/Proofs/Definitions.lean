import LinearModel.Proofs.Simulation
import LinearModel.Proofs.Kept

/-!
# Definitions

A parameter or domain is computed from its definition, and what was computed is entered into the
registry. If a comparison relates each of these entries to itself, and both registries hold the
parameter or domain in the same state, then it relates the two computations.
-/
namespace LinearModel

open Run

variable {K : Type} {α : Type}

/-- A range without the bounds that have been computed. -/
def BoundRange.forget (d : BoundRange K) : BoundRange K :=
  { d with knownFirst := none, knownLast := none }

/-- A comprehension without the members that have been computed. -/
def ComputedSet.forget (d : ComputedSet K) : ComputedSet K := { d with known := Table.empty }

/-- Say that the definition of a parameter has been evaluated. -/
def Registry.closeParameter (r : Registry K) (symbol : String) : Registry K :=
  match r.params.find? symbol with
  | some q => r.putParameter { q with isDefined := true }
  | none => r

variable [Scalar K] {d : ComputedSet K}

/-! ## Writing to a parameter -/

section Writing

variable {p q : Parameter K} {v : Value K} {place : Option (Index K)}

theorem Parameter.setAt_ok {idx : Index K} (h : p.setAt idx v = .ok q) :
    ∃ values, q = { p with values } := by
  simp only [setAt, bind_eq_ok] at h
  obtain ⟨w, -, h⟩ := h
  split at h
  · cases h
  · obtain ⟨u, -, h⟩ := bind_eq_ok.1 h
    split at h
    · cases h
    · cases h
      exact ⟨_, rfl⟩

theorem Parameter.set_ok (h : p.set v = .ok q) :
    p.isIndexed = false ∧ ∃ w, q = { p with value := some w } := by
  simp only [set, bind_eq_ok] at h
  obtain ⟨u, -, h⟩ := h
  split at h
  · cases h
  · rename_i hindexed
    obtain ⟨w, -, h⟩ := bind_eq_ok.1 h
    cases h
    exact ⟨Bool.eq_false_iff.2 hindexed, w, rfl⟩

/-- Write a value to a parameter, at an index if one is given. -/
def Parameter.write (p : Parameter K) (place : Option (Index K)) (v : Value K) :
    Except (Cause K) (Parameter K) :=
  match place with
  | none => p.set v
  | some idx => p.setAt idx v

theorem Parameter.write_ok (h : p.write place v = .ok q) :
    p.SameDeclaration q ∧ q.isDefined = p.isDefined := by
  cases place with
  | none =>
    obtain ⟨_, w, rfl⟩ := set_ok h
    exact ⟨rfl, rfl⟩
  | some idx =>
    obtain ⟨values, rfl⟩ := setAt_ok h
    exact ⟨rfl, rfl⟩

theorem Plain.write (p : Parameter K) (place : Option (Index K)) (v : Value K) :
    Plain (p.write place v) := by
  cases place with
  | none => exact parameter_set p v
  | some idx => exact setAt p idx v

/-- Write a value to a registered parameter, at an index if one is given. -/
def writing (symbol : String) (place : Option (Index K)) (v : Value K) : Run K Unit := do
  match (← Run.registry).params.find? symbol with
  | none => Run.fail (.parameterNotDeclared symbol)
  | some p =>
    let p ← Run.ofExcept (p.write place v)
    Run.modifyRegistry (·.putParameter p)

theorem returns_writing {symbol : String} (place : Option (Index K)) {s s' : Store K} {u : Unit} :
    (writing symbol place v).Returns s u s' ↔ ∃ p q, s.registry.params.find? symbol = some p ∧
      p.write place v = .ok q ∧ s' = { s with registry := s.registry.putParameter q } := by
  simp only [writing, returns_registry_bind]
  cases hp : s.registry.params.find? symbol with
  | none => simp
  | some p => simp [returns_bind, eq_comm]

/-- Evaluate the definition of a parameter and store the values one by one. -/
def fillParameter (L : Lookup K) (p : Parameter K) (definition : Expr K) : Run K Unit := do
  if p.isIndexed then
    let _ ← enumerate L p.iterators none Env.empty fun env => do
      let idx ← boundValues p.iterators env
      storeAt p.symbol idx (← definition.value L env)
  else
    store p.symbol (← definition.value L Env.empty)

/-- Evaluate the definition of a parameter and store the values, without saying so. -/
def draftParameter (L : Lookup K) (p : Parameter K) (definition : Expr K) : Run K Unit := do
  Run.modifyRegistry (·.putParameter { p with value := none, values := Table.empty })
  fillParameter L p definition

/-- The values that are evaluated first replace those that a parameter has. -/
theorem draftParameter_eq (L : Lookup K) (p : Parameter K) (e : Expr K) : draftParameter L p e = (do
      modifyRegistry (·.putParameter { p with value := none, values := Table.empty })
      fillParameter L p e) := rfl

theorem defineParameter_eq (L : Lookup K) (p : Parameter K) (e : Expr K) :
    defineParameter L p e = (do
      draftParameter L p e
      modifyRegistry (·.closeParameter p.symbol)) := by
  simp only [defineParameter, draftParameter, fillParameter, bind_assoc]
  split <;> simp only [bind_assoc] <;> rfl

end Writing

/-- Where a member is computed, its outer index is bound. -/
theorem memberScope_binds {env : Env K} {given : Option (Value K)}
    {key : Value K} {scope : Env K} (h : memberScope d env given = .ok (key, scope)) :
    scope.active = env.active ∧ scope.Binds (d.outer.toList.map Iter.symbol) := by
  simp only [memberScope] at h
  cases ho : d.outer with
  | none =>
    simp only [ho] at h
    cases h
    exact ⟨rfl, Env.binds_nil _⟩
  | some outer =>
    simp only [ho, bind, Except.bind] at h
    split at h
    · cases h
    · split at h
      · cases h
        exact ⟨rfl, (Env.binds_nil _).bind _ _⟩
      · cases h

/-! ## Comparisons -/

namespace Comparison

variable {R : Comparison K} {L M : Lookup K} {a b : Env K} {A : List String} {symbol : String}
  {given : Option (Value K)} {p : Parameter K} {e : Expr K}

/-- The values of a parameter are evaluated alike, if they are stored alike. -/
theorem fillParameter (hL : R.Lookups L M) (hempty : R.Meets [] [] Env.empty Env.empty)
    (hp : R.Allows [] { p with definition := some e }.mentions)
    (hwriting : ∀ place v, R.rel (writing p.symbol place v) (writing p.symbol place v)) :
    R.rel (fillParameter L p e) (fillParameter M p e) := by
  unfold LinearModel.fillParameter
  simp only [Parameter.mentions] at hp
  split at hp <;> rename_i hindexed
  · have hindexed : p.isIndexed = true := hindexed
    rw [allows_append] at hp
    simp only [hindexed, if_true]
    refine R.seq (combinations hL p.iterators none ?_ hempty hp.1 nofun) fun _ => R.ret ()
    intro a b hab
    refine R.seq (boundValues p.iterators hab.sees) fun idx => ?_
    exact R.seq (exprValue hL e hab hp.2) fun v => hwriting (some idx) v
  · have hindexed : ¬ p.isIndexed = true := hindexed
    simp only [hindexed]
    exact R.seq (exprValue hL e hempty hp) fun v => hwriting none v

/-- The value of a parameter that both registries hold in the same state. -/
theorem parameterValue (idx : Index K)
    (hsame : ∀ {r r'}, R.like r r' → r.params.find? symbol = r'.params.find? symbol)
    (hdefine : ∀ {r r' p e}, R.like r r' → r.params.find? symbol = some p →
      p.definition = some e → R.rel (defineParameter L p e) (defineParameter M p e)) :
    R.rel (parameterValue L symbol idx) (parameterValue M symbol idx) := by
  have hstored : R.rel (storedValue symbol idx) (storedValue symbol idx) := by
    refine R.declarations fun r r' hr => ?_
    rw [← hsame hr]
    cases r.params.find? symbol with
    | none => exact R.failure _ rfl
    | some p => exact ofExcept (Plain.parameter_get p idx)
  refine R.declarations fun r r' hr => ?_
  rw [← hsame hr]
  cases hp : r.params.find? symbol with
  | none => exact R.failure _ rfl
  | some p =>
    dsimp only
    cases he : p.definition with
    | none => exact hstored
    | some e =>
      dsimp only
      split
      · exact R.seq (hdefine hr hp he) fun _ => hstored
      · exact hstored

theorem boundOf (hL : R.Lookups L M) (hab : R.Meets A [] a.spawn b.spawn)
    (he : R.Allows A (e.mentions [])) (known : Option Int)
    {note : Int → BoundRange K → BoundRange K}
    (hnote : ∀ i, R.rel (modifyRegistry (·.changeRange symbol (note i)))
      (modifyRegistry (·.changeRange symbol (note i)))) :
    R.rel (boundOf L symbol e known note a) (boundOf M symbol e known note b) := by
  cases known with
  | some i => exact R.ret i
  | none =>
    refine R.seq (rangeBound e (exprValue hL e hab he)) fun i => ?_
    exact R.seq (hnote i) fun _ => R.ret i

/-- The elements of a range whose bounds both registries know alike. -/
theorem rangeElements (hL : R.Lookups L M) {d : BoundRange K}
    (hab : R.Meets A [] a.spawn b.spawn) (hd : R.Allows A (Domain.range d).mentions)
    (hsame : ∀ {r r'}, R.like r r' → r.boundRanges.find? d.symbol = r'.boundRanges.find? d.symbol)
    (hnote : ∀ f : BoundRange K → BoundRange K, (∀ d, (f d).forget = d.forget) →
      R.rel (modifyRegistry (·.changeRange d.symbol f))
        (modifyRegistry (·.changeRange d.symbol f))) :
    R.rel (rangeElements L d a) (rangeElements M d b) := by
  simp only [Domain.mentions, allows_append] at hd
  refine R.seq (boundOf hL hab hd.1 _ fun i => hnote _ fun _ => rfl) fun first => ?_
  refine R.declarations fun r r' hr => ?_
  rw [hsame hr]
  exact R.seq (boundOf hL hab hd.2 _ fun i => hnote _ fun _ => rfl) fun last => R.ret _

/-- The members of a comprehension that are asked for under the same key. -/
theorem memberElements (hL : R.Lookups L M)
    (hscope : (∃ c, memberScope d a given = .error c ∧ memberScope d b given = .error c) ∨
      ∃ key scope scope', memberScope d a given = .ok (key, scope) ∧
        memberScope d b given = .ok (key, scope') ∧
        R.Meets A (d.outer.toList.map Iter.symbol) scope scope')
    (hd : R.Allows A (Domain.computed d).mentions)
    (hnote : ∀ f : ComputedSet K → ComputedSet K, (∀ d, (f d).forget = d.forget) →
      R.rel (modifyRegistry (·.changeMembers d.symbol f))
        (modifyRegistry (·.changeMembers d.symbol f))) :
    R.rel (memberElements L d a given) (memberElements M d b given) := by
  unfold LinearModel.memberElements
  obtain ⟨c, ha, hb⟩ | ⟨key, scope, scope', ha, hb, hmeets⟩ := hscope
  · rw [ha, hb]
    exact R.failure c (Plain.memberScope d a given c ha)
  · rw [ha, hb]
    simp only [Run.ofExcept, pure_bind]
    cases d.known.find? key with
    | some vs => exact R.ret vs
    | none =>
      refine R.seq (comprehend hL hmeets hd) fun vs => ?_
      exact R.seq (hnote _ fun _ => rfl) fun _ => R.ret vs

/-- The elements of a domain that both registries hold in the same state. -/
theorem domainElements (hsame : ∀ {r r'}, R.like r r' → r.domain? symbol = r'.domain? symbol)
    (hrange : ∀ {r r' d}, R.like r r' → r.domain? symbol = some (.range d) →
      R.rel (LinearModel.rangeElements L d a) (LinearModel.rangeElements M d b))
    (hcomputed : ∀ {r r' d}, R.like r r' → r.domain? symbol = some (.computed d) →
      R.rel (LinearModel.memberElements L d a given) (LinearModel.memberElements M d b given)) :
    R.rel (domainElements L symbol a given) (domainElements M symbol b given) := by
  refine R.declarations fun r r' hr => ?_
  rw [← hsame hr]
  cases hd : r.domain? symbol with
  | none => exact R.failure _ rfl
  | some d =>
    cases d with
    | tuples d | primitive d | index d => exact R.ret _
    | range d => exact hrange hr hd
    | computed d => exact hcomputed hr hd

end Comparison

/-- In one environment, a member is asked for under one key. -/
theorem memberScope_meets {R : Comparison K} {a : Env K}
    {given : Option (Value K)} (h : ∀ scope, R.sees scope scope) :
    (∃ c, memberScope d a given = .error c ∧ memberScope d a given = .error c) ∨
      ∃ key scope scope', memberScope d a given = .ok (key, scope) ∧
        memberScope d a given = .ok (key, scope') ∧
        R.Meets a.active (d.outer.toList.map Iter.symbol) scope scope' := by
  cases hscope : memberScope d a given with
  | error c => exact .inl ⟨c, rfl, rfl⟩
  | ok member =>
    obtain ⟨hactive, hbinds⟩ := memberScope_binds hscope
    exact .inr ⟨_, _, _, rfl, rfl, h _, hactive, hbinds⟩

/-! ## Simulations -/

namespace Simulation

variable {R : Simulation K} {L M : Lookup K} {a b : Env K}

theorem fillParameter (hL : R.Lookups L M) (hempty : R.sees Env.empty Env.empty) {p : Parameter K}
    {e : Expr K} (hp : R.isOpen ∨ ∀ q ∈ { p with definition := some e }.mentions,
      ∃ s, q.2 = .parameter s ∨ q.2 = .domain s)
    (hwriting : ∀ place v, R.rel (writing p.symbol place v) (writing p.symbol place v)) :
    R.rel (fillParameter L p e) (fillParameter M p e) :=
  Comparison.fillParameter hL.compared (meets hempty) (allows hp) hwriting

/-- Related lookups give a comprehension related members. -/
theorem members (hL : R.Lookups L M) (ho : R.isOpen) (d : ComputedSet K) (hab : R.sees a b) :
    R.rel (comprehend L d a) (comprehend M d b) :=
  Comparison.comprehend hL.compared (meets hab) (allows (.inl ho))

end Simulation

end LinearModel
