import LinearModel.Proofs.Evaluation

/-!
# Computations in step

Two computations run in step if they answer the same and leave related registries, unless one of
them fails in a way that is set aside. Evaluation through two lookups runs in step if the lookups
do.

What evaluation asks of a registry is a `Question`: for a parameter with its values, or for the
elements of a domain. A question can be put to the registry, which may know the answer, or it can
be worked out afresh. Worked out from the same answers to further questions, it has the same answer
in every registry that declares the same.
-/
namespace LinearModel

open Run Registry Parameter Simulation Table

variable {K : Type} {α β : Type} {Q : Registry K → Registry K → Prop}
  {left right : Failure K → Prop} {p q : Parameter K} {r t : Registry K} {symbol : String}
  {s : Store K} {e : Expr K}

namespace Run

section InStep

variable (left : Failure K → Registry K → Prop) (right : Failure K → Prop)
  (Q : Registry K → Registry K → Prop)

/-- From two stores, the first computation fails in the one way set aside and leaves such a
registry, or the second one fails in the other way set aside, or both answer the same and leave
related registries. -/
def InStepAt (x y : Run K α) (s t : Store K) : Prop :=
  (∃ f s', x.Fails s f s' ∧ left f s'.registry) ∨ (∃ f t', y.Fails t f t' ∧ right f) ∨
    ∃ a s' t', x.start s = (a, s') ∧ y.start t = (a, t') ∧ Q s'.registry t'.registry

/-- Two computations run in step from any stores with related registries. -/
def InStep (x y : Run K α) : Prop :=
  ∀ ⦃s t : Store K⦄, Q s.registry t.registry → InStepAt left right Q x y s t

end InStep

variable {left : Failure K → Registry K → Prop} {right : Failure K → Prop}
  {Q Q' : Registry K → Registry K → Prop} {s t : Store K} {y x : Run K α} {a : α}

theorem Returns.start_bind {f : α → Run K β} {s s' : Store K}
    (h : x.Returns s a s') : (x >>= f).start s = (f a).start s' := by
  rw [Run.start_bind, h]

theorem inStepAt_pure (a : α) (h : Q s.registry t.registry) :
    InStepAt left right Q (pure a) (pure a) s t :=
  .inr (.inr ⟨_, _, _, rfl, rfl, h⟩)

theorem inStepAt_fail (c : Cause K) (h : Q s.registry t.registry) :
    InStepAt left right Q (fail c : Run K α) (fail c) s t :=
  .inr (.inr ⟨_, _, _, rfl, rfl, h⟩)

theorem inStepAt_ofExcept (x : Except (Cause K) α) (h : Q s.registry t.registry) :
    InStepAt left right Q (ofExcept x) (ofExcept x) s t := by
  cases x with
  | ok a => exact inStepAt_pure a h
  | error c => exact inStepAt_fail c h

/-- Where the first computation may fail in any way, nothing is asked of the second. -/
theorem inStepAt_failing (h : ∀ f r, left f r) (c : Cause K) (y : Run K α) :
    InStepAt left right Q (fail c) y s t :=
  .inl ⟨_, _, rfl, h _ _⟩

theorem inStepAt_registry {f g : Registry K → Run K α}
    (h : InStepAt left right Q (f s.registry) (g t.registry) s t) :
    InStepAt left right Q (registry >>= f) (registry >>= g) s t := h

theorem inStepAt_modifyRegistry {f g : Registry K → Registry K}
    (h : Q (f s.registry) (g t.registry)) :
    InStepAt left right Q (modifyRegistry f) (modifyRegistry g) s t :=
  .inr (.inr ⟨_, _, _, rfl, rfl, h⟩)

theorem inStepAt_congr {x' y' : Run K α} (hx : x.start s = x'.start s) (hy : y.start t = y'.start t)
    (h : InStepAt left right Q x' y' s t) : InStepAt left right Q x y s t := by
  simpa only [InStepAt, Fails, hx, hy] using h

/-- The answers of computations in step. -/
theorem InStepAt.answers (h : InStepAt left right Q x y s t) :
    (∃ e r, (x.start s).1 = .error e ∧ left e r) ∨ (∃ e, (y.start t).1 = .error e ∧ right e) ∨
      (x.start s).1 = (y.start t).1 := by
  obtain ⟨e, s', hx, he⟩ | ⟨e, t', hy, he⟩ | ⟨a, s', t', hx, hy, _⟩ := h
  · exact .inl ⟨e, _, congrArg Prod.fst hx, he⟩
  · exact .inr (.inl ⟨e, congrArg Prod.fst hy, he⟩)
  · exact .inr (.inr (by rw [hx, hy]))

theorem InStepAt.mono (h : InStepAt left right Q x y s t) (hRel : ∀ {r r'}, Q r r' → Q' r r') :
    InStepAt left right Q' x y s t :=
  h.imp_right (.imp_right fun ⟨a, s', t', hx, hy, hr⟩ => ⟨a, s', t', hx, hy, hRel hr⟩)

/-- A sequence runs in step if its first part does, and its second part wherever the first one
leads. -/
theorem InStepAt.bind {f g : α → Run K β} (h : InStepAt left right Q x y s t)
    (hRel : ∀ {r r'}, Q r r' → Q' r r')
    (hfg : ∀ {a s' t'}, x.Returns s a s' → y.Returns t a t' → Q s'.registry t'.registry →
      InStepAt left right Q' (f a) (g a) s' t') :
    InStepAt left right Q' (x >>= f) (y >>= g) s t := by
  obtain ⟨e, s', hx, he⟩ | ⟨e, t', hy, he⟩ | ⟨a, s', t', hx, hy, hr⟩ := h
  · exact .inl ⟨e, s', fails_bind.2 (.inl hx), he⟩
  · exact .inr (.inl ⟨e, t', fails_bind.2 (.inl hy), he⟩)
  · cases a with
    | error e =>
      refine .inr (.inr ⟨.error e, s', t', ?_, ?_, hRel hr⟩)
      · exact fails_bind.2 (.inl hx)
      · exact fails_bind.2 (.inl hy)
    | ok a =>
      obtain ⟨e, s₁, hf, he⟩ | ⟨e, t₁, hg, he⟩ | ⟨b, s₁, t₁, hf, hg, hr⟩ := hfg hx hy hr
      · exact .inl ⟨e, s₁, fails_bind.2 (.inr ⟨a, s', hx, hf⟩), he⟩
      · exact .inr (.inl ⟨e, t₁, fails_bind.2 (.inr ⟨a, t', hy, hg⟩), he⟩)
      · refine .inr (.inr ⟨b, s₁, t₁, ?_, ?_, hr⟩)
        · exact (Returns.start_bind hx).trans hf
        · exact (Returns.start_bind hy).trans hg

theorem InStepAt.bind' {f g : α → Run K β} (h : InStepAt left right Q x y s t)
    (hfg : ∀ a, InStep left right Q (f a) (g a)) : InStepAt left right Q (x >>= f) (y >>= g) s t :=
  h.bind id fun _ _ hr => hfg _ hr

/-- A value that a third computation gives may be known already. -/
theorem InStepAt.known {z : Run K α} {b : Store K} {Rel₂ : Registry K → Registry K → Prop}
    (h : InStepAt (fun f _ => right f) (fun _ => False) Rel₂ y z t b) (hz : (z.start b).1 = .ok a)
    (hRel : ∀ {t' b'}, Rel₂ t' b' → Q s.registry t') : InStepAt left right Q (pure a) y s t := by
  obtain ⟨e, t', hy, he⟩ | ⟨_, _, _, hfalse⟩ | ⟨c, t', b', hy, hz', hr⟩ := h
  · exact .inr (.inl ⟨e, t', hy, he⟩)
  · exact hfalse.elim
  · rw [hz'] at hz
    obtain rfl : c = .ok a := hz
    exact .inr (.inr ⟨_, s, t', rfl, hy, hRel hr⟩)

theorem InStepAt.confirms {z : Run K α} {b : Store K}
    {Rel₂ : Registry K → Registry K → Prop}
    (h : InStepAt (fun f _ => right f) (fun _ => False) Rel₂ y z t b)
    {t' : Store K} (hy : y.Returns t a t') : (z.start b).1 = .ok a := by
  obtain ⟨e, t'', hfails, _⟩ | ⟨_, _, _, hfalse⟩ | ⟨c, t'', b', hy', hz, _⟩ := h
  · have : (Except.ok a, t') = (Except.error e, t'') := hy.symm.trans hfails
    simp at this
  · exact hfalse.elim
  · have : (Except.ok a, t') = (c, t'') := hy.symm.trans hy'
    rw [hz, ← congrArg Prod.fst this]

end Run

/-- The second registry has what expressions see of the first one. Where failing first is set aside
it may have more. -/
structure Registry.Seen (left : Failure K → Registry K → Prop) (r t : Registry K) : Prop where
  params : ∀ s, r.params.contains s = t.params.contains s ∨
    r.params.contains s = false ∧ ∀ f r, left f r
  tupleSets : ∀ s, r.tupleSets.find? s = t.tupleSets.find? s ∨
    r.tupleSets.find? s = none ∧ ∀ f r, left f r

/-- The second registry declares what the first one does, in the same state. Where failing first is
set aside it may declare more. -/
structure Registry.Offers (left : Failure K → Prop) (r t : Registry K) : Prop where
  params : ∀ s, r.params.find? s = t.params.find? s ∨ r.params.find? s = none ∧ ∀ f, left f
  tupleSets : ∀ s, r.tupleSets.find? s = t.tupleSets.find? s ∨
    r.tupleSets.find? s = none ∧ ∀ f, left f
  domains : ∀ s, r.domain? s = t.domain? s ∨ r.domain? s = none ∧ ∀ f, left f

theorem Registry.Offers.refl (left : Failure K → Prop) (r : Registry K) : r.Offers left r :=
  ⟨fun _ => .inl rfl, fun _ => .inl rfl, fun _ => .inl rfl⟩

theorem Registry.Offers.seen (h : r.Offers left t) : r.Seen (fun f _ => left f) t where
  params s := (h.params s).imp (fun hs => by simp [contains, hs])
    (.imp (fun hs => by simp [contains, hs]) fun hleft f _ => hleft f)
  tupleSets s := (h.tupleSets s).imp_right (.imp_right fun hleft f _ => hleft f)

theorem Registry.Seen.putParameter {left : Failure K → Registry K → Prop}
    (h : r.Seen left t) (q : Parameter K) : (r.putParameter q).Seen left (t.putParameter q) where
  params s := by
    by_cases hs : q.symbol = s
    · subst hs
      exact .inl (by simp [contains, Registry.putParameter, find?_insert_self])
    · simpa [contains, Registry.putParameter, find?_insert_of_ne _ _ hs] using h.params s
  tupleSets := h.tupleSets

/-- An environment without values of decision variables, in which no decision expression is looked
into. -/
def Env.IsPlain (env : Env K) : Prop := env.spawn = Env.empty

theorem Env.isPlain_empty : (Env.empty : Env K).IsPlain := rfl

/-- A computation that gives an answer and does nothing else. -/
def Run.give (a : Except (Failure K) α) : Run K α := ExceptT.mk (pure a)

/-! ## Unfinished parameters -/

def registeredParameter (symbol : String) : Run K (Parameter K) := do
  match (← Run.registry).params.find? symbol with
  | none => Run.fail (.parameterNotDeclared symbol)
  | some p => return p

theorem Parameter.definition_of_open (h : p.isSettled = false) :
    ∃ e, p.definition = some e ∧ p.isDefined = false := by
  simp only [isSettled, Bool.or_eq_false_iff, Option.isNone_eq_false_iff] at h
  obtain ⟨e, he⟩ := Option.isSome_iff_exists.1 h.1
  exact ⟨e, he, h.2⟩

/-- Both registries hold the same unfinished state of a parameter. -/
def Registry.SameDraft (p : Parameter K) (r t : Registry K) : Prop :=
  ∃ q, p.SameDeclaration q ∧ q.isDefined = false ∧
    r.params.find? p.symbol = some q ∧ t.params.find? p.symbol = some q

theorem Registry.sameDraft_putParameter (hpq : p.SameDeclaration q)
    (hq : q.isDefined = false) (r t : Registry K) :
    SameDraft p (r.putParameter q) (t.putParameter q) := by
  refine ⟨q, hpq, hq, ?_, ?_⟩ <;>
    simp only [putParameter, hpq.symbol, find?_insert_self]

/-- An unfinished parameter that is declared finished. -/
theorem start_closeParameter
    (hs : s.registry.params.find? symbol = some q) (hq : q.symbol = symbol) : (do
      modifyRegistry (·.closeParameter symbol)
      registeredParameter symbol : Run K (Parameter K)).start s =
        (.ok { q with isDefined := true },
          { s with registry := s.registry.putParameter { q with isDefined := true } }) := by
  have hclosed : s.registry.closeParameter symbol =
      s.registry.putParameter { q with isDefined := true } := by
    simp only [closeParameter, hs]
  simp only [start_bind, start_modifyRegistry, registeredParameter, hclosed, start_registry,
    putParameter, hq, find?_insert_self, start_pure]

/-! ## Data -/

/-- Whether the definition of a parameter mentions no decision variable and no decision
expression. -/
def Parameter.isData (p : Parameter K) : Bool :=
  p.definition.all Expr.isData && Iter.areData p.iterators

/-- Whether the definition of a domain mentions no decision variable and no decision expression. -/
def Domain.isData : Domain K → Bool
  | .computed d =>
    Iter.areData d.iterators && d.condition.all Expr.isData && d.output.all Expr.isData
  | .range d => d.first.isData && d.last.isData
  | _ => true

/-- The definition of a parameter that is data mentions parameters and domains only. -/
theorem Parameter.isData_mentions [Scalar K] (hp : p.isData = true) :
    ∀ q ∈ p.mentions, ∃ s, q.2 = .parameter s ∨ q.2 = .domain s := by
  simp only [isData, Bool.and_eq_true] at hp
  unfold mentions
  split
  · nofun
  · rename_i e he
    have hdata : e.isData = true := by simpa [he] using hp.1
    split
    · exact List.forall_mem_append.2
        ⟨Iter.areData_mentions p.iterators _ hp.2, e.isData_mentions _ hdata⟩
    · exact e.isData_mentions _ hdata

theorem Parameter.isData_fill [Scalar K] (he : e.isData = true)
    (hits : Iter.areData p.iterators = true) : ∀ q ∈ { p with definition := some e }.mentions,
      ∃ s, q.2 = .parameter s ∨ q.2 = .domain s :=
  isData_mentions (by simp [isData, he, hits])

/-- A comprehension that is data mentions parameters and domains only. -/
theorem ComputedSet.isData_mentions [Scalar K] {d : ComputedSet K}
    (hd : (Domain.computed d).isData = true) (bound : List String) :
    ∀ q ∈ d.mentions bound, ∃ s, q.2 = .parameter s ∨ q.2 = .domain s := by
  simp only [Domain.isData, Bool.and_eq_true, Option.all_eq_true] at hd
  obtain ⟨⟨hits, hcondition⟩, houtput⟩ := hd
  simp only [ComputedSet.mentions, List.forall_mem_append, List.flatMap_append]
  refine ⟨Iter.areData_mentions d.iterators _ hits, ?_, ?_⟩
  · simp only [List.mem_flatMap, Option.mem_toList]
    rintro q ⟨e, he, hq⟩
    exact e.isData_mentions _ (hcondition e he) q hq
  · simp only [List.mem_flatMap, Option.mem_toList]
    rintro q ⟨e, he, hq⟩
    exact e.isData_mentions _ (houtput e he) q hq

theorem Domain.isData_mentions [Scalar K] {d : Domain K} (hd : d.isData = true) :
    ∀ q ∈ d.mentions, ∃ s, q.2 = .parameter s ∨ q.2 = .domain s := by
  cases d with
  | range d =>
    simp only [Domain.isData, Bool.and_eq_true] at hd
    exact List.forall_mem_append.2 ⟨d.first.isData_mentions _ hd.1, d.last.isData_mentions _ hd.2⟩
  | computed d => exact ComputedSet.isData_mentions hd _
  | tuples d | primitive d | index d => nofun

/-- A registry in which no definition of a parameter or domain mentions decision variables or
decision expressions. -/
structure Registry.IsData (r : Registry K) : Prop where
  params : ∀ {s p}, r.params.find? s = some p → p.isData = true
  ranges : ∀ {s d}, r.boundRanges.find? s = some d → (Domain.range d).isData = true
  sets : ∀ {s d}, r.computedSets.find? s = some d → (Domain.computed d).isData = true

theorem Registry.IsData.domains (h : r.IsData) {s : String} {d : Domain K}
    (hd : r.domain? s = some d) : d.isData = true := by
  cases d with
  | range d => exact h.ranges (find?_of_domain?_range hd)
  | computed d => exact h.sets (find?_of_domain?_computed hd)
  | _ => rfl

/-! ## Evaluation in step -/

section PlainEnvironments

variable {a b : Env K}

theorem Env.get?_of_plain (h : a = b ∧ a.IsPlain) (s : String) : a.get? s = b.get? s := by
  rw [h.1]

theorem Env.depth_of_plain (h : a = b ∧ a.IsPlain) : a.depth = b.depth := by rw [h.1]

theorem Env.bind_of_plain (s : String) (v : Value K) (h : a = b ∧ a.IsPlain) :
    a.bind s v = b.bind s v ∧ (a.bind s v).IsPlain :=
  ⟨by rw [h.1], h.2⟩

theorem Env.spawn_of_plain : False → ∀ {a b : Env K}, a = b ∧ a.IsPlain →
    a.spawn = b.spawn ∧ a.spawn.IsPlain :=
  False.elim

theorem Registry.vars_of_false : False → ∀ {r t : Registry K}, Q r t → r.vars = t.vars :=
  False.elim

theorem Registry.dexprs_of_false : False → ∀ {r t : Registry K}, Q r t → r.dexprs = t.dexprs :=
  False.elim

end PlainEnvironments

variable [Scalar K]

/-- Computations on data that run in step. -/
def Simulation.inStep (left : Failure K → Registry K → Prop) (right : Failure K → Prop)
    {Q : Registry K → Registry K → Prop} (h : ∀ {r t}, Q r t → r.Seen left t) : Simulation K where
  rel x y := InStep left right Q x y
  sees a b := a = b ∧ a.IsPlain
  like := Q
  isOpen := False
  ret a := fun _ _ hr => inStepAt_pure a hr
  seq hxy hfg := fun _ _ hr => (hxy hr).bind' hfg
  failure c := fun _ _ hr => inStepAt_fail c hr
  warning _ := fun _ _ hr => .inr (.inr ⟨_, _, _, rfl, rfl, hr⟩)
  declarations hfg := fun _ _ hr => inStepAt_registry (hfg _ _ hr hr)
  params hr s := ((h hr).params s).imp_right (.imp_right fun hleft _ c y _ _ _ =>
    inStepAt_failing hleft c y)
  tupleSets hr s := ((h hr).tupleSets s).imp_right (.imp_right fun hleft _ c y _ _ _ =>
    inStepAt_failing hleft c y)
  vars := @vars_of_false K Q
  dexprs := @dexprs_of_false K Q
  binding := @Env.get?_of_plain K
  depth := @Env.depth_of_plain K
  bound := @Env.bind_of_plain K
  spawn := @Env.spawn_of_plain K
  assigned := False.elim
  enter := False.elim

/-! ## Questions -/

/-- A question that evaluation asks of a registry. -/
inductive Question (K : Type) where
  /-- For a parameter with its values. -/
  | parameter (symbol : String)
  /-- For the elements of a domain, at an outer index if one is given. -/
  | elements (symbol : String) (env : Env K) (given : Option (Value K))

namespace Question

/-- What a question is answered with. -/
abbrev Answer : Question K → Type
  | .parameter _ => Parameter K
  | .elements _ _ _ => List (Value K)

/-- A question that is asked where data is evaluated. -/
def IsPlain : Question K → Prop
  | .parameter _ => True
  | .elements _ env _ => env.IsPlain

end Question

/-- An answer to every question, or why there is none. -/
abbrev Answers (K : Type) : Type := ∀ q : Question K, Except (Failure K) q.Answer

/-- The lookup that looks into given answers. -/
def Lookup.ofAnswers (f : Answers K) : Lookup K where
  parameter s idx := do Run.ofExcept ((← give (f (.parameter s))).get idx)
  elements s env given := give (f (.elements s env given))
  body _ _ := fail .endless

/-- A lookup that looks up data by asking questions. -/
structure Lookup.Asks (L : Lookup K) (ask : ∀ q : Question K, Run K q.Answer) : Prop where
  parameter : ∀ s idx, L.parameter s idx = do Run.ofExcept ((← ask (.parameter s)).get idx)
  elements : ∀ s env given, L.elements s env given = ask (.elements s env given)

theorem Lookup.ofAnswers_asks (f : Answers K) : (Lookup.ofAnswers f).Asks fun q => give (f q) :=
  ⟨fun _ _ => rfl, fun _ _ _ => rfl⟩

/-- Lookups whose questions are answered in step are in step. -/
theorem Lookup.Asks.inStep {left : Failure K → Registry K → Prop}
    (hRel : ∀ {r t}, Q r t → r.Seen left t)
    {L M : Lookup K} {ask answer : ∀ q : Question K, Run K q.Answer} (hL : L.Asks ask)
    (hM : M.Asks answer) (h : ∀ q, q.IsPlain → InStep left right Q (ask q) (answer q)) :
    (inStep left right hRel).Lookups L M where
  parameter s idx := by
    rw [hL.parameter, hM.parameter]
    exact (Simulation.inStep left right hRel).seq (h (.parameter s) trivial)
      fun p => ofExcept _
  elements {a b} s given hab := by
    obtain ⟨rfl, hplain⟩ := hab
    rw [hL.elements, hM.elements]
    exact h (.elements s a given) hplain
  body := False.elim

/-! ## Parameters -/

/-- Evaluate the definition of a parameter, if it has one that has not been evaluated. -/
def settleParameter (L : Lookup K) (p : Parameter K) : Run K Unit :=
  match p.definition with
  | some definition => if !p.isDefined then defineParameter L p definition else pure ()
  | none => pure ()

/-- A parameter with its values. -/
def settledParameter (L : Lookup K) (symbol : String) : Run K (Parameter K) := do
  settleParameter L (← registeredParameter symbol)
  registeredParameter symbol

theorem start_settledParameter_none (h : s.registry.params.find? symbol = none) (L : Lookup K) :
    (settledParameter L symbol).start s =
      (.error { cause := .parameterNotDeclared symbol }, s) := by
  simp [settledParameter, registeredParameter, start_bind, h]

theorem start_settledParameter (h : s.registry.params.find? symbol = some p)
    (hp : p.isSettled = true) (L : Lookup K) :
    (settledParameter L symbol).start s = (.ok p, s) := by
  have hsettle : settleParameter L p = pure () := by
    simp only [settleParameter]
    cases hd : p.definition with
    | none => rfl
    | some e =>
      have hdefined : p.isDefined = true := by simpa [isSettled, hd] using hp
      simp [hdefined]
  simp [settledParameter, registeredParameter, start_bind, h, hsettle]

theorem start_settledParameter_open
    (h : s.registry.params.find? symbol = some p) (he : p.definition = some e)
    (hopen : p.isDefined = false) (L : Lookup K) : (settledParameter L symbol).start s = (do
      draftParameter L p e
      modifyRegistry (·.closeParameter p.symbol)
      registeredParameter symbol : Run K (Parameter K)).start s := by
  have hsettle : settleParameter L p = defineParameter L p e := by
    simp [settleParameter, he, hopen]
  have hfound : (registeredParameter symbol).start s = (.ok p, s) := by
    simp [registeredParameter, start_bind, h]
  rw [settledParameter, start_bind, hfound]
  simp only [hsettle, defineParameter_eq, bind_assoc]

theorem storedValue_eq (symbol : String) (idx : Index K) :
    storedValue symbol idx = (do Run.ofExcept ((← registeredParameter symbol).get idx)) := by
  simp only [storedValue, registeredParameter, bind_assoc]
  refine congrArg (registry >>= ·) (funext fun r => ?_)
  cases r.params.find? symbol <;> rfl

theorem parameterValue_eq (L : Lookup K) (symbol : String) (idx : Index K) :
    parameterValue L symbol idx =
      (do Run.ofExcept ((← settledParameter L symbol).get idx)) := by
  simp only [settledParameter, bind_assoc, ← storedValue_eq]
  simp only [parameterValue, registeredParameter, bind_assoc]
  refine congrArg (registry >>= ·) (funext fun r => ?_)
  cases r.params.find? symbol with
  | none => rfl
  | some p =>
    simp only [pure_bind, settleParameter]
    cases p.definition with
    | none => rfl
    | some e => cases p.isDefined <;> rfl

theorem draftParameter_congr (L : Lookup K) (e : Expr K) (h : p.SameDeclaration q)
    (hdefined : q.isDefined = p.isDefined) : draftParameter L q e = draftParameter L p e := by
  obtain ⟨_, _, _, _, _, _, _, _, _, _⟩ := p
  obtain ⟨_, _, _, _, _, _, _, _, _, _⟩ := q
  obtain ⟨rfl, rfl, rfl, rfl, rfl, rfl, rfl, _⟩ := h
  obtain rfl := hdefined
  rfl

section Draft

variable {left : Failure K → Registry K → Prop} {right : Failure K → Prop}
  {Q : Registry K → Registry K → Prop} {p : Parameter K} {L M : Lookup K}
  (hSeen : ∀ {r t}, Q r t ∧ SameDraft p r t → r.Seen left t)
  (hput : ∀ {r t q}, Q r t → p.SameDeclaration q → q.isDefined = false →
    Q (r.putParameter q) (t.putParameter q))

include hput

/-- Writing to an unfinished parameter leaves it unfinished. -/
theorem writing_inStep (place : Option (Index K)) (v : Value K) :
    InStep left right (fun r t => Q r t ∧ SameDraft p r t) (writing p.symbol place v)
      (writing p.symbol place v) := by
  rintro s t ⟨hrel, q, hpq, hq, hs, ht⟩
  refine inStepAt_registry ?_
  simp only [hs, ht]
  refine (inStepAt_ofExcept (q.write place v) ⟨hrel, q, hpq, hq, hs, ht⟩).bind id ?_
  intro q' s' t' hreturns hreturns' _
  obtain ⟨hq', rfl⟩ := returns_ofExcept.1 hreturns
  obtain ⟨_, rfl⟩ := returns_ofExcept.1 hreturns'
  obtain ⟨hqq', hdefined⟩ := write_ok hq'
  have hpq' := hpq.trans hqq'
  have hopen : q'.isDefined = false := hdefined.trans hq
  exact inStepAt_modifyRegistry
    ⟨hput hrel hpq' hopen, sameDraft_putParameter hpq' hopen _ _⟩

/-- The values of a parameter are computed in step. -/
theorem draftParameter_inStep (hL : (inStep left right hSeen).Lookups L M)
    (he : e.isData = true) (hits : Iter.areData p.iterators = true) (hopen : p.isDefined = false) :
    ∀ {s t : Store K}, Q s.registry t.registry →
      InStepAt left right (fun r t => Q r t ∧ SameDraft p r t)
        (draftParameter L p e) (draftParameter M p e) s t := by
  intro s t hrel
  have hblank : p.SameDeclaration { p with value := none, values := empty } := rfl
  refine (inStepAt_modifyRegistry (Q := fun r t => Q r t ∧ SameDraft p r t)
    ⟨hput hrel hblank hopen, sameDraft_putParameter hblank hopen _ _⟩).bind' fun _ => ?_
  exact Simulation.fillParameter hL ⟨rfl, Env.isPlain_empty⟩
    (.inr (isData_fill he hits)) (writing_inStep hput)

end Draft

/-- The members of a comprehension are computed in step. -/
theorem Simulation.comprehend {R : Simulation K} {L M : Lookup K} (hL : R.Lookups L M)
    (d : ComputedSet K) (hd : (Domain.computed d).isData = true) {a b : Env K}
    (hab : R.sees a b) : R.rel (comprehend L d a) (comprehend M d b) := by
  exact Comparison.comprehend hL.compared (meets hab)
    (allows (.inr (ComputedSet.isData_mentions hd _)))

/-! ## Answering questions -/

/-- The elements of a declared domain, computed from its definition. -/
def freshElements (L : Lookup K) (symbol : String) (env : Env K) (given : Option (Value K)) :
    Run K (List (Value K)) := do
  match (← Run.registry).domain? symbol with
  | none => Run.fail (.domainNotDeclared symbol)
  | some (.tuples d) => return d.records
  | some (.primitive d) => return d.elements
  | some (.index d) => return intRange d.first d.last
  | some (.range d) =>
    let first ← rangeBound d.first (d.first.value L env.spawn)
    let last ← rangeBound d.last (d.last.value L env.spawn)
    return intRange first last
  | some (.computed d) =>
    let (_, scope) ← Run.ofExcept (memberScope d env given)
    comprehend L d scope

namespace Question

/-- Put a question to the registry, which may know the answer. -/
def resolve (L : Lookup K) : ∀ q : Question K, Run K q.Answer
  | .parameter s => settledParameter L s
  | .elements s env given => domainElements L s env given

/-- Work out the answer to a question from the definitions. -/
def workOut (L : Lookup K) : ∀ q : Question K, Run K q.Answer
  | .parameter s => settledParameter L s
  | .elements s env given => freshElements L s env given

end Question

/-- Questions put to the registry through lookups `n` declarations deep. -/
def resolving : Nat → ∀ q : Question K, Run K q.Answer
  | 0, _ => fail .endless
  | n + 1, q => q.resolve (lookup n)

theorem lookup_asks : ∀ n, (lookup n : Lookup K).Asks (resolving n)
  | 0 => ⟨fun _ _ => rfl, fun _ _ _ => rfl⟩
  | n + 1 => ⟨fun s idx => parameterValue_eq (lookup n) s idx, fun _ _ _ => rfl⟩

theorem memberScope_isPlain {d : ComputedSet K} {env : Env K} {given : Option (Value K)}
    {key : Value K} {scope : Env K} (henv : env.IsPlain)
    (h : memberScope d env given = .ok (key, scope)) : scope.IsPlain := by
  simp only [memberScope] at h
  split at h
  · cases h
    exact henv
  · obtain ⟨v, _, h⟩ := bind_eq_ok.1 h
    split at h
    · cases h
      exact henv
    · cases h

/-- Two collections of answers that agree, but for those set aside. -/
def Answers.Agree (left right : Failure K → Prop) (f g : Answers K) : Prop :=
  ∀ q, q.IsPlain →
    (∃ e, f q = .error e ∧ left e) ∨ (∃ e, g q = .error e ∧ right e) ∨ f q = g q

theorem Answers.Agree.lookups {f g : Answers K} (h : f.Agree left right g)
    (hRel : ∀ {r t}, Q r t → r.Seen (fun f _ => left f) t) :
    (inStep (fun f _ => left f) right hRel).Lookups (.ofAnswers f) (.ofAnswers g) := by
  refine (Lookup.ofAnswers_asks f).inStep hRel (Lookup.ofAnswers_asks g) fun q hq s t hr => ?_
  obtain ⟨e, he, hleft⟩ | ⟨e, he, hright⟩ | hfg := h q hq
  · exact .inl ⟨e, s, by rw [he]; rfl, hleft⟩
  · exact .inr (.inl ⟨e, t, by rw [he]; rfl, hright⟩)
  · exact .inr (.inr ⟨f q, s, t, rfl, by rw [hfg]; rfl, hr⟩)

theorem settledParameter_inStepAt (h : r.Offers left t) (hr : r.Keyed)
    (hdata : r.IsData) {f g : Answers K} (hfg : f.Agree left right g) (symbol : String)
    (w w' : List String) :
    InStepAt (fun f _ => left f) right (fun _ _ => True) (settledParameter (.ofAnswers f) symbol)
      (settledParameter (.ofAnswers g) symbol) ⟨r, w⟩ ⟨t, w'⟩ := by
  cases hp : r.params.find? symbol with
  | none =>
    obtain hsame | ⟨_, hleft⟩ := h.params symbol
    · have hq : t.params.find? symbol = none := hsame.symm.trans hp
      exact .inr (.inr ⟨_, _, _, start_settledParameter_none hp _,
        start_settledParameter_none hq _, trivial⟩)
    · exact .inl ⟨_, _, start_settledParameter_none hp _, hleft _⟩
  | some p =>
    have hq : t.params.find? symbol = some p := by
      obtain hsame | ⟨hnone, _⟩ := h.params symbol
      · exact hsame.symm.trans hp
      · simp [hp] at hnone
    cases hsettled : p.isSettled with
    | true =>
      exact .inr (.inr ⟨_, _, _, start_settledParameter hp hsettled _,
        start_settledParameter hq hsettled _, trivial⟩)
    | false =>
      obtain ⟨e, he, hopen⟩ := definition_of_open hsettled
      have hpdata := hdata.params hp
      simp only [isData, he, Option.all_some, Bool.and_eq_true] at hpdata
      refine inStepAt_congr (start_settledParameter_open hp he hopen _)
        (start_settledParameter_open hq he hopen _) ?_
      refine (draftParameter_inStep (Q := Registry.Seen fun f _ => left f) (fun hr => hr.1)
        (fun hr _ _ => hr.putParameter _) (hfg.lookups _) hpdata.1 hpdata.2 hopen h.seen).bind
          (fun _ => trivial) fun _ _ hr' => ?_
      obtain ⟨q, hpq, _, hs, ht⟩ := hr'.2
      have hsymbol := hr.params hp
      have hqsymbol := hpq.symbol.trans hsymbol
      rw [hsymbol] at hs ht ⊢
      exact .inr (.inr ⟨_, _, _, start_closeParameter hs hqsymbol,
        start_closeParameter ht hqsymbol, trivial⟩)

/-- A question worked out from answers that agree is answered in step. -/
theorem workOut_inStepAt (h : r.Offers left t) (hr : r.Keyed) (hdata : r.IsData)
    {f g : Answers K} (hfg : f.Agree left right g) {q : Question K} (hq : q.IsPlain)
    (w w' : List String) :
    InStepAt (fun f _ => left f) right (fun _ _ => True) (q.workOut (.ofAnswers f))
      (q.workOut (.ofAnswers g)) ⟨r, w⟩ ⟨t, w'⟩ := by
  cases q with
  | parameter s => exact settledParameter_inStepAt h hr hdata hfg s w w'
  | elements s env given =>
    have hseen : ∀ {r t : Registry K}, r.Seen (fun f _ => left f) t →
        r.Seen (fun f _ => left f) t := id
    have hL := hfg.lookups hseen
    let R := inStep (fun f _ => left f) right hseen
    refine inStepAt_registry ?_
    obtain hsame | ⟨hnone, hleft⟩ := h.domains s
    · dsimp only
      rw [← hsame]
      refine InStepAt.mono (Q := Registry.Seen fun f _ => left f) ?_ fun _ => trivial
      cases hd : r.domain? s with
      | none => exact inStepAt_fail _ h.seen
      | some d =>
        have hddata := hdata.domains hd
        cases d with
        | tuples d | primitive d | index d => exact inStepAt_pure _ h.seen
        | range d =>
          simp only [Domain.isData, Bool.and_eq_true] at hddata
          have hbound : ∀ e : Expr K, e.isData = true → R.rel
              (rangeBound e (e.value (.ofAnswers f) env.spawn))
              (rangeBound e (e.value (.ofAnswers g) env.spawn)) := fun e he =>
            Simulation.rangeBound e (Simulation.exprValue hL e ⟨rfl, hq⟩ (.inr he))
          exact R.seq (hbound d.first hddata.1) (fun i => R.seq (hbound d.last hddata.2)
            fun j => R.ret _) h.seen
        | computed d =>
          refine (inStepAt_ofExcept (memberScope d env given) h.seen).bind id ?_
          rintro ⟨key, scope⟩ s' t' hreturns _ hr'
          have hscope := memberScope_isPlain hq (returns_ofExcept.1 hreturns).1
          exact Simulation.comprehend hL d hddata ⟨rfl, hscope⟩ hr'
    · dsimp only
      rw [hnone]
      exact inStepAt_failing (fun f _ => hleft f) _ _

end LinearModel
