import LinearModel.Proofs.Caches

/-!
# Regimes

Evaluation changes what a registry has computed, and nothing that it declares, whether it succeeds
or fails. A regime follows two evaluations from such states of one registry. The second one does
without some decision expressions: they are not declared for it, and are not noted as being looked
into. A regime says which failures never come up, and after which failures of the first evaluation
nothing is said of the second.
-/
namespace LinearModel

open Run Registry

variable {K : Type} {α β : Type} {p : Parameter K} {s : String}

/-- The registry without some decision expressions. -/
def Registry.hide (h : String → Bool) (r : Registry K) : Registry K :=
  { r with dexprs := ⟨r.dexprs.toList.filter fun e => !h e.1⟩ }

/-- The environment in which some decision expressions are not looked into. -/
def Env.hide (h : String → Bool) (env : Env K) : Env K :=
  { env with active := env.active.filter fun s => !h s }

theorem Registry.hide_nothing (r : Registry K) : r.hide (fun _ => false) = r := by
  simp [Registry.hide]

theorem Env.hide_nothing (env : Env K) : env.hide (fun _ => false) = env := by
  simp [Env.hide]

theorem Table.find?_filter {κ : Type} [BEq κ] [LawfulBEq κ] {t : Table κ α} {k : κ} {p : κ → Bool}
    (hk : p k = true) : (⟨t.toList.filter fun e => p e.1⟩ : Table κ α).find? k = t.find? k := by
  obtain ⟨es⟩ := t
  simp only [Table.find?]
  induction es with
  | nil => rfl
  | cons e es ih =>
    by_cases he : e.1 = k
    · simp [Table.findIn, he, hk]
    · by_cases hp : p e.1 = true
      · simp [Table.findIn, he, hp, ih]
      · simp [Table.findIn, he, hp, ih]

theorem Domain.mentions_forget (d : Domain K) : d.forget.mentions = d.mentions := by
  cases d <;> rfl

theorem Env.enter_of_mem {a : Env K} (hs : s ∈ a.active) :
    a.enter s = .error (.cyclicDexpr s (a.active.dropWhile (· != s) ++ [s])) := by
  simp [Env.enter, hs]

theorem Failure.cause_inStatement (text : String) (f : Failure K) :
    (f.inStatement text).cause = f.cause := by
  unfold Failure.inStatement
  split <;> rfl

theorem Failure.cause_withBindings (bs : List (String × Value K)) (f : Failure K) :
    (f.withBindings bs).cause = f.cause := by
  unfold Failure.withBindings
  split <;> rfl

/-- Two evaluations that are followed from states of one registry. -/
structure Regime (K : Type) where
  /-- What the registry declares. -/
  base : Registry K
  /-- The decision expressions that the second evaluation does without. -/
  hidden : String → Bool
  /-- After such a failure of the first evaluation, nothing is said of the second. -/
  excused : Cause K → Prop
  /-- Such a failure does not come up. -/
  barred : Cause K → Prop
  /-- What else holds of the states that are followed. -/
  kept : Registry K → Prop := fun _ => True

/-- A state of the registry that is declared, and the same without what is hidden. -/
structure Regime.Like (W : Regime K) (r t : Registry K) : Prop where
  keyed : r.Keyed
  base : r.invalidate = W.base
  hide : t = r.hide W.hidden
  kept : W.kept r

/-- From two stores, computations leave the registry as it is declared and answer the same, unless
the first one is excused. No failure is barred. -/
def Regime.RelAt (W : Regime K) (x y : Run K α) (s t : Store K) : Prop :=
  InStepAt (fun f _ => W.excused f.cause) (fun _ => False) W.Like x y s t ∧
    ∀ f s', x.Fails s f s' → ¬ W.barred f.cause

/-- Two computations are related wherever they start. -/
def Regime.Rel (W : Regime K) (x y : Run K α) : Prop :=
  ∀ ⦃s t : Store K⦄, W.Like s.registry t.registry → W.RelAt x y s t

namespace Regime

variable {W : Regime K} {x y : Run K α} {f g : α → Run K β} {r : Registry K}

/-! ## Steps -/

/-- What follows where the first computation returns. -/
theorem Rel.after (h : W.Rel x y) {s t : Store K} (hst : W.Like s.registry t.registry) {a : α}
    {s' : Store K} (hx : x.Returns s a s') :
    ∃ t', y.Returns t a t' ∧ W.Like s'.registry t'.registry := by
  obtain ⟨e, s₁, hfails, _⟩ | ⟨_, _, _, hfalse⟩ | ⟨b, s₁, t₁, hb, hy, hlike⟩ := (h hst).1
  · have : (Except.ok a, s') = (Except.error e, s₁) := hx.symm.trans hfails
    simp at this
  · exact hfalse.elim
  · obtain ⟨rfl, rfl⟩ : Except.ok a = b ∧ s' = s₁ := by
      have : (Except.ok a, s') = (b, s₁) := hx.symm.trans hb
      simpa using this
    exact ⟨t₁, hy, hlike⟩

theorem rel_pure (a : α) : W.Rel (pure a) (pure a) :=
  fun _ _ hst => ⟨inStepAt_pure a hst, fun _ _ h => absurd h not_fails_pure⟩

theorem rel_fail {c : Cause K} (hc : ¬ W.barred c) : W.Rel (fail c : Run K α) (fail c) := by
  intro s t hst
  refine ⟨inStepAt_fail c hst, fun f s' h => ?_⟩
  obtain ⟨rfl, _⟩ := fails_fail.1 h
  exact hc

/-- A failure after which nothing more is said. -/
theorem rel_excused {c : Cause K} (hc : ¬ W.barred c) (he : W.excused c) :
    W.Rel (fail c : Run K α) y := by
  intro s t _
  refine ⟨.inl ⟨_, s, rfl, he⟩, fun f s' h => ?_⟩
  obtain ⟨rfl, _⟩ := fails_fail.1 h
  exact hc

/-- A sequence, where the second step may rely on what the first one returns. -/
theorem Rel.bindOf {P : α → Prop} (hxy : W.Rel x y) (hx : x.Yields P)
    (hfg : ∀ a, P a → W.Rel (f a) (g a)) : W.Rel (x >>= f) (y >>= g) := by
  intro s t hst
  obtain ⟨hstep, hbarred⟩ := hxy hst
  refine ⟨hstep.bind id fun hreturns _ hlike => (hfg _ (hx trivial hreturns).2 hlike).1, ?_⟩
  intro e s' hfails
  obtain hfirst | ⟨a, s₁, hreturns, hsecond⟩ := fails_bind.1 hfails
  · exact hbarred e s' hfirst
  · obtain ⟨t₁, _, hlike⟩ := hxy.after hst hreturns
    exact (hfg a (hx trivial hreturns).2 hlike).2 e s' hsecond

theorem Rel.bind (hxy : W.Rel x y) (hfg : ∀ a, W.Rel (f a) (g a)) : W.Rel (x >>= f) (y >>= g) :=
  hxy.bindOf (yields_any x) fun a _ => hfg a

theorem relAt_registry {f g : Registry K → Run K α} {s t : Store K}
    (h : W.RelAt (f s.registry) (g t.registry) s t) :
    W.RelAt (registry >>= f) (registry >>= g) s t := h

theorem rel_registry {f g : Registry K → Run K α} (h : ∀ r t, W.Like r t → W.Rel (f r) (g t)) :
    W.Rel (registry >>= f) (registry >>= g) :=
  fun s t hst => h s.registry t.registry hst hst

theorem rel_warn (w : String) : W.Rel (warn w) (warn w) := by
  intro s t hst
  exact ⟨.inr (.inr ⟨_, _, _, rfl, rfl, hst⟩), fun f s' h => by simp [Fails] at h⟩

theorem rel_ofExcept {x : Except (Cause K) α} (hx : ∀ c, x = .error c → ¬ W.barred c) :
    W.Rel (ofExcept x) (ofExcept x) := by
  cases x with
  | ok a => exact rel_pure a
  | error c => exact rel_fail (hx c rfl)

/-- Noting where a failure arose. -/
theorem rel_mapFailure {f : Failure K → Failure K} (hf : ∀ e, (f e).cause = e.cause)
    (h : W.Rel x y) : W.Rel (mapFailure f x) (mapFailure f y) := by
  intro s t hst
  obtain ⟨hstep, hbarred⟩ := h hst
  refine ⟨?_, fun e s' hfails => ?_⟩
  · obtain ⟨e, s', hfails, he⟩ | ⟨_, _, _, hfalse⟩ | ⟨a, s', t', hx, hy, hlike⟩ := hstep
    · have hexcused : W.excused (f e).cause := by rwa [hf]
      exact .inl ⟨f e, s', fails_mapFailure.2 ⟨e, hfails, rfl⟩, hexcused⟩
    · exact hfalse.elim
    · refine .inr (.inr ⟨a.mapError f, s', t', ?_, ?_, hlike⟩)
      · rw [start_mapFailure, hx]
        cases a <;> rfl
      · rw [start_mapFailure, hy]
        cases a <;> rfl
  · obtain ⟨e', hfirst, rfl⟩ := fails_mapFailure.1 hfails
    rw [hf]
    exact hbarred e' s' hfirst

theorem relAt_modifyRegistry {f : Registry K → Registry K} {s t : Store K}
    (h : W.Like (f s.registry) (f t.registry)) :
    W.RelAt (modifyRegistry f) (modifyRegistry f) s t :=
  ⟨inStepAt_modifyRegistry h, fun _ _ hfails => absurd hfails not_fails_modifyRegistry⟩

/-- A regime that follows all states of the registry. -/
def Total (W : Regime K) : Prop := ∀ r, W.kept r

/-- A change of what has been computed. -/
theorem rel_modifyRegistry (hall : W.Total) {f : Registry K → Registry K}
    (h : ∀ r, r.Keyed → r.invalidate = W.base →
      (f r).Keyed ∧ (f r).invalidate = W.base ∧ f (r.hide W.hidden) = (f r).hide W.hidden) :
    W.Rel (modifyRegistry f) (modifyRegistry f) := by
  intro s t hst
  obtain ⟨hkeyed, hbase, hhide⟩ := h _ hst.keyed hst.base
  exact relAt_modifyRegistry ⟨hkeyed, hbase, by rw [hst.hide, hhide], hall _⟩

/-! ## Derived parameters -/

/-- A derived parameter, as it is declared. -/
def Derives (W : Regime K) (p : Parameter K) : Prop :=
  p.definition.isSome = true ∧ W.base.params.find? p.symbol = some p.clear

theorem Derives.of_find (hr : r.Keyed) (hbase : r.invalidate = W.base)
    (hp : r.params.find? s = some p) (hderived : p.definition.isSome = true) : W.Derives p := by
  refine ⟨hderived, ?_⟩
  rw [← hbase, find?_params_invalidate, hr.params hp, hp, Option.map_some, if_pos hderived]

/-- In every state of the registry, a derived parameter is found in some state. -/
theorem Derives.find (h : W.Derives p)
    (hbase : r.invalidate = W.base) :
    ∃ q, r.params.find? p.symbol = some q ∧ p.SameDeclaration q := by
  obtain ⟨hderived, hp⟩ := h
  rw [← hbase, find?_params_invalidate, Option.map_eq_some_iff] at hp
  obtain ⟨q, hq, hclear⟩ := hp
  refine ⟨q, hq, ?_⟩
  split at hclear
  · exact Parameter.sameDeclaration_of_clear hclear.symm
  · subst hclear
    contradiction

/-- Changing the values of a derived parameter. -/
theorem Derives.put {q q' : Parameter K} (h : W.Derives p) (hr : r.Keyed)
    (hbase : r.invalidate = W.base) (hq : r.params.find? p.symbol = some q)
    (hpq : p.SameDeclaration q) (hqq' : q.SameDeclaration q') :
    (r.putParameter q').Keyed ∧ (r.putParameter q').invalidate = W.base ∧
      (r.hide W.hidden).putParameter q' = (r.putParameter q').hide W.hidden := by
  have hpq' := hpq.trans hqq'
  refine ⟨hr.putParameter q', ?_, rfl⟩
  rw [← hbase]
  refine invalidate_putParameter ?_ hqq' ?_
  · rw [hpq'.symbol, hq]
  · rw [hpq'.definition, h.1]

end Regime

/-! ## Expressions -/

/-- What a regime needs for expressions that keep to what may be mentioned. A decision expression
that may be mentioned and is not looked into is not hidden. -/
structure Regime.Lawful (W : Regime K) (permits : List String → Mention → Prop) : Prop where
  plain : ∀ {c : Cause K}, c.isPlain = true → ¬ W.barred c
  leftover : ∀ sum, ¬ W.barred (.sumNotFlattened sum)
  visible : ∀ {A s}, permits A (.dexpr s) → s ∉ A → W.hidden s = false
  undeclared : ∀ {A s}, permits A (.dexpr s) → s ∉ A → ¬ W.barred (.dexprNotDeclared s)
  cyclic : ∀ {A s}, permits A (.dexpr s) → s ∈ A → ∀ path, ¬ W.barred (.cyclicDexpr s path) ∧
    (W.excused (.cyclicDexpr s path) ∨ W.hidden = fun _ => false)

variable [Scalar K]

theorem memberScope_hide (d : ComputedSet K) (env : Env K) (given : Option (Value K))
    (h : String → Bool) : memberScope d (env.hide h) given =
      (memberScope d env given).map fun m => (m.1, m.2.hide h) := by
  simp only [memberScope]
  cases d.outer with
  | none => rfl
  | some outer =>
    have houter : outerIndex d outer (env.hide h) given = outerIndex d outer env given := rfl
    dsimp only
    rw [houter]
    cases outerIndex d outer env given with
    | error c => rfl
    | ok v =>
      simp only [bind, Except.bind]
      split <;> rfl

namespace Regime

variable {W : Regime K} {permits : List String → Mention → Prop}

/-- Expressions are compared under a regime. -/
def comparison (hW : W.Lawful permits) : Comparison K where
  rel := W.Rel
  sees a b := b = a.hide W.hidden
  like := W.Like
  permits := permits
  ret := rel_pure
  seq := Rel.bind
  failure c hc := rel_fail (hW.plain hc)
  warning := rel_warn
  declarations := rel_registry
  params hr s := .inl (by rw [hr.hide]; rfl)
  tupleSets hr s := .inl (by rw [hr.hide]; rfl)
  vars _ _ _ hr := by rw [hr.hide]; rfl
  dexprs {A s} hp hs r r' hr := by
    rw [hr.hide]
    exact (Table.find?_filter (p := fun s => !W.hidden s) (by simp [hW.visible hp hs])).symm
  undeclared hp hs _ := rel_fail (hW.undeclared hp hs)
  binding h s := by rw [h]; rfl
  depth h := by rw [h]; rfl
  bound s v h := by rw [h]; rfl
  spawn _ _ _ h := by rw [h]; rfl
  assigned _ a b n h := by
    rw [h]
    exact rel_ofExcept fun c hc => hW.plain (Plain.variableValue a n c hc)
  enter s h hp hfg := by
    rename_i a b _ _
    subst h
    by_cases hs : s ∈ a.active
    · have hcyclic := Env.enter_of_mem hs
      obtain ⟨hbarred, hexcused | hnothing⟩ := hW.cyclic hp hs (a.active.dropWhile (· != s) ++ [s])
      · rw [hcyclic]
        exact rel_excused hbarred hexcused
      · rw [hnothing, Env.hide_nothing, hcyclic]
        exact rel_fail hbarred
    · have henter := Env.enter_eq_ok.2 ⟨hs, rfl⟩
      have hhidden : (a.hide W.hidden).enter s =
          .ok (Env.hide W.hidden { a with active := a.active ++ [s] }) :=
        Env.enter_eq_ok.2 ⟨fun hmem => hs (List.mem_of_mem_filter hmem), by
          simp [Env.hide, hW.visible hp hs]⟩
      rw [hhidden, henter]
      exact hfg henter rfl

theorem reliable (hW : W.Lawful permits) : (comparison hW).Reliable :=
  fun hxy hx hfg => Rel.bindOf hxy hx hfg

/-! ## Parameters -/

/-- Writing to a derived parameter. -/
theorem Derives.rel_writing (hall : W.Total) (hW : W.Lawful permits) (h : W.Derives p)
    (place : Option (Index K)) (v : Value K) :
    W.Rel (writing p.symbol place v) (writing p.symbol place v) := by
  intro s t hst
  obtain ⟨q, hq, hpq⟩ := h.find hst.base
  have ht : t.registry.params.find? p.symbol = some q := by rw [hst.hide]; exact hq
  refine relAt_registry ?_
  simp only [hq, ht]
  cases hwrite : q.write place v with
  | error c => exact rel_fail (hW.plain (Plain.write q place v c hwrite)) hst
  | ok q' =>
    obtain ⟨hkeyed, hbase, hhide⟩ := h.put hst.keyed hst.base hq hpq (Parameter.write_ok hwrite).1
    exact relAt_modifyRegistry (f := (·.putParameter q'))
      ⟨hkeyed, hbase, by rw [hst.hide]; exact hhide, hall _⟩

omit [Scalar K] in
theorem Derives.rel_put (hall : W.Total) {q : Parameter K} (h : W.Derives p)
    (hpq : p.SameDeclaration q) :
    W.Rel (modifyRegistry (·.putParameter q)) (modifyRegistry (·.putParameter q)) := by
  refine rel_modifyRegistry hall fun r hr hbase => ?_
  obtain ⟨q₀, hq₀, hpq₀⟩ := h.find hbase
  exact h.put hr hbase hq₀ hpq₀ (hpq₀.symm.trans hpq)

omit [Scalar K] in
theorem Derives.rel_close (hall : W.Total) (h : W.Derives p) :
    W.Rel (modifyRegistry (·.closeParameter p.symbol))
      (modifyRegistry (·.closeParameter p.symbol)) := by
  refine rel_modifyRegistry hall fun r hr hbase => ?_
  obtain ⟨q, hq, hpq⟩ := h.find hbase
  have hq' : (r.hide W.hidden).params.find? p.symbol = some q := hq
  simp only [closeParameter, hq, hq']
  exact h.put hr hbase hq hpq rfl

variable {L M : Lookup K} {hW : W.Lawful permits}

/-- Evaluating the definition of a parameter, and storing the values. -/
theorem Derives.rel_defineParameter (hall : W.Total) (hL : (comparison hW).Lookups L M)
    (h : W.Derives p) {e : Expr K} (he : p.definition = some e)
    (hp : (comparison hW).Allows [] p.mentions) :
    W.Rel (defineParameter L p e) (defineParameter M p e) := by
  have hempty : (comparison hW).Meets [] [] Env.empty Env.empty := ⟨rfl, rfl, Env.binds_nil _⟩
  have hsame : { p with definition := some e } = p := by rw [← he]
  rw [defineParameter_eq, defineParameter_eq, draftParameter_eq, draftParameter_eq]
  refine Rel.bind (Rel.bind (h.rel_put hall rfl) fun _ => ?_) fun _ => h.rel_close hall
  exact Comparison.fillParameter hL hempty (by rwa [hsame]) (h.rel_writing hall hW)

/-- The value of a parameter. -/
theorem rel_parameterValue (hall : W.Total) (hL : (comparison hW).Lookups L M) (idx : Index K)
    (hs : (comparison hW).Allows [] (W.base.mentionsOf (.parameter s))) :
    W.Rel (parameterValue L s idx) (parameterValue M s idx) := by
  refine Comparison.parameterValue (R := comparison hW) idx (fun hr => by rw [hr.hide]; rfl) ?_
  intro r r' p e hr hp he
  have hderives : W.Derives p := .of_find hr.keyed hr.base hp (by simp [he])
  refine hderives.rel_defineParameter hall hL he ?_
  simp only [mentionsOf, ← hr.keyed.params hp, hderives.2, Option.elim_some,
    Parameter.mentions_clear] at hs
  exact hs

/-! ## Domains -/

omit [Scalar K] in
/-- Noting something that has been computed of a range. -/
theorem rel_changeRange (hall : W.Total) {symbol : String} {f : BoundRange K → BoundRange K}
    (hf : ∀ d, (f d).forget = d.forget) :
    W.Rel (modifyRegistry (·.changeRange symbol f)) (modifyRegistry (·.changeRange symbol f)) := by
  refine rel_modifyRegistry hall fun r hr hbase => ⟨hr.changeRange fun _ => hf _, ?_, ?_⟩
  · rw [invalidate_changeRange hr fun _ => hf _, hbase]
  · simp only [changeRange, Registry.hide]
    split <;> rfl

omit [Scalar K] in
/-- Noting a member of a comprehension. -/
theorem rel_changeMembers (hall : W.Total) {symbol : String} {f : ComputedSet K → ComputedSet K}
    (hf : ∀ d, (f d).forget = d.forget) : W.Rel (modifyRegistry (·.changeMembers symbol f))
      (modifyRegistry (·.changeMembers symbol f)) := by
  refine rel_modifyRegistry hall fun r hr hbase => ⟨hr.changeMembers fun _ => hf _, ?_, ?_⟩
  · rw [invalidate_changeMembers hr fun _ => hf _, hbase]
  · simp only [changeMembers, Registry.hide]
    split <;> rfl

variable {a : Env K}

theorem memberScope_hidden (hW : W.Lawful permits) {d : ComputedSet K} {given : Option (Value K)} :
    (∃ c, memberScope d a given = .error c ∧ memberScope d (a.hide W.hidden) given = .error c) ∨
      ∃ key scope scope', memberScope d a given = .ok (key, scope) ∧
        memberScope d (a.hide W.hidden) given = .ok (key, scope') ∧
        (comparison hW).Meets a.active (d.outer.toList.map Iter.symbol) scope scope' := by
  rw [memberScope_hide]
  cases hscope : memberScope d a given with
  | error c => exact .inl ⟨c, rfl, rfl⟩
  | ok member =>
    obtain ⟨hactive, hbinds⟩ := memberScope_binds hscope
    exact .inr ⟨_, _, _, rfl, rfl, rfl, hactive, hbinds⟩

/-- The elements of a domain. -/
theorem rel_domainElements (hall : W.Total) (hL : (comparison hW).Lookups L M)
    (given : Option (Value K))
    (hs : (comparison hW).Allows a.active (W.base.mentionsOf (.domain s))) :
    W.Rel (domainElements L s a given) (domainElements M s (a.hide W.hidden) given) := by
  have hallows : ∀ {r t d}, W.Like r t → r.domain? s = some d →
      (comparison hW).Allows a.active d.mentions := fun hr hd => by
    simpa only [mentionsOf, ← hr.base, domain?_invalidate, hd, Option.map_some,
      Option.elim_some, Domain.mentions_forget] using hs
  refine Comparison.domainElements (R := comparison hW) (fun hr => by rw [hr.hide]; rfl)
    (fun hr hd => ?_) fun hr hd => ?_
  · exact Comparison.rangeElements hL ⟨rfl, rfl, Env.binds_nil _⟩ (hallows hr hd)
      (fun hr => by rw [hr.hide]; rfl) fun f hf => rel_changeRange hall hf
  · exact Comparison.memberElements hL (memberScope_hidden hW) (hallows hr hd)
      fun f hf => rel_changeMembers hall hf

/-! ## Looking up through declarations -/

omit [Scalar K] in
theorem Like.dexprs {r t : Registry K} (h : W.Like r t) : r.dexprs = W.base.dexprs := by
  rw [← h.base]
  rfl

/-- Where something may be mentioned, what its definition mentions may be mentioned one declaration
deeper. -/
def Descends (W : Regime K) (permits permits' : List String → Mention → Prop) : Prop :=
  ∀ {A x}, permits A x → x.IsOpen A →
    ∀ q ∈ W.base.mentionsOf x, permits' (x.inside A ++ q.1) q.2

theorem allowsBodies {permits' : List String → Mention → Prop} (hW : W.Lawful permits)
    (hW' : W.Lawful permits') (hdescends : W.Descends permits permits') {b : Env K}
    (hab : (comparison hW).Inside s a b) {r t : Registry K} (hr : W.Like r t)
    {d : DecisionExpression K} (hd : r.dexprs.find? s = some d) :
    (comparison hW').Allows a.active (d.body.mentions []) := by
  obtain ⟨A, hA, hs, hp⟩ := hab.entered
  have hopen : Mention.IsOpen A (.dexpr s) := fun u hu => by cases hu; exact hs
  have hbody := hdescends hp hopen
  simp only [mentionsOf, ← hr.dexprs, hd, Option.elim_some, Mention.inside, ← hA] at hbody
  exact hbody

/-- Lookups are related one declaration deeper. -/
theorem lookups_succ {permits' : List String → Mention → Prop} (hall : W.Total)
    (hW : W.Lawful permits)
    (hW' : W.Lawful permits') (hdescends : W.Descends permits permits') {n m : Nat}
    (hL : (comparison hW').Lookups (lookup n) (lookup m)) :
    (comparison hW).Lookups (lookup (n + 1)) (lookup (m + 1)) where
  parameter s idx hs := rel_parameterValue hall hL idx (hdescends hs nofun)
  elements {a b} s given hab hs := by
    cases hab
    exact rel_domainElements hall hL given (hdescends hs nofun)
  body hab hr hd := by
    refine Comparison.exprNumber hL _ ⟨hab.sees, rfl, Env.binds_nil _⟩ ?_
    exact allowsBodies hW hW' hdescends hab hr hd

end Regime

end LinearModel
