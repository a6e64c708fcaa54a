import LinearModel.Proofs.Regime

/-!
# Linearization under a regime

Linearization substitutes, and then goes through an expression and through the decision expressions
in it, down to a certain depth. A regime that holds of evaluation holds of linearization as well,
where the depth is enough for the decision expressions that are not being looked into yet.
-/
namespace LinearModel

open Run Expr LinearForm Comparison

variable {K : Type} {α : Type} [Scalar K]

section Simplification

variable {r t : Registry K}

mutual
/-- Simplification looks at parameters, and at nothing else in a registry. -/
theorem Expr.simplify_congr (h : ∀ s, r.params.find? s = t.params.find? s) :
    ∀ e : Expr K, e.simplify (some r) = e.simplify (some t)
  | .num _ | .str _ | .record _ _ | .var _ _ _ | .dexpr _ none | .sum _ _ none
  | .sum _ _ (some _) => by simp only [simplify]
  | .name s => by simp only [simplify, foldName, Option.bind_some, h]
  | .param s es => by
    simp only [simplify, simplifyAll_congr h es, foldParam, Option.bind_some, h]
  | .ivar _ es | .item _ es | .logic _ es => by
    simp only [simplify, simplifyAll_congr h es]
  | .dexpr _ (some e) | .neg e | .field e _ => by
    simp only [simplify, simplify_congr h e]
  | .arith _ a b | .rel _ a b => by
    simp only [simplify, simplify_congr h a, simplify_congr h b]

theorem Expr.simplifyAll_congr (h : ∀ s, r.params.find? s = t.params.find? s) :
    ∀ es : List (Expr K), simplifyAll (some r) es = simplifyAll (some t) es
  | [] => by simp only [simplifyAll]
  | e :: es => by
    simp only [simplifyAll, simplify_congr h e, simplifyAll_congr h es]
end

theorem LinearForm.ofTerms_congr (h : ∀ s, r.params.find? s = t.params.find? s)
    (ts : List (Term K)) : ofTerms r ts = ofTerms t ts := by
  simp only [ofTerms, collect, simplify_congr h]

end Simplification

theorem Expr.simplify_hide (r : Registry K) (h : String → Bool) (e : Expr K) :
    e.simplify (some (r.hide h)) = e.simplify (some r) :=
  simplify_congr (r := r.hide h) (t := r) (fun _ => rfl) e

theorem LinearForm.ofTerms_hide (r : Registry K) (h : String → Bool) (ts : List (Term K)) :
    ofTerms (r.hide h) ts = ofTerms r ts :=
  ofTerms_congr (r := r.hide h) (t := r) (fun _ => rfl) ts

omit [Scalar K] in
theorem Registry.size_invalidate (r : Registry K) : r.invalidate.size = r.size := by
  simp [Registry.size, Registry.invalidate, Table.size, Table.map]

/-! ## Linear forms -/

namespace Comparison

variable {R : Comparison K}

/-- A comparison of evaluation with itself that sees alike which values parameters have and which
decision expressions are declared. -/
structure Folds (R : Comparison K) : Prop extends R.Follows where
  folding : ∀ {α : Type} {g : Registry K → Except (Cause K) α},
    (∀ {r t : Registry K}, (∀ s, r.params.find? s = t.params.find? s) → r.dexprs = t.dexprs →
      g r = g t) → (∀ r, Plain (g r)) →
    R.rel (do Run.ofExcept (g (← Run.registry))) (do Run.ofExcept (g (← Run.registry)))
  leftover : ∀ e, R.rel (fail (.sumNotFlattened e) : Run K (List (Term K)))
    (fail (.sumNotFlattened e))
  endless : ∀ {α : Type}, R.rel (fail .endless : Run K α) (fail .endless)
  noting : ∀ {α : Type} {f : Failure K → Failure K} {x : Run K α},
    (∀ e, (f e).cause = e.cause) → R.rel x x → R.rel (mapFailure f x) (mapFailure f x)

namespace Folds

variable (h : R.Folds)

include h

/-- What is read off a registry is the same, and so is what is made of it. -/
theorem folded {β : Type} {g : Registry K → Except (Cause K) α}
    (hg : ∀ {r t : Registry K}, (∀ s, r.params.find? s = t.params.find? s) →
      r.dexprs = t.dexprs → g r = g t)
    (hplain : ∀ r, Plain (g r)) {k : α → Run K β} (hk : ∀ a, R.rel (k a) (k a)) :
    R.rel (do k (← Run.ofExcept (g (← Run.registry))))
      (do k (← Run.ofExcept (g (← Run.registry)))) := by
  simpa only [bind_assoc] using R.seq (h.folding hg hplain) hk

theorem simplified (e : Expr K) {k : Expr K → Run K α} (hk : ∀ e', R.rel (k e') (k e')) :
    R.rel (do k (← Run.ofExcept (e.simplify (some (← Run.registry)))))
      (do k (← Run.ofExcept (e.simplify (some (← Run.registry))))) :=
  h.folded (fun hparams _ => simplify_congr hparams e) (fun r => Plain.simplify (some r) e) hk

theorem scale (op : ArithOp) (factor e : Expr K) : R.rel (scale op factor e) (scale op factor e) :=
  h.folding (fun hparams _ => simplify_congr hparams _) fun r => Plain.simplify (some r) _

theorem splits (n k : Nat) : R.Splits (lookup n) (lookup n) (descent (lookup n) k)
    (descent (lookup n) k) := by
  have hspawns : ∀ {a b : Env K}, R.sees a b → R.sees a.spawn b.spawn := fun hab =>
    h.sees.2 (by rw [h.sees.1 hab])
  induction k with
  | zero =>
    exact ⟨⟨h.lookups n, .inr h.permits, fun _ _ _ => h.allows _ _, fun _ _ => h.permits _ _,
      fun _ _ _ _ _ _ _ => h.endless⟩, fun _ _ _ _ _ _ _ _ => h.endless, h.scale, h.leftover,
      hspawns⟩
  | succ k ih =>
    refine ⟨⟨h.lookups n, .inr h.permits, fun _ _ _ => h.allows _ _, fun _ _ => h.permits _ _,
      fun e _ a b hab _ _ => ?_⟩, fun e f _ a b hab _ _ => ?_, h.scale, h.leftover, hspawns⟩ <;>
      rw [h.sees.1 hab.sees]
    · exact exprIsConstantLike ih.toClassifies e (h.meets a) (h.allows _ _)
    · exact exprTerms ih (h.meets a) e f (h.allows _ _)

theorem affineTerms (e : Expr K) (env : Env K) : R.rel (affineTerms e env) (affineTerms e env) := by
  refine h.looking fun n => R.seq (exprSubstitute (h.lookups n) (.inr h.permits) e (h.meets env)
    (h.allows _ _)) fun e' => ?_
  exact h.folded (g := fun r => .ok r.dexprs.size) (fun _ hdexprs => by rw [hdexprs])
    (fun _ _ hc => by cases hc)
    (k := fun k => e'.terms (lookup n) (descent (lookup n) (k + 1)) (.num Scalar.one) env)
    fun k => exprTerms (h.splits n (k + 1)) (h.meets env) e' _ (h.allows _ _)

theorem linearize (e : Expr K) (env : Env K) : R.rel (linearize e env) (linearize e env) :=
  R.seq (h.affineTerms e env) fun ts =>
    h.folding (fun hparams _ => ofTerms_congr hparams ts) fun r => Plain.ofTerms r ts

theorem formulate (lhs rhs : Expr K) (op : RelOp) (env : Env K) (name : EquationName K) :
    R.rel (formulate lhs op rhs env name) (formulate lhs op rhs env name) := by
  unfold LinearModel.formulate
  split
  · refine R.seq (R.failure _ rfl) fun _ => R.seq (h.linearize _ env) fun _ => ?_
    exact h.simplified _ fun _ => R.ret _
  · exact R.seq (h.linearize _ env) fun _ => h.simplified _ fun _ => R.ret _

theorem expand (c : Constraint K) (env : Env K) : R.rel (c.expand env) (c.expand env) :=
  h.noting (Failure.cause_withBindings _)
    (R.seq (h.nameIn c env) fun name => h.formulate c.lhs c.rhs c.op env name)

theorem equations (r : Rule K) : R.rel r.equations r.equations :=
  h.noting (Failure.cause_inStatement _)
    (R.seq (h.forEach h.expand r Env.empty) fun _ => R.ret _)

theorem objective (g : Goal K) : R.rel g.objective g.objective :=
  h.noting (Failure.cause_inStatement _) (R.seq (h.linearize g.body Env.empty) fun _ => R.ret _)

end Folds

end Comparison

namespace Regime

variable {W : Regime K} {permits permits' : List String → Mention → Prop} {L M : Lookup K}
  {a b : Env K} {A bound : List String}

omit [Scalar K] in
theorem Lawful.mono (hW : W.Lawful permits) (h : ∀ {A x}, permits' A x → permits A x) :
    W.Lawful permits' where
  plain := hW.plain
  leftover := hW.leftover
  visible hp := hW.visible (h hp)
  undeclared hp := hW.undeclared (h hp)
  cyclic hp := hW.cyclic (h hp)

theorem lookups_mono {hW : W.Lawful permits} (hL : (comparison hW).Lookups L M)
    (h : ∀ {A x}, permits' A x → permits A x) : (comparison (hW.mono h)).Lookups L M where
  parameter s idx hs := hL.parameter s idx (h hs)
  elements s given hab hs := hL.elements s given hab (h hs)
  body hab hr hd := by
    obtain ⟨A, hA, hs, hp⟩ := hab.entered
    exact hL.body ⟨hab.sees, A, hA, hs, h hp⟩ hr hd

/-- A regime of evaluation, and the depths that are enough for the two evaluations where some
decision expressions are looked into. Both run out of depth together, and only where this is no
matter. -/
structure Deep (W : Regime K) (permits : List String → Mention → Prop)
    (enough : Nat → Nat → List String → Prop) (L M : Lookup K) : Prop where
  lawful : W.Lawful permits
  lookups : (comparison lawful).Lookups L M
  descends : W.Descends permits permits
  params : ∀ A s, permits A (.parameter s)
  within : ∀ {k l A} B, enough k l A → enough k l (A ++ B)
  inside : ∀ {k l A s}, enough (k + 1) (l + 1) A → s ∉ A → W.base.dexprs.contains s = true →
    enough k l (A ++ [s])
  together : ∀ {k l A}, enough k l A → (k = 0 ↔ l = 0)
  ends : ∀ {A}, enough 0 0 A → ¬ W.barred .endless

namespace Deep

variable {enough : Nat → Nat → List String → Prop} (h : W.Deep permits enough L M)

/-- What may be mentioned, decision expressions only where a depth is enough. -/
def Permits (permits : List String → Mention → Prop) (enough : Nat → Nat → List String → Prop)
    (k l : Nat) (A : List String) (x : Mention) : Prop :=
  permits A x ∧ ∀ s, x = .dexpr s → enough k l A

include h

theorem lawfulAt (k l : Nat) : W.Lawful (Permits permits enough k l) := h.lawful.mono And.left

theorem allows_at {k l : Nat} (hk : enough k l A) {qs : List Site}
    (hqs : (comparison h.lawful).Allows A qs) : (comparison (h.lawfulAt k l)).Allows A qs :=
  fun q hq => ⟨hqs q hq, fun _ _ => h.within q.1 hk⟩

theorem enough_inside {s : String} {k l : Nat} (hab : (comparison h.lawful).Inside s a b)
    (hs : (comparison h.lawful).Declares s)
    (hk : ∀ A, a.active = A ++ [s] → enough (k + 1) (l + 1) A) :
    enough k l a.active := by
  obtain ⟨A, hA, hs', -⟩ := hab.entered
  obtain ⟨r, t, d, hr, hd⟩ := hs
  rw [hA]
  refine h.inside (hk A hA) hs' ?_
  rw [← Like.dexprs hr, Table.contains, hd]
  rfl

theorem scale (op : ArithOp) (f e : Expr K) : W.Rel (scale op f e) (scale op f e) := by
  refine rel_registry fun r t hr => ?_
  rw [hr.hide, simplify_hide]
  exact rel_ofExcept fun c hc => h.lawful.plain (Plain.simplify _ _ c hc)

/-- How bodies are treated at some depth, where it is enough. -/
def Reaches (k l : Nat) (F G : Expr K → Env K → Run K α) : Prop :=
  ∀ (e : Expr K) {A : List String} {a b : Env K}, enough k l A →
    (comparison h.lawful).Meets A [] a b → (comparison h.lawful).Allows A (e.mentions []) →
      W.Rel (F e a) (G e b)

/-- What is reached at some depth is reached inside a decision expression that is looked into one
level above. -/
theorem Reaches.inside {k l : Nat} {F G : Expr K → Env K → Run K α} (hFG : h.Reaches k l F G)
    (e : Expr K) {s : String} (hab : (comparison (h.lawfulAt (k + 1) (l + 1))).Inside s a b)
    (hs : (comparison (h.lawfulAt (k + 1) (l + 1))).Declares s)
    (he : (comparison (h.lawfulAt (k + 1) (l + 1))).Allows a.active (e.mentions [])) :
    W.Rel (F e a) (G e b) := by
  obtain ⟨A, hA, hs', hp⟩ := hab.entered
  refine hFG e (h.enough_inside ⟨hab.sees, A, hA, hs', hp.1⟩ hs fun A' hA' => ?_)
    ⟨hab.sees, rfl, Env.binds_nil _⟩ fun q hq => (he q hq).1
  obtain rfl := List.append_cancel_right (hA.symm.trans hA')
  exact hp.2 s rfl

/-- Splitting, if bodies are treated alike one level deeper. -/
theorem splits {k l : Nat}
    (hconstant : h.Reaches k l (descent L k).isConstant (descent M l).isConstant)
    (hterms : ∀ f, h.Reaches k l (fun e => (descent L k).terms e f)
      fun e => (descent M l).terms e f) :
    (comparison (h.lawfulAt (k + 1) (l + 1))).Splits L M (descent L k) (descent M l) where
  lookups := lookups_mono h.lookups And.left
  reliable := .inl (reliable _)
  bodies hab hr hd := by
    obtain ⟨A, hA, hs, hp⟩ := hab.entered
    rw [hA]
    refine h.allows_at (h.within _ (hp.2 _ rfl)) ?_
    rw [← hA]
    exact allowsBodies h.lawful h.lawful h.descends ⟨hab.sees, A, hA, hs, hp.1⟩ hr hd
  params A s := ⟨h.params A s, nofun⟩
  below e _ _ _ := hconstant.inside h e
  terms e f _ _ _ := (hterms f).inside h e
  scale := h.scale
  leftover e := rel_fail (h.lawful.leftover e)
  spawns {a b} hab := by
    rw [show b = a.hide W.hidden from hab]
    rfl

theorem reaches (k l : Nat) : h.Reaches k l (descent L k).isConstant (descent M l).isConstant ∧
      ∀ f, h.Reaches k l (fun e => (descent L k).terms e f) fun e => (descent M l).terms e f := by
  induction k generalizing l with
  | zero =>
    refine ⟨fun e A a b hk _ _ => ?_, fun f e A a b hk _ _ => ?_⟩ <;>
      obtain rfl := (h.together hk).1 rfl <;> exact rel_fail (h.ends hk)
  | succ k ih =>
    refine ⟨fun e A a b hk hab he => ?_, fun f e A a b hk hab he => ?_⟩ <;>
      obtain _ | l := l
    · exact absurd ((h.together hk).2 rfl) (Nat.succ_ne_zero k)
    · exact exprIsConstantLike (h.splits (ih l).1 (ih l).2).toClassifies e
        ⟨hab.sees, hab.active, hab.binds⟩ (h.allows_at hk he)
    · exact absurd ((h.together hk).2 rfl) (Nat.succ_ne_zero k)
    · exact exprTerms (h.splits (ih l).1 (ih l).2)
        ⟨hab.sees, hab.active, hab.binds⟩ e f (h.allows_at hk he)

theorem isConstant (k l : Nat) (e : Expr K) (hk : enough k l A)
    (hab : (comparison h.lawful).Meets A [] a b)
    (he : (comparison h.lawful).Allows A (e.mentions [])) :
    W.Rel ((descent L k).isConstant e a) ((descent M l).isConstant e b) :=
  (h.reaches k l).1 e hk hab he

theorem terms (k l : Nat) (e factor : Expr K) (hk : enough k l A)
    (hab : (comparison h.lawful).Meets A [] a b)
    (he : (comparison h.lawful).Allows A (e.mentions [])) :
    W.Rel ((descent L k).terms e factor a) ((descent M l).terms e factor b) :=
  (h.reaches k l).2 factor e hk hab he

end Deep

/-! ## Linear forms -/

omit [Scalar K] in
theorem Like.hidden {r t : Registry K} (h : W.Like r t) : t.invalidate = W.base.hide W.hidden := by
  rw [h.hide, ← h.base]
  rfl

theorem Like.lookup {r t : Registry K} (h : W.Like r t) :
    r.lookup = W.base.lookup ∧ t.lookup = (W.base.hide W.hidden).lookup := by
  simp only [Registry.lookup, ← Registry.size_invalidate r, ← Registry.size_invalidate t, h.base,
    h.hidden, and_self]

section Forms

variable {enough : Nat → Nat → List String → Prop}
  (h : W.Deep permits enough W.base.lookup (W.base.hide W.hidden).lookup)

include h

theorem Deep.affineTerms (e : Expr K)
    (hk : enough (W.base.dexprs.size + 2) ((W.base.hide W.hidden).dexprs.size + 2) A)
    (hab : (comparison h.lawful).Meets A bound a b)
    (he : (comparison h.lawful).Allows A (e.mentions bound)) :
    W.Rel (affineTerms e a) (affineTerms e b) := by
  simp only [LinearModel.affineTerms, Run.lookup, bind_assoc, pure_bind]
  refine rel_registry fun r t hr => ?_
  rw [hr.lookup.1, hr.lookup.2]
  refine Rel.bindOf (exprSubstitute h.lookups (.inl (reliable _)) e hab he)
    (mentions_substitute _ e hab.binds) fun f hf => ?_
  refine rel_registry fun r t hr => ?_
  have ht : t.dexprs = (W.base.hide W.hidden).dexprs := by
    rw [← hr.hidden]
    rfl
  rw [hr.dexprs, ht]
  have hmeets := hab.of_subset (List.nil_subset _)
  exact exprTerms (h.splits (h.reaches _ _).1 (h.reaches _ _).2)
    ⟨hmeets.sees, hmeets.active, hmeets.binds⟩ f _ (h.allows_at hk fun q hq => he q (hf hq))

omit h in
/-- Gathering terms. -/
theorem rel_ofTerms (hW : W.Lawful permits) (ts : List (Term K)) :
    W.Rel (do Run.ofExcept (ofTerms (← Run.registry) ts))
      (do Run.ofExcept (ofTerms (← Run.registry) ts)) := by
  refine rel_registry fun r t hr => ?_
  rw [hr.hide, ofTerms_hide]
  exact rel_ofExcept fun c hc => hW.plain (Plain.ofTerms r ts c hc)

/-- The linear form of an expression. -/
theorem Deep.linearize (e : Expr K)
    (hk : enough (W.base.dexprs.size + 2) ((W.base.hide W.hidden).dexprs.size + 2) A)
    (hab : (comparison h.lawful).Meets A bound a b)
    (he : (comparison h.lawful).Allows A (e.mentions bound)) :
    W.Rel (linearize e a) (linearize e b) :=
  Rel.bind (h.affineTerms e hk hab he) fun ts => rel_ofTerms h.lawful ts

end Forms

/-! ## One evaluation -/

/-- Lookups are related at any depth, if what is mentioned may be mentioned anywhere. -/
theorem lookups_all (hall : W.Total) (hW : W.Lawful permits)
    (hdescends : W.Descends permits permits)
    (hendless : ¬ W.barred .endless) (n : Nat) : (comparison hW).Lookups (lookup n) (lookup n) := by
  induction n with
  | zero => exact ⟨fun _ _ _ => rel_fail hendless, fun _ _ _ _ => rel_fail hendless,
      fun _ _ _ => rel_fail hendless⟩
  | succ n ih => exact lookups_succ hall hW hW hdescends ih

/-- A regime that follows one evaluation, to any depth. -/
structure Single (W : Regime K) (permits : List String → Mention → Prop) : Prop where
  whole : W.hidden = fun _ => false
  lawful : W.Lawful permits
  descends : W.Descends permits permits
  params : ∀ A s, permits A (.parameter s)
  endless : ¬ W.barred .endless
  lookups : ∀ n, (comparison lawful).Lookups (lookup n) (lookup n)

namespace Single

variable (h : W.Single permits)

include h

theorem deep (n : Nat) :
    W.Deep permits (fun k l _ => k = l) (LinearModel.lookup n) (LinearModel.lookup n) where
  lawful := h.lawful
  lookups := h.lookups n
  descends := h.descends
  params := h.params
  within _ hk := hk
  inside hk _ _ := Nat.succ.inj hk
  together hk := by rw [hk]
  ends _ := h.endless

theorem rest_eq : W.base.hide W.hidden = W.base := by
  rw [h.whole, Registry.hide_nothing]

theorem meets (a : Env K) : (comparison h.lawful).Meets a.active [] a a := by
  refine ⟨?_, rfl, Env.binds_nil _⟩
  change a = a.hide W.hidden
  rw [h.whole, Env.hide_nothing]

/-- Looking something up through the registry at hand. -/
theorem looking {f : Lookup K → Run K α} (hf : ∀ n, W.Rel (f (lookup n)) (f (lookup n))) :
    W.Rel (Run.lookup >>= f) (Run.lookup >>= f) := by
  simp only [Run.lookup, bind_assoc, pure_bind]
  refine rel_registry fun r t hr => ?_
  rw [hr.lookup.1, hr.lookup.2, h.rest_eq]
  exact hf _

variable (e : Expr K) (he : (comparison h.lawful).Allows a.active (e.mentions []))

include he

theorem value (n : Nat) : W.Rel (e.value (lookup n) a) (e.value (lookup n) a) :=
  exprValue (h.deep n).lookups e (h.meets a) he

theorem evaluateValue : W.Rel (e.evaluateValue a) (e.evaluateValue a) :=
  h.looking (h.value e he)

theorem evaluate : W.Rel (e.evaluate a) (e.evaluate a) :=
  h.looking fun n => asNumber (R := comparison h.lawful) e (h.value e he n)

theorem linearize : W.Rel (linearize e a) (linearize e a) := by
  have hdeep := h.deep (W.base.size + familyDepth)
  have hrest : (W.base.hide W.hidden).lookup = LinearModel.lookup (W.base.size + familyDepth) := by
    rw [h.rest_eq]
    rfl
  have hsize : W.base.dexprs.size + 2 = (W.base.hide W.hidden).dexprs.size + 2 := by rw [h.rest_eq]
  have hdeep' : W.Deep permits (fun k l _ => k = l) W.base.lookup
      (W.base.hide W.hidden).lookup := by
    rw [hrest]
    exact hdeep
  exact hdeep'.linearize e hsize (h.meets a) he

end Single

end Regime

/-! ## What is declared -/

/-- A state of a registry: it declares the same, and may have computed something else. -/
structure Registry.IsStateOf (t r : Registry K) : Prop where
  keyed : t.Keyed
  same : t.invalidate = r.invalidate

/-- Evaluation in the states of a registry, which may fail in any way. -/
def Registry.unrestricted (r : Registry K) : Regime K where
  base := r.invalidate
  hidden _ := false
  excused _ := False
  barred _ := False

omit [Scalar K] in
theorem Regime.Rel.maintains {r : Registry K} {x : Run K α} (h : r.unrestricted.Rel x x) :
    Maintains (·.IsStateOf r) x := by
  intro s hs
  have hlike : r.unrestricted.Like s.registry s.registry :=
    ⟨hs.keyed, hs.same, (Registry.hide_nothing _).symm, trivial⟩
  obtain ⟨_, _, _, hfalse⟩ | ⟨_, _, _, hfalse⟩ | ⟨a, s', _, hx, _, hlike'⟩ := (h hlike).1
  · exact hfalse.elim
  · exact hfalse.elim
  · rw [hx]
    exact ⟨hlike'.keyed, hlike'.base⟩

theorem Registry.single_unrestricted (r : Registry K) : r.unrestricted.Single fun _ _ => True := by
  have hlawful : r.unrestricted.Lawful fun _ _ => True :=
    { plain := fun _ h => h
      leftover := fun _ h => h
      visible := fun _ _ => rfl
      undeclared := fun _ _ h => h
      cyclic := fun _ _ _ => ⟨fun h => h, .inr rfl⟩ }
  have hdescends : r.unrestricted.Descends (fun _ _ => True) fun _ _ => True :=
    fun _ _ _ _ => trivial
  exact
    { whole := rfl
      lawful := hlawful
      descends := hdescends
      params := fun _ _ => trivial
      endless := fun h => h
      lookups := Regime.lookups_all (fun _ => trivial) hlawful hdescends fun h => h }

end LinearModel
