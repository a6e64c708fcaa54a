import LinearModel.Proofs.Instances
import LinearModel.Proofs.Reconstruction
import LinearModel.Proofs.Satisfaction

/-!
# Expansion keeps the meaning of constraints

A rule is expanded into one equation for each of its instances. The equation comes from the terms
of the difference of the two sides, so it is satisfied exactly if the comparison of the two sides
holds, provided that no coefficient was dropped that is not zero.
-/
namespace LinearModel

open Run Constraint LinearForm Env Rule

variable {K : Type} {α β γ : Type} {t : Registry ℚ}

/-! ## Computations side by side -/

/-- Whenever the first computation returns, the second one returns something related to it and
leaves the same store. -/
def Run.Shadows (x : Run K α) (y : Run K β) (Q : α → β → Prop) : Prop :=
  ∀ ⦃s : Store K⦄ ⦃a : α⦄ ⦃s' : Store K⦄, x.Returns s a s' → ∃ b, y.Returns s b s' ∧ Q a b

namespace Run

variable {Q : α → β → Prop}

theorem shadows_pure {a : α} {b : β} (h : Q a b) : (pure a : Run K α).Shadows (pure b) Q := by
  intro s a' s' ha
  obtain ⟨rfl, rfl⟩ := returns_pure.1 ha
  exact ⟨b, returns_pure.2 ⟨rfl, rfl⟩, h⟩

theorem Shadows.bind {α' β' : Type} {S : α' → β' → Prop} {x : Run K α} {y : Run K β}
    {f : α → Run K α'} {g : β → Run K β'} (hxy : x.Shadows y Q)
    (hfg : ∀ a b, Q a b → (f a).Shadows (g b) S) : (x >>= f).Shadows (y >>= g) S := by
  intro s c s' h
  obtain ⟨a, s₁, hx, hf⟩ := returns_bind.1 h
  obtain ⟨b, hy, hab⟩ := hxy hx
  obtain ⟨d, hg, hcd⟩ := hfg a b hab hf
  exact ⟨d, returns_bind.2 ⟨b, s₁, hy, hg⟩, hcd⟩

theorem shadows_after (x : Run K γ) {f : γ → Run K α} {g : γ → Run K β}
    (h : ∀ c, (f c).Shadows (g c) Q) : (x >>= f).Shadows (x >>= g) Q :=
  Shadows.bind (fun _ c _ hc => ⟨c, hc, rfl⟩) fun _ _ hcd => hcd ▸ h _

theorem shadows_mapM {f : γ → Run K α} {g : γ → Run K β} (h : ∀ c, (f c).Shadows (g c) Q)
    (cs : List γ) : (cs.mapM f).Shadows (cs.mapM g) (List.Forall₂ Q) := by
  induction cs with
  | nil => exact shadows_pure .nil
  | cons c cs ih =>
    simp only [List.mapM_cons]
    exact (h c).bind fun _ _ hab => ih.bind fun _ _ habs => shadows_pure (.cons hab habs)

end Run

theorem visit_shadows {Q : α → β → Prop} {f : Env K → Run K (List α)} {g : Env K → Run K (List β)}
    (h : ∀ env, (f env).Shadows (g env) (List.Forall₂ Q)) (ss : List (Stage K)) (env : Env K) :
    (Stage.visit ss f env).Shadows (Stage.visit ss g env) (List.Forall₂ Q) := by
  induction ss generalizing env with
  | nil => exact h env
  | cons s ss ih =>
    refine shadows_after _ fun vs => ?_
    refine (shadows_mapM (fun v => shadows_after _ fun passes => ?_) vs).bind
      fun _ _ hfound => shadows_pure (List.rel_flatten hfound)
    cases passes with
    | true => exact ih _
    | false => exact shadows_pure .nil

theorem enumerate_shadows [Scalar K] {Q : α → β → Prop} {f : Env K → Run K α} {g : Env K → Run K β}
    (h : ∀ env, (f env).Shadows (g env) Q) (L : Lookup K) (its : List (Iter K))
    (c : Option (Expr K)) (env : Env K) :
    (enumerate L its c env f).Shadows (enumerate L its c env g) (List.Forall₂ Q) := by
  simp only [enumerate, Stage.enumerate]
  split
  · exact fun _ _ _ hfail => absurd hfail not_returns_fail
  · refine visit_shadows (fun inner => shadows_after _ fun holds => ?_) _ _
    cases holds with
    | true => exact (h inner).bind fun _ _ hab => shadows_pure (.cons hab .nil)
    | false => exact shadows_pure .nil

section

variable [Scalar K] {Q : α → β → Prop} {f : Constraint K → Env K → Run K α}
  {g : Constraint K → Env K → Run K β}

mutual
theorem Rule.forEach_shadows (h : ∀ c env, (f c env).Shadows (g c env) Q) :
    ∀ (R : Rule K) (env : Env K), (R.forEach f env).Shadows (R.forEach g env) (List.Forall₂ Q)
  | .single c, env => by
    exact (h c env).bind fun _ _ hab => shadows_pure (.cons hab .nil)
  | .family _ its condition body, env => by
    refine shadows_after _ fun L => ?_
    exact (enumerate_shadows (fun inner => forEachOf_shadows h body inner) L its condition
      env).bind fun _ _ hfound => shadows_pure (List.rel_flatten hfound)

theorem Rule.forEachOf_shadows (h : ∀ c env, (f c env).Shadows (g c env) Q) :
    ∀ (Rs : List (Rule K)) (env : Env K),
      (forEachOf f Rs env).Shadows (forEachOf g Rs env) (List.Forall₂ Q)
  | [], env => by
    exact shadows_pure .nil
  | R :: Rs, env => by
    exact (forEach_shadows h R env).bind fun _ _ hfound =>
      (forEachOf_shadows h Rs env).bind fun _ _ hfurther =>
        shadows_pure (List.rel_append hfound hfurther)
end

end

/-! ## Derivations -/

/-- How the equation of a constraint comes about: the terms of the difference of its sides, the
registry at that point, and the coefficients that are collected, before any is dropped. -/
structure Derivation (K : Type) where
  op : RelOp
  terms : List (Term K)
  registry : Registry K
  coefficients : List (String × Expr K)

/-- How the equation of a constraint comes about under the bindings of an environment. -/
def Constraint.derive [Scalar K] (c : Constraint K) (env : Env K) : Run K (Derivation K) := do
  let _ ← c.nameIn env
  let terms ← affineTerms (.arith .sub c.lhs c.rhs) env
  let registry ← Run.registry
  let coefficients ← Run.ofExcept (collect registry terms)
  return { op := c.op, terms, registry, coefficients }

/-- The equation that a derivation leads to. -/
structure Derivation.Yields [Scalar K] (d : Derivation K) (q : Equation K) : Prop where
  relatesSides : d.op.relatesSides = true
  op : q.op = d.op
  form : ∃ f, ofTerms d.registry d.terms = .ok f ∧ q.coefficients = f.coefficients ∧
    (Expr.neg f.constant).simplify (some d.registry) = .ok q.constant

/-- Every equation comes about by a derivation. -/
theorem Constraint.expand_shadows [Scalar K] (c : Constraint K) (env : Env K) :
    (c.expand env).Shadows (c.derive env) fun p d => d.Yields p.1 := by
  intro s p s' h
  obtain ⟨name, s₁, hname, h⟩ := returns_bind.1 (returns_mapFailure.1 h)
  unfold formulate at h
  split at h
  · obtain ⟨_, _, hfail, _⟩ := returns_bind.1 h
    exact absurd hfail not_returns_fail
  · rename_i hop
    simp only [returns_bind, returns_pure, returns_registry, returns_ofExcept] at h
    obtain ⟨f, s₂, hf, r, s₃, ⟨rfl, rfl⟩, constant, s₄, ⟨hconstant, rfl⟩, rfl, rfl⟩ := h
    obtain ⟨ts, hts, hform⟩ := returns_linearize.1 hf
    obtain ⟨cs, hcs, _⟩ := bind_eq_ok.1 hform
    refine ⟨⟨c.op, ts, s₂.registry, cs⟩, ?_, by simpa using hop, rfl, f, hform, rfl, hconstant⟩
    simp only [derive, returns_bind, returns_registry, returns_ofExcept, returns_pure]
    exact ⟨name, s₁, hname, ts, s₂, hts, _, s₂, ⟨rfl, rfl⟩, cs, s₂, ⟨hcs, rfl⟩, rfl, rfl⟩

/-- The expansion of a rule, one derivation for each equation. -/
theorem Rule.equations_derived [Scalar K] {R : Rule K} {s s' : Store K} {E : List (Equation K)}
    {o : Table String (Origin K)} (h : R.equations.Returns s (E, o) s') :
    ∃ ds, (R.forEach derive empty).Returns s ds s' ∧ List.Forall₂ Derivation.Yields ds E := by
  obtain ⟨ps, s₁, hps, h⟩ := returns_bind.1 (returns_mapFailure.1 h)
  obtain ⟨hE, rfl⟩ := returns_pure.1 h
  obtain ⟨rfl, rfl⟩ := Prod.mk.inj hE
  obtain ⟨ds, hds, hyields⟩ := forEach_shadows expand_shadows R empty hps
  refine ⟨ds, hds, ?_⟩
  rw [List.forall₂_map_right_iff]
  exact hyields.flip

theorem Constraint.nameIn_ensures [Scalar K] [ReflBEq (Value K)] (c : Constraint K) (env : Env K) :
    (c.nameIn env).Ensures fun _ _ => True := by
  unfold nameIn
  split
  · exact ensures_pure fun _ => trivial
  · split
    · exact ensures_pure fun _ => trivial
    · simp only [Run.lookup, bind_assoc, pure_bind]
      refine ensures_registry fun r => ?_
      refine EnsuresFrom.bind (Simulation.exprElements (lookup_keeps _) c.labelIndex (.refl env))
        fun _ => ensures_pure fun _ _ _ _ => trivial

/-- What a derivation says of a constraint, seen from the registry that is left in the end. -/
structure Derivation.Explains (d : Derivation ℚ) (t : Registry ℚ) (g : Place ℚ) : Prop where
  op : d.op = g.1.op
  tidy : d.registry.Tidy
  kept : d.registry.KeptIn t
  collected : collect d.registry d.terms = .ok d.coefficients
  sum : ∀ {σ : Assignment} {y : ℚ}, t.WellIndexed → g.2.Fits t σ → g.1.lhs.Indexed →
    g.1.rhs.Indexed →
      ((Expr.arith .sub g.1.lhs g.1.rhs).evaluate (g.2.under σ.values)).Gives t y →
        AddUp t σ d.terms y

theorem Constraint.derive_secures (c : Constraint ℚ) (env : Env ℚ) :
    (c.derive env).Secures fun t d => d.Explains t (c, env) := by
  refine EnsuresFrom.bind (c.nameIn_ensures env).secures fun _ => ?_
  refine EnsuresFrom.bind (affineTerms_secures _ env) fun ts => ensures_registry fun r => ?_
  refine EnsuresFrom.bind (ensures_ofExcept (P := fun _ cs => collect r ts = .ok cs)
    fun _ hcs _ => hcs) fun cs => ensures_pure fun t hcs hr hrt hts _ => ?_
  refine ⟨rfl, hr, hrt, hcs, fun hbodies henv hl hr' hy => hts hbodies henv ?_ hy⟩
  exact ⟨hl, hr'⟩

/-- The equation of a derivation relates the difference of the sides to zero, if no coefficient was
dropped that is not zero. -/
theorem Derivation.Explains.isSatisfied {d : Derivation ℚ} {g : Place ℚ}
    {q : Equation ℚ} {σ : Assignment} {y : ℚ} (h : d.Explains t g)
    (hq : d.Yields q) (hzero : ∀ x ∈ droppedAmong d.coefficients, x.2 = 0)
    (hsum : AddUp t σ d.terms y) :
    (q.isSatisfied σ.values).Gives t (Equation.relates g.1.op y 0) := by
  obtain ⟨f, hf, hcoefficients, hconstant⟩ := hq.form
  obtain ⟨cs, u, v, hcs, hu, hv, rfl⟩ := hsum.form h.tidy h.kept hf
  obtain rfl : cs = d.coefficients := Except.ok.inj (hcs.symm.trans h.collected)
  rw [weigh_eq_zero hzero, sub_zero, ← hcoefficients] at hu
  have hmoved := Equation.isSatisfied_gives (h.tidy.toKeyed.kept h.kept) hu
    (hv.neg.simplify h.tidy h.kept hconstant)
  rwa [hq.op, h.op, Equation.relates_congr g.1.op (show u - -v = u + v - 0 by ring)] at hmoved

/-! ## Sides -/

/-- The numbers that the sides of a constraint evaluate to under an assignment. -/
def Constraint.sides (σ : Assignment) (c : Constraint ℚ) (env : Env ℚ) : Run ℚ (ℚ × ℚ) := do
  let x ← c.lhs.evaluate (env.under σ.values)
  let y ← c.rhs.evaluate (env.under σ.values)
  return (x, y)

/-- The numbers that the sides evaluate to at a place, seen from a registry that knows them. -/
def Place.HasSides (g : Place ℚ) (t : Registry ℚ) (σ : Assignment) (p : ℚ × ℚ) : Prop :=
  (g.1.lhs.evaluate (g.2.under σ.values)).Gives t p.1 ∧
    (g.1.rhs.evaluate (g.2.under σ.values)).Gives t p.2

theorem Constraint.sides_secures (σ : Assignment) (c : Constraint ℚ) (env : Env ℚ) :
    (c.sides σ env).Secures fun t p => Place.HasSides (c, env) t σ p := by
  refine EnsuresFrom.bind (evaluate_keeps c.lhs _).secures fun x => ?_
  refine EnsuresFrom.bind (evaluate_keeps c.rhs _).secures fun y => ?_
  exact ensures_pure fun t hy hx => ⟨hx, hy⟩

theorem Rule.Instance.states [Scalar K] {t : Registry K} {R : Rule K} {env env' : Env K}
    {c : Constraint K} (h : R.Instance t env c env') : R.States c := by
  induction h with
  | single => exact .single
  | family _ _ hr _ ih => exact .family hr ih

/-- No parameter is hidden in an instance of a rule whose iterators have other symbols. -/
theorem Rule.Instance.fits {R : Rule ℚ} {c : Constraint ℚ} {env : Env ℚ}
    (h : R.Instance t empty c env)
    (hfree : ∀ it ∈ R.iterators, t.params.contains it.symbol = false) (σ : Assignment) :
    env.Fits t σ where
  free s hs := by
    refine h.get? fun it hit hsymbol => ?_
    rw [← hsymbol, hfree it hit] at hs
    cases hs
  values n v hv := by
    rw [h.values] at hv
    cases hv

/-! ## Equations against constraints -/

/-- An equation and a comparison that come out the same under an assignment. -/
def Equation.Decides (q : Equation ℚ) (t : Registry ℚ) (σ : Assignment) (g : Place ℚ) : Prop :=
  ∃ b, (q.isSatisfied σ.values).Gives t b ∧
    ((Expr.rel g.1.op g.1.lhs g.1.rhs).evaluate (g.2.under σ.values)).Gives t (Scalar.ofBool b)

/-- There is one equation for each instance of a rule, and it decides the comparison there. -/
theorem Rule.equations_decide {R : Rule ℚ} {ds : List (Derivation ℚ)}
    {E : List (Equation ℚ)} {σ : Assignment} {ps : List (ℚ × ℚ)} (ht : t.IsSound)
    (hR : R.WellIndexed) (hfree : ∀ it ∈ R.iterators, t.params.contains it.symbol = false)
    (hds : Lists (R.places t empty) (fun g d => d.Explains t g) ds)
    (hE : List.Forall₂ Derivation.Yields ds E)
    (hsides : Lists (R.places t empty) (fun g p => g.HasSides t σ p) ps)
    (hzero : ∀ d ∈ ds, ∀ x ∈ droppedAmong d.coefficients, x.2 = 0) :
    Lists (R.places t empty) (fun g q => q.Decides t σ g) E := by
  refine (hds.trans ((List.forall₂_and_left ds E).2 ⟨hzero, hE⟩)).imp fun g q hg hq => ?_
  obtain ⟨d, hd, hdropped, hq⟩ := hq
  obtain ⟨⟨x, y⟩, _, hx, hy⟩ := hsides.exists_mem hg
  obtain ⟨hl, hr⟩ := hR g.1 (Instance.states hg)
  have hfits := Instance.fits hg hfree σ
  have hsum := hd.sum ht.wellIndexed hfits hl hr (Expr.sub_evaluate ht.toKeyed hx hy)
  have hsatisfied := hd.isSatisfied hq hdropped hsum
  rw [Equation.relates_congr g.1.op (sub_zero (x - y))] at hsatisfied
  exact ⟨_, hsatisfied, Expr.rel_evaluate (hd.op ▸ hq.relatesSides) ht.toKeyed hx hy⟩

/-- A rule that was read is expanded, and the sides of its constraints are then evaluated under an
assignment. If no iterator hides a parameter and no coefficient other than zero was dropped, every
equation is satisfied or not, and all of them are satisfied exactly if the comparison of the sides
holds in every instance of the rule. -/
theorem equations_satisfied_iff {s₀ s₀' s s₁ s₂ : Store ℚ} {textual : Bool} {text : String}
    {R : Rule ℚ} {E : List (Equation ℚ)} {o : Table String (Origin ℚ)} {σ : Assignment}
    {ps : List (ℚ × ℚ)} (hs₀ : s₀.registry.Reached)
    (hread : (parseStatement textual text).Returns s₀ (.rule R) s₀') (hs : s.registry.Reached)
    (hfree : ∀ it ∈ R.iterators, s.registry.params.contains it.symbol = false)
    (hE : (Statement.rule R).equations.Returns s (E, o) s₁)
    (hsides : (R.forEach (sides σ) empty).Returns s₁ ps s₂) :
    ∃ ds, (R.forEach derive empty).Returns s ds s₁ ∧
      ((∀ d ∈ ds, ∀ x ∈ droppedAmong d.coefficients, x.2 = 0) →
        (∀ q ∈ E, ∃ b, (q.isSatisfied σ.values).Gives s₂.registry b) ∧
        ((∀ q ∈ E, (q.isSatisfied σ.values).Gives s₂.registry true) ↔
          ∀ c env, R.Instance s₂.registry empty c env →
            ((Expr.rel c.op c.lhs c.rhs).evaluate (env.under σ.values)).Gives s₂.registry 1)) := by
  have hsound := hs.isSound
  have hR : R.WellIndexed := (parseStatement_settles hs₀.isSound hread).2
  obtain ⟨ds, hds, hyields⟩ := equations_derived hE
  obtain ⟨hkept₁, hexplains⟩ := forEach_secures (P := fun t g d => d.Explains t g)
    derive_secures R empty hsound.toTidy hds
  obtain ⟨hkept₂, hps⟩ := forEach_secures (P := fun t g p => g.HasSides t σ p)
    (sides_secures σ) R empty (hsound.toTidy.kept hkept₁) hsides
  have hkept := hkept₁.trans hkept₂
  refine ⟨ds, hds, fun hzero => ?_⟩
  have hfree' : ∀ it ∈ R.iterators, s₂.registry.params.contains it.symbol = false := by
    intro it hit
    rw [← hkept.params.contains]
    exact hfree it hit
  have hdecide := equations_decide (hsound.kept hkept) hR hfree' (hexplains hkept₂) hyields
    (hps (.refl _)) hzero
  refine ⟨fun q hq => ?_, fun hall c env hinstance => ?_, fun hall q hq => ?_⟩
  · obtain ⟨g, _, b, hb, _⟩ := hdecide.exists_of_mem hq
    exact ⟨b, hb⟩
  · obtain ⟨q, hq, b, hb, hrel⟩ := hdecide.exists_mem (g := (c, env)) hinstance
    obtain rfl := hb.unique (hall q hq)
    exact hrel
  · obtain ⟨g, hg, b, hb, hrel⟩ := hdecide.exists_of_mem hq
    have hone := hrel.unique (hall g.1 g.2 hg)
    cases b with
    | true => exact hb
    | false => simp [Scalar.ofBool] at hone

/-- A parameter, a range, a family of variables, and a family of constraints with a filter. -/
def sharedBounds : Run ℚ (Statement ℚ) := do
  let _ ← parseStatement false "float p = 3;"
  let _ ← parseStatement false "range I = 1..3;"
  let _ ← parseStatement false "dvar float x[I];"
  parseStatement false "forall(i in I : i > 1) c: p * x[i] + sum(j in I) x[j] <= i + 4;"

/-- An assignment to the three variables. -/
def sharedValues : Assignment := .ofNumbers [("x1", 1), ("x2", 2), ("x3", 1 / 2)]

/-- The rule that a statement states, if it states one. -/
def ruleOf : Statement ℚ → Run ℚ (Rule ℚ)
  | .rule R => pure R
  | _ => Run.fail .endless

theorem equations_satisfied_iff_sharedBounds :
    ∃ (s s₁ s₂ : Store ℚ) (R : Rule ℚ) (E : List (Equation ℚ)) (o : Table String (Origin ℚ)),
      s.registry.Reached ∧ (Statement.rule R).equations.Returns s (E, o) s₁ ∧ E.length = 2 ∧
      ((∀ q ∈ E, (q.isSatisfied sharedValues.values).Gives s₂.registry true) ↔
        ∀ c env, R.Instance s₂.registry empty c env →
          ((Expr.rel c.op c.lhs c.rhs).evaluate (env.under sharedValues.values)).Gives
            s₂.registry 1) := by
  have hrun : (((do
      let stmt ← sharedBounds
      let r ← Run.registry
      let R ← ruleOf stmt
      let p ← (Statement.rule R).equations
      let _ ← R.forEach (sides sharedValues) empty
      return (p.1.length, R.iterators.all fun it => !r.params.contains it.symbol)) :
        Run ℚ (Nat × Bool)).start {}).1.toOption = some (2, true) := by
    decide +kernel
  have hderive : (((do
      let stmt ← sharedBounds
      let R ← ruleOf stmt
      let ds ← R.forEach derive empty
      return ds.all fun d => (droppedAmong d.coefficients).all (·.2 == 0)) :
        Run ℚ Bool).start {}).1.toOption = some true := by
    decide +kernel
  obtain ⟨s₂, h⟩ := returns_of_toOption hrun
  obtain ⟨stmt, s, hstmt, h⟩ := returns_bind.1 h
  replace h := returns_registry_bind.1 h
  obtain ⟨R, _, hR, h⟩ := returns_bind.1 h
  cases stmt with
  | rule R' =>
    obtain ⟨rfl, rfl⟩ := returns_pure.1 hR
    obtain ⟨⟨E, o⟩, s₁, hE, h⟩ := returns_bind.1 h
    obtain ⟨ps, s₂', hsides, h⟩ := returns_bind.1 h
    obtain ⟨hout, rfl⟩ := returns_pure.1 h
    obtain ⟨hlength, hfree⟩ := Prod.mk.inj hout
    obtain ⟨_, h'⟩ := returns_of_toOption hderive
    obtain ⟨_, _, hstmt', h'⟩ := returns_bind.1 h'
    obtain ⟨rfl, rfl⟩ := hstmt.unique hstmt'
    obtain ⟨_, _, hR', h'⟩ := returns_bind.1 h'
    obtain ⟨rfl, rfl⟩ := returns_pure.1 hR'
    obtain ⟨ds, _, hds, h'⟩ := returns_bind.1 h'
    have hzero := (returns_pure.1 h').1
    simp only [sharedBounds, returns_bind] at hstmt
    obtain ⟨_, _, hp, _, _, hI, _, s₀, hx, hread⟩ := hstmt
    have hs₀ : s₀.registry.Reached := .read (.read (.read .empty hp) hI) hx
    have hs := hs₀.read hread
    obtain ⟨ds', hds', hiff⟩ := equations_satisfied_iff hs₀ hread hs (by simpa using hfree) hE
      hsides
    obtain ⟨rfl, _⟩ := hds.unique hds'
    exact ⟨_, s₁, s₂', _, E, o, hs, hE, hlength, (hiff (by simpa using hzero)).2⟩
  | _ => exact absurd hR not_returns_fail

end LinearModel
