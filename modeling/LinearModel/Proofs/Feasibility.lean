import LinearModel.Proofs.Columns
import LinearModel.Proofs.Satisfaction
import LinearModel.Matrix

/-!
# Feasibility

The matrix form holds the numbers that coefficients, constants and bounds evaluate to. A row lists a
coefficient for every column, so its product with a point is what the few coefficients of the
equation add up to. A row is broken by a point exactly if the equation is not satisfied.
-/
namespace LinearModel

open Run MatrixForm Equation

variable {K : Type} [Scalar K]

/-! ## What the matrix form is made of -/

namespace Simulation

variable {R : Simulation K}

/-- A relation that relates each evaluation to itself does so for linear forms. -/
theorem evaluateForm (h : ∀ e : Expr K, R.rel (e.evaluate Env.empty) (e.evaluate Env.empty))
    (coefficients : Table String (Expr K)) (constant : Expr K) :
    R.rel (evaluateForm coefficients constant) (evaluateForm coefficients constant) := by
  refine R.seq (mapM _ fun e => ?_) fun cs => R.seq (h constant) fun c => R.ret _
  exact R.seq (h e.2) fun x => R.ret _

/-- A relation that relates each evaluation to itself does so for the bounds of variables. -/
theorem bounds (h : ∀ e : Expr K, R.rel (e.evaluate Env.empty) (e.evaluate Env.empty))
    (v : Variable K) : R.rel v.bounds v.bounds := by
  simp only [Variable.bounds, pure_bind]
  rcases v.lower with _ | l <;> rcases v.upper with _ | u
  · exact R.ret _
  · exact R.seq (h u) fun _ => R.ret _
  · exact R.seq (h l) fun _ => R.ret _
  · exact R.seq (h l) fun _ => R.seq (h u) fun _ => R.ret _

end Simulation

namespace MatrixForm

/-- The numbers that a matrix form is made of, and where they were computed. -/
theorem returns_ofProblem {p : Problem K} {s s' : Store K} {m : MatrixForm K}
    (h : (ofProblem p).Returns s m s') : p.isBuilt = true ∧ ∃ values objective bounds s₁ s₂,
      (p.model.equations.mapM evaluate).Returns s values s₁ ∧
      (objectiveOf p.model.variableNames p.model.objective).Returns s₁ objective s₂ ∧
      (p.model.variableNames.mapM (boundsOf p)).Returns s₂ bounds s' ∧ m = {
        columns := p.model.variableNames
        rows := p.model.equations.map (·.identifier)
        coefficients := values.map fun v => denseRow p.model.variableNames v.1
        constants := values.map (·.2)
        relations := p.model.equations.map (·.op)
        objective := objective.1
        objectiveConstant := objective.2
        lower := bounds.map (·.1)
        upper := bounds.map (·.2)
        isMaximized := p.model.objective.any (·.sense == .maximize) } := by
  simp only [ofProblem] at h
  split at h
  · obtain ⟨_, _, hfail, _⟩ := returns_bind.1 h
    exact absurd hfail not_returns_fail
  · rename_i hbuilt
    obtain ⟨values, s₁, hvalues, h⟩ := returns_bind.1 h
    obtain ⟨objective, s₂, hobjective, h⟩ := returns_bind.1 h
    obtain ⟨bounds, hbounds, rfl⟩ := returns_bind_pure.1 h
    exact ⟨by simpa using hbuilt, values, objective, bounds, s₁, s₂, hvalues, hobjective, hbounds,
      rfl⟩

/-- What a matrix form lists, seen from a registry that knows it: `vs` are the numbers of the
equations and `bs` the bounds of the columns. -/
structure Shows (m : MatrixForm K) (p : Problem K) (t : Registry K)
    (vs : List (List (String × K) × K)) (bs : List (K × K)) : Prop where
  values : List.Forall₂ (fun q v => q.evaluate.Gives t v) p.model.equations vs
  bounds : List.Forall₂ (fun n b => (boundsOf p n).Gives t b) p.model.variableNames bs
  columns : m.columns = p.model.variableNames
  coefficients : m.coefficients = vs.map fun v => denseRow p.model.variableNames v.1
  constants : m.constants = vs.map (·.2)
  relations : m.relations = p.model.equations.map (·.op)
  lower : m.lower = bs.map (·.1)
  upper : m.upper = bs.map (·.2)

theorem boundsOf_keeps [ReflBEq (Value K)] (p : Problem K) (n : String) :
    (boundsOf p n).Keeps (boundsOf p n) := by
  simp only [boundsOf]
  cases p.declarationOf n with
  | none => exact Simulation.keeping.ret _
  | some v => exact Simulation.bounds (R := .keeping) (fun e => evaluate_keeps e _) v

/-- What a matrix form was made of stays known. -/
theorem shows_of_returns [ReflBEq (Value K)] {p : Problem K} {s s' : Store K} {m : MatrixForm K}
    (hs : s.registry.Keyed) (h : (ofProblem p).Returns s m s') {t : Registry K}
    (ht : s'.registry.KeptIn t) : s.registry.KeptIn s'.registry ∧ ∃ vs bs, m.Shows p t vs bs := by
  obtain ⟨_, values, objective, bounds, s₁, s₂, hvalues, hobjective, hbounds, rfl⟩ :=
    returns_ofProblem h
  have hform : ∀ (cs : Table String (Expr K)) c, (evaluateForm cs c).Keeps (evaluateForm cs c) :=
    Simulation.evaluateForm (R := .keeping) fun e => evaluate_keeps e _
  obtain ⟨h₁, hvalues⟩ := ensures_mapM p.model.equations
    (fun q => hform q.coefficients q.constant) hs hvalues
  have hobjectiveOf : (objectiveOf p.model.variableNames p.model.objective).Ensures
      fun _ _ => True := by
    cases p.model.objective with
    | none => exact ensures_pure fun _ => trivial
    | some o =>
      exact EnsuresFrom.bind (hform o.coefficients o.constant) fun _ => ensures_pure
        fun _ _ => trivial
  have hs₁ := hs.kept h₁
  obtain ⟨h₂, _⟩ := hobjectiveOf hs₁ hobjective
  obtain ⟨h₃, hbounds⟩ := ensures_mapM p.model.variableNames (boundsOf_keeps p) (hs₁.kept h₂)
    hbounds
  refine ⟨(h₁.trans h₂).trans h₃, values, bounds, ?_⟩
  exact ⟨hvalues ((h₂.trans h₃).trans ht), hbounds ht, rfl, rfl, rfl, rfl, rfl, rfl⟩

/-! ## Rows and points -/

theorem dot_map (columns : List String) (f g : String → ℚ) :
    dot (columns.map f) (columns.map g) = (columns.map fun v => f v * g v).sum := by
  rw [dot, List.zipWith_map, List.zipWith_self, List.sum_eq_foldl]
  rfl

theorem sum_indicator {columns : List String} (hcolumns : columns.Nodup) {k : String}
    (hk : k ∈ columns) (x : ℚ) : (columns.map fun v => if k = v then x else 0).sum = x := by
  induction columns with
  | nil => cases hk
  | cons v columns ih =>
    obtain ⟨hv, hcolumns⟩ := List.nodup_cons.1 hcolumns
    rw [List.map_cons, List.sum_cons]
    obtain rfl | hk := List.mem_cons.1 hk
    · have hzero : (columns.map fun v => if k = v then x else 0) = columns.map fun _ => 0 :=
        List.map_congr_left fun u hu => if_neg fun (hku : k = u) => hv (hku ▸ hu)
      simp [hzero]
    · have hkv : k ≠ v := fun hkv => hv (hkv ▸ hk)
      rw [if_neg hkv, ih hcolumns hk, zero_add]

/-- The product of a dense row with a point is the sum over the coefficients that it was made
of. -/
theorem dot_denseRow {columns : List String} (hcolumns : columns.Nodup) (f : String → ℚ)
    {cs : List (String × ℚ)} (hnodup : (cs.map (·.1)).Nodup) (hmem : ∀ c ∈ cs, c.1 ∈ columns) :
    dot (denseRow columns cs) (columns.map f) = (cs.map fun c => c.2 * f c.1).sum := by
  rw [denseRow, dot_map]
  induction cs with
  | nil => simp [Table.findIn]
  | cons c cs ih =>
    obtain ⟨hc, hnodup⟩ := List.nodup_cons.1 hnodup
    obtain ⟨hfirst, hmem⟩ := List.forall_mem_cons.1 hmem
    -- the first coefficient counts in its own column, where no other one does
    have hsplit : ∀ v, (Table.findIn v (c :: cs)).getD Scalar.zero * f v =
        (if c.1 = v then c.2 * f c.1 else 0) + (Table.findIn v cs).getD Scalar.zero * f v := by
      intro v
      by_cases hv : c.1 = v
      · have hnone : Table.findIn v cs = none := by
          rw [Option.eq_none_iff_forall_ne_some]
          intro x hx
          subst hv
          exact hc (Table.mem_keys_iff (t := ⟨cs⟩).2 ⟨x, hx⟩)
        simp [Table.findIn, hv, hnone]
      · simp [Table.findIn, hv]
    simp only [hsplit, List.sum_map_add, sum_indicator hcolumns hfirst, ih hnodup hmem,
      List.map_cons, List.sum_cons]

/-- A residual breaks a relation exactly if the sides do not stand in it. -/
theorem breaks_sub {op : RelOp} (hop : op.relatesSides = true) (x y : ℚ) :
    breaks op (x - y) = !relates op x y := by
  rw [Bool.eq_iff_iff]
  cases op with
  | ne => cases hop
  | eq => simp [breaks, relates]
  | _ =>
    simp only [breaks, relates, Scalar.lt_rat, Scalar.le_rat, Bool.not_eq_true',
      decide_eq_true_eq, decide_eq_false_iff_not, not_lt, not_le]
    constructor <;> intro _ <;> linarith

end MatrixForm

/-! ## Equations and bounds -/

variable {t : Registry ℚ} {σ : Assignment} {v : List (String × ℚ) × ℚ} {q : Equation ℚ}

theorem evaluateForm_keys {cs : Table String (Expr ℚ)} {c : Expr ℚ}
    (h : (evaluateForm cs c).Gives t v) : v.1.map (·.1) = cs.keys := by
  obtain ⟨_, h⟩ := h []
  obtain ⟨xs, s₁, hxs, h⟩ := returns_bind.1 h
  obtain ⟨x, _, rfl⟩ := returns_bind_pure.1 h
  have hnames : ∀ (es : List (String × Expr ℚ)) {xs : List (String × ℚ)} {s s' : Store ℚ},
      (es.mapM fun e => do return (e.1, ← e.2.evaluate Env.empty) : Run ℚ _).Returns s xs s' →
        xs.map (·.1) = es.map (·.1) := by
    intro es
    induction es with
    | nil =>
      intro xs s s' h
      obtain ⟨rfl, _⟩ := returns_mapM_nil.1 h
      rfl
    | cons e es ih =>
      intro xs s s' h
      obtain ⟨b, s₁, cs, hb, hcs, rfl⟩ := returns_mapM_cons.1 h
      obtain ⟨y, _, rfl⟩ := returns_bind_pure.1 hb
      rw [List.map_cons, List.map_cons, ih hcs]
  exact hnames cs.toList hxs

theorem gives_products {cs : List (String × ℚ)} (hσ : ∀ c ∈ cs, σ.values.contains c.1 = true) :
    (cs.mapM (product σ.values)).Gives t (cs.map fun c => c.2 * σ.number c.1) := by
  refine gives_mapM (List.forall₂_map_right_iff.2 (List.forall₂_same.2 fun c hc => ?_))
  obtain ⟨v, hv⟩ := Option.isSome_iff_exists.1 (hσ c hc)
  obtain ⟨y, hy⟩ := σ.numeric hv
  have hnumber : σ.number c.1 = y := by simp [Assignment.number, hv, hy]
  simp only [product, hv, Value.scaleBy_of_scalar? c.2 hy, hnumber]
  exact gives_pure.2 rfl

/-- Whether an equation is satisfied depends on the numbers it evaluates to. -/
theorem Equation.gives_isSatisfied (hq : q.evaluate.Gives t v)
    (hσ : ∀ c ∈ v.1, σ.values.contains c.1 = true) : (q.isSatisfied σ.values).Gives t
      (relates q.op (v.1.map fun c => c.2 * σ.number c.1).sum v.2) := by
  refine hq.bind ((gives_products hσ).bind (gives_pure.2 ?_))
  rw [List.sum_eq_foldl]
  rfl

/-- No pair of two lists breaks a condition exactly if each element of the first list meets its
own. -/
theorem any_zip_eq_false {α β γ δ : Type} {R : α → β → Prop} {as : List α} {bs : List β}
    (h : List.Forall₂ R as bs) {f : α → γ} {g : β → δ} {P : γ × δ → Bool} {Q : α → Prop}
    (hPQ : ∀ a b, a ∈ as → R a b → (P (f a, g b) = false ↔ Q a)) :
    ((as.map f).zip (bs.map g)).any P = false ↔ ∀ a ∈ as, Q a := by
  induction h with
  | nil => simp
  | @cons a b as bs hab _ ih =>
    simp only [List.map_cons, List.zip_cons_cons, List.any_cons, Bool.or_eq_false_iff,
      List.forall_mem_cons]
    rw [hPQ a b List.mem_cons_self hab, ih fun a b ha => hPQ a b (List.mem_cons_of_mem _ ha)]

namespace MatrixForm

variable {p : Problem ℚ}

/-- A row is broken exactly if its equation is not satisfied. -/
theorem breaks_row (hp : p.model.IsRegular) (hq : q ∈ p.model.equations)
    (hv : q.evaluate.Gives t v) (hσ : ∀ n ∈ p.model.variableNames, σ.values.contains n = true) :
    (q.isSatisfied σ.values).Gives t !(breaks q.op (dot (denseRow p.model.variableNames v.1)
      (p.model.variableNames.map σ.number) - v.2)) := by
  have hkeys := evaluateForm_keys hv
  have hcolumn : ∀ c ∈ v.1, c.1 ∈ p.model.variableNames := fun c hc =>
    Model.mem_variableNames_of_equation hq (hkeys ▸ List.mem_map_of_mem hc)
  rw [dot_denseRow p.model.nodup_variableNames σ.number (hkeys ▸ hp.distinct hq) hcolumn,
    breaks_sub (hp.relates q hq), Bool.not_not]
  exact gives_isSatisfied hv fun c hc => hσ _ (hcolumn c hc)

theorem breaks_row_iff (hp : p.model.IsRegular) (hq : q ∈ p.model.equations)
    (hv : q.evaluate.Gives t v) (hσ : ∀ n ∈ p.model.variableNames, σ.values.contains n = true) :
    breaks q.op (dot (denseRow p.model.variableNames v.1)
      (p.model.variableNames.map σ.number) - v.2) = false ↔
        (q.isSatisfied σ.values).Gives t true := by
  have hgives := breaks_row hp hq hv hσ
  constructor
  · intro hholds
    rwa [hholds] at hgives
  · intro htrue
    simpa using hgives.unique htrue

/-- The bounds of a column are those of the declaration of its variable. -/
theorem boundsOf_iff {n : String} {v : Variable ℚ} {b : ℚ × ℚ} {P : ℚ → ℚ → Prop}
    (hv : p.declarationOf n = some v) (hb : (boundsOf p n).Gives t b) :
    P b.1 b.2 ↔ ∀ v l u, p.declarationOf n = some v → v.bounds.Gives t (l, u) → P l u := by
  simp only [boundsOf, hv] at hb ⊢
  constructor
  · rintro hP _ l u ⟨⟩ hlu
    obtain rfl := hb.unique hlu
    exact hP
  · intro hall
    exact hall v b.1 b.2 rfl hb

/-- What is tested at a point, in terms of what the matrix form lists. -/
theorem Shows.isFeasible_eq {m : MatrixForm ℚ} {vs : List (List (String × ℚ) × ℚ)}
    {bs : List (ℚ × ℚ)} (h : m.Shows p t vs bs) (f : String → ℚ) :
    m.isFeasible (p.model.variableNames.map f) = .ok (
      !((p.model.equations.map (·.op)).zip (vs.map fun v =>
          dot (denseRow p.model.variableNames v.1) (p.model.variableNames.map f) - v.2)).any
        (fun e => breaks e.1 e.2) && !((p.model.variableNames.map f).zip (bs.map (·.1))).any
        (fun e => Scalar.lt e.1 (e.2 - Scalar.epsilon)) &&
      !((p.model.variableNames.map f).zip (bs.map (·.2))).any
        fun e => Scalar.lt (e.2 + Scalar.epsilon) e.1) := by
  have hresiduals : m.residuals (p.model.variableNames.map f) = .ok (vs.map fun v =>
      dot (denseRow p.model.variableNames v.1) (p.model.variableNames.map f) - v.2) := by
    simp only [residuals, List.length_map, h.columns, ne_eq, not_true, if_false, h.coefficients,
      h.constants, List.zipWith_map, List.zipWith_self]
  simp only [isFeasible, hresiduals, h.relations, h.lower, h.upper]
  rfl

end MatrixForm

/-- A matrix form is taken of a problem, and each of its columns is given a value. Then every
equation is satisfied or not, every variable has bounds, and the point is feasible exactly if every
equation is satisfied and every variable lies within its bounds, up to the tolerance. -/
theorem isFeasible_iff {p : Problem ℚ} {ws : List String} {m : MatrixForm ℚ} {s' : Store ℚ}
    {t : Registry ℚ} {σ : Assignment} (hp : p.Reached)
    (hm : (MatrixForm.ofProblem p).Returns ⟨p.registry, ws⟩ m s') (ht : s'.registry.KeptIn t)
    (hσ : ∀ n ∈ m.columns, σ.values.contains n = true) :
    (∀ q ∈ p.model.equations, ∃ b, (q.isSatisfied σ.values).Gives t b) ∧
    (∀ n ∈ m.columns, ∃ v l u, p.declarationOf n = some v ∧ v.bounds.Gives t (l, u)) ∧
    ∃ b, m.isFeasible (m.columns.map σ.number) = .ok b ∧
      (b = true ↔ (∀ q ∈ p.model.equations, (q.isSatisfied σ.values).Gives t true) ∧
        ∀ n ∈ m.columns, ∀ v l u, p.declarationOf n = some v → v.bounds.Gives t (l, u) →
          l - Scalar.epsilon ≤ σ.number n ∧ σ.number n ≤ u + Scalar.epsilon) := by
  have hregular := hp.isRegular
  have hbuilt := (MatrixForm.returns_ofProblem hm).1
  obtain ⟨_, vs, bs, hshows⟩ := MatrixForm.shows_of_returns hp.isSound.toKeyed hm ht
  rw [hshows.columns] at hσ ⊢
  have hrows := any_zip_eq_false (f := Equation.op) (P := fun e => breaks e.1 e.2) hshows.values
    fun q v hq hv => breaks_row_iff hregular.model hq hv hσ
  have hlow := any_zip_eq_false (f := σ.number) (g := Prod.fst)
    (P := fun e => Scalar.lt e.1 (e.2 - Scalar.epsilon)) hshows.bounds fun n b hn hb => by
      obtain ⟨v, hv⟩ := hregular.declared hbuilt n hn
      rw [Scalar.lt_rat, decide_eq_false_iff_not, not_lt]
      exact boundsOf_iff (P := fun l _ => l - Scalar.epsilon ≤ σ.number n) hv hb
  have hhigh := any_zip_eq_false (f := σ.number) (g := Prod.snd)
    (P := fun e => Scalar.lt (e.2 + Scalar.epsilon) e.1) hshows.bounds fun n b hn hb => by
      obtain ⟨v, hv⟩ := hregular.declared hbuilt n hn
      rw [Scalar.lt_rat, decide_eq_false_iff_not, not_lt]
      exact boundsOf_iff (b := b) (P := fun _ u => σ.number n ≤ u + Scalar.epsilon) hv hb
  refine ⟨fun q hq => ?_, fun n hn => ?_, _, hshows.isFeasible_eq σ.number, ?_⟩
  · obtain ⟨v, _, hv⟩ := exists_of_forall₂ hshows.values hq
    exact ⟨_, breaks_row hregular.model hq hv hσ⟩
  · obtain ⟨v, hv⟩ := hregular.declared hbuilt n hn
    obtain ⟨b, _, hb⟩ := exists_of_forall₂ hshows.bounds hn
    exact ⟨v, b.1, b.2, hv, by simpa only [boundsOf, hv] using hb⟩
  · simp only [Bool.and_eq_true, Bool.not_eq_true', hrows, hlow, hhigh, and_assoc, ← forall_and]

/-- Two variables under three kinds of relation, one of them with a bound that is evaluated. -/
def boundedPlan : Work ℚ Unit :=
  Work.addScript false "float p = 2; dvar float x; dvar int y in 0..p; c: p*x + y <= 5;
    d: x - y == 1; e: y < p;"

/-- A point of the plan. -/
def planPoint : Assignment := .ofNumbers [("x", 2), ("y", 1)]

theorem isFeasible_iff_boundedPlan :
    ∃ (p : Problem ℚ) (ws : List String) (m : MatrixForm ℚ) (s' : Store ℚ), p.Reached ∧
      (ofProblem p).Returns ⟨p.registry, ws⟩ m s' ∧ m.columns = ["x", "y"] ∧
      m.isFeasible [2, 1] = .ok true ∧
      (∀ q ∈ p.model.equations, (q.isSatisfied planPoint.values).Gives s'.registry true) ∧
      ∀ n ∈ m.columns, ∀ v l u, p.declarationOf n = some v → v.bounds.Gives s'.registry (l, u) →
        l - Scalar.epsilon ≤ planPoint.number n ∧
          planPoint.number n ≤ u + Scalar.epsilon := by
  have hrun : ((do
      boundedPlan
      Work.build
      let p ← Work.problem
      let m ← Work.ofRun (ofProblem p)
      return (m.columns, (m.isFeasible (m.columns.map planPoint.number)).toOption) :
        Work ℚ (List String × Option Bool)).carry blankWorkspace).1.toOption
      = some (["x", "y"], some true) := by
    decide +kernel
  obtain ⟨_, h⟩ := Work.returns_of_toOption hrun
  obtain ⟨_, w₀, hscript, h⟩ := Work.returns_bind.1 h
  obtain ⟨_, w, hbuild, h⟩ := Work.returns_bind.1 h
  replace h := Work.returns_problem_bind.1 h
  obtain ⟨m, _, hform, h⟩ := Work.returns_bind.1 h
  obtain ⟨s', hm, rfl⟩ := Work.returns_ofRun.1 hform
  obtain ⟨hcolumns, hfeasible⟩ := Prod.mk.inj (Work.returns_pure.1 h).1
  have hw : w.problem.Reached := .built (.script (.start none none none) hscript) hbuild
  obtain ⟨_, _, b, hb, hiff⟩ := isFeasible_iff (σ := planPoint) hw hm (.refl _) (by
    rw [hcolumns]
    decide +kernel)
  have hpoint : m.columns.map planPoint.number = [2, 1] := by
    rw [hcolumns]
    decide +kernel
  obtain rfl : b = true := by simpa [hb, Except.toOption] using hfeasible
  rw [hpoint] at hb
  exact ⟨w.problem, _, m, s', hw, hm, hcolumns, hb, hiff.1 rfl⟩

end LinearModel
