import LinearModel.Proofs.AlikeForms
import LinearModel.Proofs.Feasibility
import LinearModel.Mps

/-!
# Expanding again

A registry is read by evaluating parameters, domains, equations and expressions, by exporting a
problem, and by building its model. None of these changes what is declared, but they leave values
behind, and later expansions fold these values in. So the equations of a rule depend on what has
been read before. They always have the same names and relations, and the same coefficients where
these evaluate, but a variable is missing if its coefficient has folded to zero.
-/
namespace LinearModel

open Run Simulation Registry Equation Env

/-! ## Combinations -/

section Rules

variable {K : Type} [Scalar K] {α β : Type} {B : Registry K} {P : α → β → Prop}

/-- Combinations of iterators are visited in the same order, whatever has been evaluated before. -/
theorem visit_agrees {f : Env K → Run K (List α)} {g : Env K → Run K (List β)}
    {ss : List (Stage K)} (hss : ∀ s ∈ ss, (agreeing B).Stages s s)
    (h : ∀ env, Agrees B (List.Forall₂ P) (f env) (g env)) (env : Env K) :
    Agrees B (List.Forall₂ P) (Stage.visit ss f env) (Stage.visit ss g env) := by
  induction ss generalizing env with
  | nil => exact h env
  | cons s ss ih =>
    rw [List.forall_mem_cons] at hss
    refine Agrees.bind (P := Eq) (hss.1.elements rfl) fun vs vs' hvs => ?_
    subst hvs
    refine Agrees.bind (P := List.Forall₂ (List.Forall₂ P)) (agrees_mapM vs fun v _ => ?_)
      fun found found' hfound => agrees_pure (List.rel_flatten hfound)
    refine Agrees.bind (P := Eq) (hss.1.admits rfl) fun passes passes' hpasses => ?_
    subst hpasses
    cases passes with
    | true => exact ih hss.2 _
    | false => exact agrees_pure .nil

theorem enumerate_agrees {f : Env K → Run K α} {g : Env K → Run K β} {L : Lookup K}
    (hL : (agreeing B).Lookups L L) (h : ∀ env, Agrees B P (f env) (g env))
    (its : List (Iter K)) (c : Option (Expr K)) (env : Env K) :
    Agrees B (List.Forall₂ P) (enumerate L its c env f) (enumerate L its c env g) := by
  have hstages : ∀ s ∈ Expr.stages L its, (agreeing B).Stages s s :=
    List.forall₂_same.1 (exprStages hL its)
  simp only [enumerate, Stage.enumerate]
  split
  · exact agrees_fail _ _
  · refine visit_agrees hstages (fun inner => ?_) env
    refine Agrees.bind (P := Eq) (exprHolds hL c rfl) fun holds holds' hholds => ?_
    subst hholds
    cases holds with
    | true => exact (h inner).bind fun a b hab => agrees_pure (.cons hab .nil)
    | false => exact agrees_pure .nil

variable {f : Constraint K → Env K → Run K α} {g : Constraint K → Env K → Run K β}

mutual
/-- What is done for every constraint of a rule agrees if it does for each of them. -/
theorem Rule.forEach_agrees (hL : (agreeing B).Lookups B.lookup B.lookup) :
    ∀ (R : Rule K), (∀ c, R.States c → ∀ env, Agrees B P (f c env) (g c env)) → ∀ env : Env K,
      Agrees B (List.Forall₂ P) (R.forEach f env) (R.forEach g env)
  | .single c, h, env => by
    exact (h c .single env).bind fun a b hab => agrees_pure (.cons hab .nil)
  | .family _ its condition body, h, env => by
    refine agrees_lookup ?_
    refine Agrees.bind (P := List.Forall₂ (List.Forall₂ P)) ?_
      fun found found' hfound => agrees_pure (List.rel_flatten hfound)
    exact enumerate_agrees hL (Rule.forEachOf_agrees hL body fun R hR c hc =>
      h c (.family hR hc)) its condition env

theorem Rule.forEachOf_agrees (hL : (agreeing B).Lookups B.lookup B.lookup) :
    ∀ (Rs : List (Rule K)),
      (∀ R ∈ Rs, ∀ c, R.States c → ∀ env, Agrees B P (f c env) (g c env)) → ∀ env : Env K,
        Agrees B (List.Forall₂ P) (forEachOf f Rs env) (forEachOf g Rs env)
  | [], _, env => by
    exact agrees_pure .nil
  | R :: Rs, h, env => by
    rw [List.forall_mem_cons] at h
    exact (Rule.forEach_agrees hL R h.1 env).bind fun found found' hfound =>
      (Rule.forEachOf_agrees hL Rs h.2 env).bind fun further further' hfurther =>
        agrees_pure (List.rel_append hfound hfurther)
end

end Rules

/-! ## Equations and models -/

/-- Equations of the same name and relation that are alike but for coefficients that were dropped.
-/
structure Equation.Alike (ps : Table String (Parameter ℚ)) (q q' : Equation ℚ) : Prop where
  label : q.label = q'.label
  base : q.base = q'.base
  index : q.index = q'.index
  second : q.second = q'.second
  op : q.op = q'.op
  coefficients : CoefficientsAlike ps q.coefficients q'.coefficients
  constant : q.constant.Alike ps q'.constant

/-- Objectives of the same name and sense that are alike but for coefficients that were dropped. -/
structure Objective.Alike (ps : Table String (Parameter ℚ)) (o o' : Objective ℚ) : Prop where
  sense : o.sense = o'.sense
  name : o.name = o'.name
  coefficients : CoefficientsAlike ps o.coefficients o'.coefficients
  constant : o.constant.Alike ps o'.constant

/-- Models whose equations and objectives are alike but for coefficients that were dropped. -/
structure Model.Alike (ps : Table String (Parameter ℚ)) (m m' : Model ℚ) : Prop where
  equations : List.Forall₂ (Equation.Alike ps) m.equations m'.equations
  objective : Option.Rel (Objective.Alike ps) m.objective m'.objective

section Expansion

variable {B : Registry ℚ} (hB : B.IsSound) (hdata : B.IsData) (hfamilies : B.FamiliesAgree)

include hB hdata hfamilies

theorem formulate_agrees {lhs rhs : Expr ℚ} (hl : lhs.Indexed) (hr : rhs.Indexed) (op : RelOp)
    (env : Env ℚ) (name : EquationName ℚ) :
    Agrees B (fun d d' => d.1.Alike B.foreseen d'.1) (formulate lhs op rhs env name)
      (formulate lhs op rhs env name) := by
  have hsides : (Expr.arith .sub lhs rhs).Indexed := by
    exact ⟨hl, hr⟩
  unfold formulate
  split
  · exact Agrees.bind (P := fun _ _ => False) (agrees_fail _ _) fun _ _ => False.elim
  · refine (linearize_agrees hB hdata hfamilies hsides env).bind fun f f' hf => ?_
    refine agrees_registry fun r t hr ht => ?_
    refine Agrees.bind (P := Expr.Alike B.foreseen) (agrees_ofExcept fun c c' hc hc' => ?_)
      fun c c' hc => agrees_pure ⟨rfl, rfl, rfl, rfl, rfl, hf.1, hc⟩
    exact hf.2.neg.simplify hr.tidy (hr.foretold hB.toKeyed hdata) ht.tidy
      (ht.foretold hB.toKeyed hdata) hc hc'

theorem Constraint.nameIn_agrees (c : Constraint ℚ) (env : Env ℚ) :
    Agrees B Eq (c.nameIn env) (c.nameIn env) := by
  have hL := lookup_agrees hB.toKeyed hdata hfamilies (B.size + familyDepth)
  unfold Constraint.nameIn
  split
  · exact agrees_pure rfl
  · split
    · exact agrees_pure rfl
    · refine agrees_lookup (Agrees.bind (P := Eq) (exprElements hL c.labelIndex rfl) ?_)
      intro idx idx' hidx
      subst hidx
      exact agrees_pure rfl

theorem Constraint.expand_agrees {c : Constraint ℚ} (hl : c.lhs.Indexed) (hr : c.rhs.Indexed)
    (env : Env ℚ) :
    Agrees B (fun d d' => d.1.Alike B.foreseen d'.1) (c.expand env) (c.expand env) := by
  refine agrees_mapFailure
    ((c.nameIn_agrees hB hdata hfamilies env).bind fun name name' hname => ?_)
    _ _
  subst hname
  exact formulate_agrees hB hdata hfamilies hl hr c.op env name

/-- The equations of a rule are alike, whatever has been evaluated before. -/
theorem Rule.equations_agrees {R : Rule ℚ} (hR : R.WellIndexed) :
    Agrees B (fun p p' => List.Forall₂ (Alike B.foreseen) p.1 p'.1) R.equations R.equations := by
  have hL := lookup_agrees hB.toKeyed hdata hfamilies (B.size + familyDepth)
  refine agrees_mapFailure (Agrees.bind (Rule.forEach_agrees (P := fun d d' =>
    Alike B.foreseen d.1 d'.1) hL R (fun c hc env => ?_) empty)
      fun ds ds' hds => agrees_pure ?_) _ _
  · exact Constraint.expand_agrees hB hdata hfamilies (hR c hc).1 (hR c hc).2 env
  · rwa [List.forall₂_map_left_iff, List.forall₂_map_right_iff]

theorem Goal.objective_agrees {g : Goal ℚ} (hg : g.body.Indexed) :
    Agrees B (fun p p' => p.1.Alike B.foreseen p'.1) g.objective g.objective :=
  agrees_mapFailure ((linearize_agrees hB hdata hfamilies hg empty).bind fun _ _ hf =>
    agrees_pure ⟨rfl, rfl, hf.1, hf.2⟩) _ _

theorem Model.extend_agrees {m m' : Model ℚ} (hm : m.Alike B.foreseen m') {stmt : Statement ℚ}
    (hstmt : stmt.WellIndexed) :
    Agrees B (Model.Alike B.foreseen) (m.extend stmt) (m'.extend stmt) := by
  cases stmt with
  | rule R =>
    refine (Rule.equations_agrees hB hdata hfamilies hstmt).bind fun p p' hp => ?_
    exact agrees_pure ⟨List.rel_append hm.equations hp, hm.objective⟩
  | goal g =>
    refine (Goal.objective_agrees hB hdata hfamilies hstmt).bind fun p p' hp => ?_
    exact agrees_pure ⟨hm.equations, .some hp⟩
  | declaration literal entity | ignored literal => exact agrees_pure hm

/-- The models of a list of statements are alike, whatever has been evaluated before. -/
theorem Model.ofStatements_agrees (symbol : String) {stmts : List (Statement ℚ)}
    (hstmts : ∀ stmt ∈ stmts, stmt.WellIndexed) :
    Agrees B (Model.Alike B.foreseen) (Model.ofStatements symbol stmts)
      (Model.ofStatements symbol stmts) := by
  have hfold : ∀ {m m' : Model ℚ}, m.Alike B.foreseen m' →
      Agrees B (Model.Alike B.foreseen) (stmts.foldlM Model.extend m)
        (stmts.foldlM Model.extend m') := by
    induction stmts with
    | nil => exact fun hm => agrees_pure hm
    | cons stmt stmts ih =>
      rw [List.forall_mem_cons] at hstmts
      intro m m' hm
      exact (Model.extend_agrees hB hdata hfamilies hm hstmts.1).bind fun _ _ => ih hstmts.2
  refine (hfold ⟨.nil, .none⟩).bind fun m m' hm => ?_
  refine Agrees.bind (P := fun _ _ => True) ?_ fun _ _ _ => agrees_pure hm
  exact agrees_steady (steady_forM _ fun _ => steady_warn _) (steady_forM _ fun _ => steady_warn _)

end Expansion

/-! ## Reads -/

/-- Nothing is done after a failure. -/
theorem Run.fail_bind {K α β : Type} (c : Cause K) (f : α → Run K β) :
    (fail c >>= f) = fail c := rfl

section Exports

variable {K : Type} [Scalar K] {R : Simulation K}
  (h : ∀ e : Expr K, R.rel (e.evaluate empty) (e.evaluate empty))

include h

/-- A relation that relates each evaluation to itself does so for the matrix form. -/
theorem Simulation.matrixForm (p : Problem K) :
    R.rel (MatrixForm.ofProblem p) (MatrixForm.ofProblem p) := by
  have hobjective : R.rel (MatrixForm.objectiveOf p.model.variableNames p.model.objective)
      (MatrixForm.objectiveOf p.model.variableNames p.model.objective) := by
    unfold MatrixForm.objectiveOf
    split
    · exact R.ret _
    · exact R.seq (evaluateForm h _ _) fun _ => R.ret _
  have hbounds : ∀ n, R.rel (MatrixForm.boundsOf p n) (MatrixForm.boundsOf p n) := by
    intro n
    unfold MatrixForm.boundsOf
    split
    · exact R.ret _
    · exact bounds h _
  unfold MatrixForm.ofProblem
  split
  · rw [fail_bind]
    exact R.failure _
  · refine R.seq (Simulation.mapM _ fun q => evaluateForm h _ _) fun _ => ?_
    exact R.seq hobjective fun _ => R.seq (Simulation.mapM _ hbounds) fun _ => R.ret _

/-- A relation that relates each evaluation to itself does so for the exchange file. -/
theorem Simulation.exchangeFile (p : Problem K) : R.rel (Mps.file p) (Mps.file p) := by
  have hbounds : ∀ c : Mps.Column K, R.rel (Mps.columnBounds c) (Mps.columnBounds c) := by
    intro c
    unfold Mps.columnBounds
    split
    · exact R.ret _
    · exact R.seq (bounds h _) fun _ => R.ret _
  have hrow : ∀ (name : String) (q : Equation K),
      R.rel (Mps.equationRow name q) (Mps.equationRow name q) := fun _ _ =>
    R.seq (evaluateForm h _ _) fun _ => R.ret _
  cases hbuilt : p.isBuilt with
  | false =>
    simp only [Mps.file, hbuilt, Bool.not_false, if_true, fail_bind]
    exact R.failure _
  | true =>
    simp only [Mps.file, hbuilt, Bool.not_true, Bool.false_eq_true, if_false]
    split
    · exact R.failure _
    · refine R.seq (R.seq (evaluateForm h _ _) fun _ => R.ret _) fun _ => ?_
      refine R.seq (Simulation.mapM _ fun e => hrow _ _) fun _ => ?_
      exact R.seq (Simulation.mapM _ hbounds) fun _ => R.ret _

end Exports

/-- The operations that read a registry: evaluations, exports and builds. The expressions of the
statements that are built refer to parameters by proper indices. -/
inductive IsConsultation : ∀ {α : Type}, Run ℚ α → Prop
  | parameter (symbol : String) (idx : Index ℚ) : IsConsultation (readParameter symbol idx)
  | elements (symbol : String) (env : Env ℚ) (given : Option (Value ℚ)) :
      IsConsultation (resolveDomain symbol env given)
  | value (e : Expr ℚ) (env : Env ℚ) : IsConsultation (e.evaluateValue env)
  | equation (q : Equation ℚ) : IsConsultation q.evaluate
  | objective (o : Objective ℚ) : IsConsultation o.evaluate
  | matrix (p : Problem ℚ) : IsConsultation (MatrixForm.ofProblem p)
  | exchange (p : Problem ℚ) : IsConsultation (Mps.file p)
  | build (symbol : String) {stmts : List (Statement ℚ)}
      (h : ∀ stmt ∈ stmts, stmt.WellIndexed) : IsConsultation (Model.ofStatements symbol stmts)

section Consultation

variable {B : Registry ℚ} (hB : B.IsSound) (hdata : B.IsData) (hfamilies : B.FamiliesAgree)

include hB hdata hfamilies

theorem Expr.evaluate_agrees (e : Expr ℚ) (env : Env ℚ) :
    Agrees B Eq (e.evaluate env) (e.evaluate env) :=
  agrees_lookup (exprNumber
    (lookup_agrees hB.toKeyed hdata hfamilies (B.size + familyDepth)) e rfl)

/-- A read gives the same wherever it returns, and leaves the registry up to date. -/
theorem IsConsultation.agrees {α : Type} {x : Run ℚ α} (hx : IsConsultation x) :
    Agrees B (fun _ _ => True) x x := by
  have hL := lookup_agrees hB.toKeyed hdata hfamilies (B.size + familyDepth)
  have hevaluate : ∀ e : Expr ℚ, (agreeing B).rel (e.evaluate empty)
      (e.evaluate empty) := fun e => Expr.evaluate_agrees hB hdata hfamilies e empty
  have hform : ∀ cs c, Agrees B Eq (evaluateForm cs c) (evaluateForm cs c) :=
    Simulation.evaluateForm (R := .agreeing B) hevaluate
  cases hx with
  | parameter symbol idx =>
    exact Agrees.mono (P := Eq) (agrees_lookup (hL.parameter symbol idx)) fun _ _ _ => trivial
  | elements symbol env given =>
    exact Agrees.mono (P := Eq) (agrees_lookup (hL.elements symbol given rfl)) fun _ _ _ => trivial
  | value e env =>
    exact Agrees.mono (P := Eq) (agrees_lookup (exprValue hL e rfl)) fun _ _ _ => trivial
  | equation q => exact (hform q.coefficients q.constant).mono fun _ _ _ => trivial
  | objective o => exact (hform o.coefficients o.constant).mono fun _ _ _ => trivial
  | matrix p =>
    exact Agrees.mono (P := Eq) (matrixForm (R := .agreeing B) hevaluate p)
      fun _ _ _ => trivial
  | exchange p =>
    exact Agrees.mono (P := Eq) (exchangeFile (R := .agreeing B) hevaluate p)
      fun _ _ _ => trivial
  | build symbol h =>
    exact (Model.ofStatements_agrees hB hdata hfamilies symbol h).mono fun _ _ _ => trivial

end Consultation

/-- The stores that reads lead to from a store. -/
inductive Consults (s : Store ℚ) : Store ℚ → Prop
  | refl : Consults s s
  | read {α : Type} {t u : Store ℚ} {x : Run ℚ α} {a : α} (ht : Consults s t)
      (hx : IsConsultation x) (h : x.Returns t a u) : Consults s u

/-- The registries that declarations, assignments of data and reads lead to, where the members of
families agree at outer indices that compare equal. Declared parameters and domains mention no
decision variables and no decision expressions. -/
inductive Registry.Consulted : Registry ℚ → Prop
  | empty : Consulted {}
  | declared {r t : Registry ℚ} {e : Entity ℚ} (hr : Consulted r) (hnew : e.IsNew Expr.Indexed)
      (hdata : e.isData = true) (h : r.declare e = .ok t) : Consulted t
  | data {s s' : Store ℚ} {x : Run ℚ Unit} (hs : Consulted s.registry) (hx : IsDataOperation x)
      (h : x.Returns s () s') : Consulted s'.registry
  | read {α : Type} {s s' : Store ℚ} {x : Run ℚ α} {a : α} (hs : Consulted s.registry)
      (hfamilies : s.registry.invalidate.FamiliesAgree) (hx : IsConsultation x)
      (h : x.Returns s a s') : Consulted s'.registry

namespace Registry

variable {r : Registry ℚ}

theorem upToDate_of_isCurrent (hr : r.IsSound) (hcurrent : r.IsCurrent) :
    r.UpToDate r.invalidate := ⟨hcurrent.current, hr.toTidy⟩

/-- A registry that reads lead to is sound and current, as the one before was. -/
theorem UpToDate.isSound {B : Registry ℚ} (h : r.UpToDate B) (hB : B.IsSound) : r.IsSound where
  toTidy := h.tidy
  wellIndexed {s d} hd := by
    have hdexprs := congrArg dexprs h.current.base
    exact hB.wellIndexed (hdexprs ▸ hd)

theorem Consulted.put (hr : r.Consulted) {e : Entity ℚ} (hnew : e.IsNew Expr.Indexed)
    (hdata : e.isData = true) (hfree : r.isDeclared e.symbol = false) : (r.put e).Consulted :=
  .declared hr hnew hdata (by simp [declare, hfree])

theorem Consulted.isSound_isCurrent (h : r.Consulted) : r.IsSound ∧ r.IsCurrent := by
  induction h with
  | empty => exact ⟨isSound_empty, isCurrent_empty⟩
  | declared _ hnew hdata h ih =>
    refine ⟨ih.1.declare hnew.isFresh h, ?_⟩
    unfold declare at h
    split at h
    · cases h
    · rename_i hfree
      cases h
      exact ih.2.put hnew hdata (Bool.eq_false_iff.2 hfree)
  | data _ hx h ih =>
    exact ⟨(hx.leads renewed_isSound ih.1.isConsistent h).1,
      (hx.leads renewed_isCurrent ⟨ih.2.current.keyed, ih.2.isData⟩ h).1⟩
  | read _ hfamilies hx h ih =>
    have hs := upToDate_of_isCurrent ih.1 ih.2
    have hB := isSound_invalidate ih.1.toKeyed ih.1.wellIndexed
    have hdata := isData_invalidate.2 ih.2.isData
    obtain ⟨hs', -⟩ := hx.agrees hB hdata hfamilies hs hs h h
    have hsame := hs'.current.base
    exact ⟨hs'.isSound hB, isData_invalidate.1 (hsame ▸ hdata), hsame ▸ hs'.current⟩

end Registry

/-! ## What does not depend on reads -/

/-- Wherever two expressions evaluate after further reads, they evaluate to the same number. -/
def Expr.SameAfter (s : Store ℚ) (e e' : Expr ℚ) : Prop :=
  ∀ ⦃u u' v v' : Store ℚ⦄ ⦃x x' : ℚ⦄, Consults s u → Consults s u' →
    (e.evaluate empty).Returns u x v → (e'.evaluate empty).Returns u' x' v' → x = x'

/-- Wherever an expression evaluates after further reads, the number counts as zero. -/
def Expr.ZeroAfter (s : Store ℚ) (e : Expr ℚ) : Prop :=
  ∀ ⦃u v : Store ℚ⦄ ⦃x : ℚ⦄, Consults s u → (e.evaluate empty).Returns u x v →
    Scalar.isZero x = true

/-- The coefficients of a variable in two tables, where it is missing only if it has no weight. -/
def SameCoefficient (s : Store ℚ) : Option (Expr ℚ) → Option (Expr ℚ) → Prop
  | some f, some f' => f.SameAfter s f'
  | some f, none | none, some f => f.ZeroAfter s
  | none, none => True

/-- Equations with the same name, relation and constant, and with the same coefficients where a
missing one counts as zero. -/
structure Equation.SameAfter (s : Store ℚ) (q q' : Equation ℚ) : Prop where
  label : q.label = q'.label
  base : q.base = q'.base
  index : q.index = q'.index
  second : q.second = q'.second
  op : q.op = q'.op
  coefficients : ∀ n, SameCoefficient s (q.coefficients.find? n) (q'.coefficients.find? n)
  constant : q.constant.SameAfter s q'.constant

/-- Objectives with the same name, sense and constant, and with the same coefficients where a
missing one counts as zero. -/
structure Objective.SameAfter (s : Store ℚ) (o o' : Objective ℚ) : Prop where
  sense : o.sense = o'.sense
  name : o.name = o'.name
  coefficients : ∀ n, SameCoefficient s (o.coefficients.find? n) (o'.coefficients.find? n)
  constant : o.constant.SameAfter s o'.constant

section Stores

variable {B : Registry ℚ} (hB : B.IsSound) (hdata : B.IsData) (hfamilies : B.FamiliesAgree)
  {s : Store ℚ} (hs : s.registry.UpToDate B)

include hB hdata hfamilies hs

/-- Reads leave a registry up to date. -/
theorem Consults.upToDate {u : Store ℚ} (h : Consults s u) : u.registry.UpToDate B := by
  induction h with
  | refl => exact hs
  | read _ hx h ih => exact (hx.agrees hB hdata hfamilies ih ih h h).1

theorem Expr.Alike.sameAfter {e e' : Expr ℚ} (h : e.Alike B.foreseen e') : e.SameAfter s e' := by
  intro u u' v v' x x' hu hu' hx hx'
  have hu := hu.upToDate hB hdata hfamilies hs
  have hu' := hu'.upToDate hB hdata hfamilies hs
  have hv := (e.evaluate_agrees hB hdata hfamilies _ hu hu hx hx).1
  have hv' := (e'.evaluate_agrees hB hdata hfamilies _ hu' hu' hx' hx').1
  exact h.evaluate_eq hB.toTidy hdata hu hv hu' hv' hx hx'

/-- An expression that is alike to a number evaluates to it. -/
theorem Expr.Alike.zeroAfter {e : Expr ℚ} {x : ℚ} (h : e.Alike B.foreseen (.num x))
    (hx : Scalar.isZero x = true) : e.ZeroAfter s := by
  intro u v y hu hy
  have hnum : ((Expr.num x).evaluate empty).Returns s x s := rfl
  rw [h.sameAfter hB hdata hfamilies hs hu .refl hy hnum]
  exact hx

theorem CoefficientsAlike.sameCoefficient {t t' : Table String (Expr ℚ)}
    (h : CoefficientsAlike B.foreseen t t') (n : String) :
    SameCoefficient s (t.find? n) (t'.find? n) := by
  cases hf : t.find? n with
  | some f =>
    obtain ⟨f', hf', halike⟩ | ⟨hnone, x, hx, halike⟩ := h.find? hf
    · rw [hf']
      exact halike.sameAfter hB hdata hfamilies hs
    · rw [hnone]
      exact halike.zeroAfter hB hdata hfamilies hs hx
  | none =>
    cases hf' : t'.find? n with
    | none => trivial
    | some f' =>
      obtain ⟨f, hfound, _⟩ | ⟨_, x, hx, halike⟩ := h.symm.find? hf'
      · cases hf.symm.trans hfound
      · exact halike.zeroAfter hB hdata hfamilies hs hx

theorem Equation.Alike.sameAfter {q q' : Equation ℚ} (h : q.Alike B.foreseen q') :
    q.SameAfter s q' :=
  ⟨h.label, h.base, h.index, h.second, h.op,
    h.coefficients.sameCoefficient hB hdata hfamilies hs,
    h.constant.sameAfter hB hdata hfamilies hs⟩

theorem Objective.Alike.sameAfter {o o' : Objective ℚ} (h : o.Alike B.foreseen o') :
    o.SameAfter s o' :=
  ⟨h.sense, h.name, h.coefficients.sameCoefficient hB hdata hfamilies hs,
    h.constant.sameAfter hB hdata hfamilies hs⟩

end Stores

/-- A rule that is expanded twice, or a model that is built twice, after whatever reads, gives
equations with the same names, relations, coefficients and constants. A variable that is missing in
one of them has a coefficient that counts as zero. -/
theorem expansion_sameAfter {s s₁ s₂ : Store ℚ} (hs : s.registry.Consulted)
    (hfamilies : s.registry.invalidate.FamiliesAgree) (h₁ : Consults s s₁) (h₂ : Consults s s₂) :
    (∀ {R : Rule ℚ} {E E' : List (Equation ℚ)} {o o' : Table String (Origin ℚ)} {t₁ t₂ : Store ℚ},
      R.WellIndexed → (Statement.rule R).equations.Returns s₁ (E, o) t₁ →
        (Statement.rule R).equations.Returns s₂ (E', o') t₂ →
          List.Forall₂ (SameAfter s) E E') ∧
    ∀ {symbol : String} {stmts : List (Statement ℚ)} {m m' : Model ℚ} {t₁ t₂ : Store ℚ},
      (∀ stmt ∈ stmts, stmt.WellIndexed) →
        (Model.ofStatements symbol stmts).Returns s₁ m t₁ →
          (Model.ofStatements symbol stmts).Returns s₂ m' t₂ →
            List.Forall₂ (SameAfter s) m.equations m'.equations ∧
              Option.Rel (Objective.SameAfter s) m.objective m'.objective := by
  obtain ⟨hsound, hcurrent⟩ := hs.isSound_isCurrent
  have hB := isSound_invalidate hsound.toKeyed hsound.wellIndexed
  have hdata := isData_invalidate.2 hcurrent.isData
  have hup := upToDate_of_isCurrent hsound hcurrent
  have hup₁ := h₁.upToDate hB hdata hfamilies hup
  have hup₂ := h₂.upToDate hB hdata hfamilies hup
  refine ⟨fun hR hE hE' => ?_, fun {symbol stmts m m' _ _} hstmts hm hm' => ?_⟩
  · have halike := (Rule.equations_agrees hB hdata hfamilies hR hup₁ hup₂ hE hE').2.2
    exact halike.imp fun _ _ hq => hq.sameAfter hB hdata hfamilies hup
  · have halike := (Model.ofStatements_agrees hB hdata hfamilies _ hstmts hup₁ hup₂ hm hm').2.2
    refine ⟨halike.equations.imp fun _ _ hq => hq.sameAfter hB hdata hfamilies hup, ?_⟩
    have hobjective := halike.objective
    generalize m.objective = a, m'.objective = a' at hobjective ⊢
    cases hobjective with
    | none => exact .none
    | some ho => exact .some (ho.sameAfter hB hdata hfamilies hup)

/-- A parameter that is found to be zero when it is first needed, and two variables. -/
def lazyZero : List (Entity ℚ) :=
  [.parameter { symbol := "n", type := .int, value := some (.int 1) },
    .parameter { symbol := "p", type := .float
                 definition := some (.arith .sub (.name "n") (.num 1)) },
    .decisionVariable { symbol := "x", type := .float },
    .decisionVariable { symbol := "y", type := .float }]

/-- An objective, and a constraint in which the parameter weighs a variable. -/
def lazyStatements : List (Statement ℚ) :=
  [.goal { literal := "minimize y;", sense := .minimize, body := .var "y" "y" none },
    .rule (.single
      { literal := "c: p*x + y <= 1;", label := some "c"
        lhs := .arith .add (.arith .mul (.name "p") (.var "x" "x" none)) (.var "y" "y" none)
        op := .le
        rhs := .num 1 })]

theorem consulted_lazyZero : (lazyZero.foldl Registry.put {}).Consulted := by
  have hn := Consulted.empty.put (e := lazyZero[0]) (by simp [lazyZero, Entity.IsNew])
    (by decide +kernel) (by decide +kernel)
  have hp := hn.put (e := lazyZero[1]) (by simp [lazyZero, Entity.IsNew])
    (by decide +kernel) (by decide +kernel)
  have hx := hp.put (e := lazyZero[2]) trivial rfl (by decide +kernel)
  exact hx.put (e := lazyZero[3]) trivial rfl (by decide +kernel)

/-- The problem is built, written to a file, and built again. -/
def lazyRebuilt : Run ℚ (Model ℚ × Model ℚ) := do
  let model ← Model.ofStatements "Initial" lazyStatements
  let _ ← Mps.file { symbol := "Initial", statements := lazyStatements, model, isBuilt := true }
  let again ← Model.ofStatements "Initial" lazyStatements
  return (model, again)

/-- The second model lacks a variable of the first, and is the same otherwise. -/
theorem expansion_sameAfter_lazyZero : ∃ (s : Store ℚ) (m m' : Model ℚ), s.registry.Consulted ∧
    m.equations.map (·.coefficients.keys) = [["x", "y"]] ∧
    m'.equations.map (·.coefficients.keys) = [["y"]] ∧
    List.Forall₂ (SameAfter s) m.equations m'.equations := by
  have hrun : (lazyRebuilt.start ⟨lazyZero.foldl Registry.put {}, []⟩).1.toOption.map
      (fun p => (p.1.equations.map (·.coefficients.keys),
        p.2.equations.map (·.coefficients.keys))) =
        some ([["x", "y"]], [["y"]]) := by decide +kernel
  obtain ⟨⟨m, m'⟩, hsome, hkeys⟩ := Option.map_eq_some_iff.1 hrun
  obtain ⟨s', h⟩ := returns_of_toOption hsome
  obtain ⟨_, t, hm, h⟩ := returns_bind.1 h
  obtain ⟨_, u, hfile, h⟩ := returns_bind.1 h
  obtain ⟨_, _, hm', h⟩ := returns_bind.1 h
  obtain ⟨hpair, rfl⟩ := returns_pure.1 h
  obtain ⟨rfl, rfl⟩ := Prod.mk.inj hpair
  have hstmts : ∀ stmt ∈ lazyStatements, stmt.WellIndexed := by
    simp only [lazyStatements, List.forall_mem_cons]
    refine ⟨?_, ?_, by simp⟩
    · simp only [Statement.WellIndexed, Expr.Indexed]
    · rintro c ⟨⟩
      simp only [Expr.Indexed, and_self]
  have hread : Consults ⟨lazyZero.foldl Registry.put {}, []⟩ u :=
    .read (.read .refl (.build "Initial" hstmts) hm) (.exchange _) hfile
  obtain ⟨hx, hy⟩ := Prod.mk.inj hkeys
  exact ⟨_, _, _, consulted_lazyZero, hx, hy, ((expansion_sameAfter consulted_lazyZero
    (familiesAgree_of_outer (by decide +kernel)) .refl hread).2 hstmts hm hm').1⟩

end LinearModel
