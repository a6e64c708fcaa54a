import LinearModel.Proofs.Reached
import LinearModel.Problem

/-!
# Work on a problem

Work on a problem reads statements, assigns data and builds the model. The lemmas here take it apart
into computations on the registry of the problem and into changes of the problem itself.
-/
namespace LinearModel

open Work

variable {K : Type} {α β : Type} {w w' : Workspace K} {x : Work K α} {f : Failure K} {a : α}
  {u : Unit} {textual : Bool} {text : String}

namespace Work

/-- The answer of work, and the workspace it leaves. -/
def carry (x : Work K α) (w : Workspace K) : Except (Failure K) α × Workspace K :=
  StateT.run (ExceptT.run x) w

/-- Work, begun in a workspace, returns a value and leaves a workspace. -/
def Returns (x : Work K α) (w : Workspace K) (a : α) (w' : Workspace K) : Prop :=
  x.carry w = (.ok a, w')

/-- Work, begun in a workspace, fails and leaves a workspace. -/
def Fails (x : Work K α) (w : Workspace K) (f : Failure K) (w' : Workspace K) : Prop :=
  x.carry w = (.error f, w')

theorem carry_bind (x : Work K α) (f : α → Work K β) (w : Workspace K) :
    (x >>= f).carry w = match x.carry w with
      | (.ok a, w') => (f a).carry w'
      | (.error e, w') => (.error e, w') := by
  simp only [carry, ExceptT.run_bind, StateT.run_bind]
  cases h : StateT.run (ExceptT.run x) w with
  | mk o w' => cases o <;> rfl

@[simp] theorem carry_pure (a : α) (w : Workspace K) : (pure a : Work K α).carry w = (.ok a, w) :=
  rfl

@[simp] theorem carry_throw (e : Failure K) (w : Workspace K) :
    (throw e : Work K α).carry w = (.error e, w) := rfl

@[simp] theorem carry_problem (w : Workspace K) :
    (problem : Work K _).carry w = (.ok w.problem, w) :=
  rfl

@[simp] theorem carry_setProblem (p : Problem K) (w : Workspace K) :
    (setProblem p).carry w = (.ok (), { w with problem := p }) := rfl

theorem carry_ofRun (x : Run K α) (w : Workspace K) :
    (ofRun x).carry w = match x.start ⟨w.problem.registry, w.warnings⟩ with
      | (o, s') => (o, ⟨{ w.problem with registry := s'.registry }, s'.warnings⟩) := rfl

@[simp] theorem returns_pure {a b : α} : (pure a : Work K α).Returns w b w' ↔ a = b ∧ w = w' := by
  simp [Returns]

theorem returns_bind {f : α → Work K β} {b : β} :
    (x >>= f).Returns w b w' ↔ ∃ a w₁, x.Returns w a w₁ ∧ (f a).Returns w₁ b w' := by
  simp only [Returns, carry_bind]
  cases h : x.carry w with
  | mk o w₁ =>
    cases o with
    | ok a =>
      constructor
      · intro hb
        exact ⟨a, w₁, rfl, hb⟩
      · rintro ⟨c, w₂, hc, hb⟩
        cases hc
        exact hb
    | error e => simp

theorem fails_bind {g : α → Work K β} : (x >>= g).Fails w f w' ↔
      x.Fails w f w' ∨ ∃ a w₁, x.Returns w a w₁ ∧ (g a).Fails w₁ f w' := by
  simp only [Fails, Returns, carry_bind]
  cases x.carry w with
  | mk o w₁ => cases o <;> simp

@[simp] theorem not_returns_throw {e : Failure K} : ¬ (throw e : Work K α).Returns w a w' := by
  simp [Returns]

@[simp] theorem returns_problem {p : Problem K} :
    (problem : Work K _).Returns w p w' ↔ w.problem = p ∧ w = w' := by
  simp [Returns]

theorem returns_problem_bind {f : Problem K → Work K α} :
    (problem >>= f).Returns w a w' ↔ (f w.problem).Returns w a w' := by
  simp [returns_bind]

@[simp] theorem returns_setProblem {p : Problem K} :
    (setProblem p).Returns w u w' ↔ { w with problem := p } = w' := by
  simp [Returns]

/-- Work returns at most one value. -/
theorem Returns.unique {w₁ w₂ : Workspace K} {a b : α} (h₁ : x.Returns w a w₁)
    (h₂ : x.Returns w b w₂) : a = b ∧ w₁ = w₂ := by
  have h : (Except.ok a, w₁) = (Except.ok b, w₂) := h₁.symm.trans h₂
  simpa using h

/-- A computation on the registry of the problem changes nothing else of it. -/
theorem returns_ofRun {x : Run K α} :
    (ofRun x).Returns w a w' ↔ ∃ s', x.Returns ⟨w.problem.registry, w.warnings⟩ a s' ∧
      w' = ⟨{ w.problem with registry := s'.registry }, s'.warnings⟩ := by
  simp only [Returns, Run.Returns, carry_ofRun]
  cases x.start ⟨w.problem.registry, w.warnings⟩ with
  | mk o s' =>
    simp only [Prod.mk.injEq]
    constructor
    · rintro ⟨rfl, rfl⟩
      exact ⟨s', ⟨rfl, rfl⟩, rfl⟩
    · rintro ⟨_, ⟨rfl, rfl⟩, rfl⟩
      exact ⟨rfl, rfl⟩

theorem fails_ofRun {x : Run K α} :
    (ofRun x).Fails w f w' ↔ ∃ s', x.Fails ⟨w.problem.registry, w.warnings⟩ f s' ∧
      w' = ⟨{ w.problem with registry := s'.registry }, s'.warnings⟩ := by
  simp only [Fails, Run.Fails, carry_ofRun]
  cases x.start ⟨w.problem.registry, w.warnings⟩ with
  | mk o s' =>
    simp only [Prod.mk.injEq]
    constructor
    · rintro ⟨rfl, rfl⟩
      exact ⟨s', ⟨rfl, rfl⟩, rfl⟩
    · rintro ⟨_, ⟨rfl, rfl⟩, rfl⟩
      exact ⟨rfl, rfl⟩

variable [Scalar K]

/-- Adding a statement reads it, and then enters it. -/
theorem addStatement_steps {stmt : Statement K}
    (h : (addStatement textual text).Returns w stmt w') :
    ∃ w₁ p, (ofRun (parseStatement textual text)).Returns w stmt w₁ ∧
      w₁.problem.add stmt = .ok p ∧ w' = ⟨p, w₁.warnings⟩ := by
  obtain ⟨stmt', w₁, hread, h⟩ := returns_bind.1 h
  replace h := returns_problem_bind.1 h
  split at h
  · rename_i p' hadd
    obtain ⟨_, w₃, hset, h⟩ := returns_bind.1 h
    obtain rfl := returns_setProblem.1 hset
    obtain ⟨rfl, rfl⟩ := returns_pure.1 h
    exact ⟨w₁, p', hread, hadd, rfl⟩
  · exact absurd h not_returns_throw

/-- A statement that is added becomes the last one. -/
theorem returns_addStatement {stmt : Statement K}
    (h : (addStatement textual text).Returns w stmt w') :
    ∃ s', (parseStatement textual text).Returns ⟨w.problem.registry, w.warnings⟩ stmt s' ∧
      w'.problem.registry = s'.registry ∧
        w'.problem.statements = w.problem.statements ++ [stmt] := by
  obtain ⟨w₁, p, hread, hadd, rfl⟩ := addStatement_steps h
  obtain ⟨s', hs', rfl⟩ := returns_ofRun.1 hread
  unfold Problem.add at hadd
  split at hadd
  · cases hadd
  · cases hadd
    exact ⟨s', hs', rfl, rfl⟩

/-- Building a model goes through the statements of the problem, and changes only its model. -/
theorem returns_build (h : build.Returns w u w') :
    ∃ m s', (Model.ofStatements w.problem.symbol w.problem.statements).Returns
        ⟨w.problem.registry, w.warnings⟩ m s' ∧
      w'.problem = { w.problem with registry := s'.registry, model := m, isBuilt := true } := by
  replace h := returns_problem_bind.1 h
  obtain ⟨m, w₂, hm, h⟩ := returns_bind.1 h
  obtain ⟨s', hs', rfl⟩ := returns_ofRun.1 hm
  obtain ⟨p', w₃, hp', h⟩ := returns_bind.1 h
  obtain ⟨rfl, rfl⟩ := returns_problem.1 hp'
  obtain rfl := returns_setProblem.1 h
  exact ⟨m, s', hs', rfl⟩

/-- A build that fails changes nothing but the registry of the problem. -/
theorem fails_build (h : build.Fails w f w') :
    ∃ s', (Model.ofStatements w.problem.symbol w.problem.statements).Fails
        ⟨w.problem.registry, w.warnings⟩ f s' ∧
      w' = ⟨{ w.problem with registry := s'.registry }, s'.warnings⟩ := by
  obtain h | ⟨p, w₁, hp, h⟩ := fails_bind.1 h
  · cases h
  · obtain ⟨rfl, rfl⟩ := returns_problem.1 hp
    obtain h | ⟨m, w₂, _, h⟩ := fails_bind.1 h
    · exact fails_ofRun.1 h
    · cases h

end Work

/-- The problems that work leads to: reading statements, assigning data, evaluating and building. -/
inductive Problem.Reached [Scalar K] : Problem K → Prop
  | start (name file description : Option String) : Reached (Problem.start name file description)
  | added {w w' : Workspace K} {textual : Bool} {text : String} {stmt : Statement K}
      (hw : Reached w.problem) (h : (addStatement textual text).Returns w stmt w') :
      Reached w'.problem
  | data {w w' : Workspace K} {x : Run K Unit} (hw : Reached w.problem) (hx : IsDataOperation x)
      (h : (ofRun x).Returns w () w') : Reached w'.problem
  | evaluated {w w' : Workspace K} {e : Expr K} {env : Env K} {v : Value K}
      (hw : Reached w.problem) (h : (ofRun (e.evaluateValue env)).Returns w v w') :
      Reached w'.problem
  | built {w w' : Workspace K} (hw : Reached w.problem) (h : build.Returns w () w') :
      Reached w'.problem

/-- A workspace with a problem without statements. -/
def blankWorkspace : Workspace K := { problem := .start none none none }

/-- Reading a script leads from one problem that is reached to another. -/
theorem Problem.Reached.script [Scalar K]
    (hw : w.problem.Reached) (h : (addScript textual text).Returns w u w') :
    w'.problem.Reached := by
  have hread : ∀ (texts : List String) {w : Workspace K}, w.problem.Reached →
      (texts.forM fun t => do let _ ← addStatement textual t : Work K Unit).Returns w u w' →
        w'.problem.Reached := by
    intro texts
    induction texts with
    | nil =>
      intro w hw h
      obtain ⟨_, rfl⟩ := returns_pure.1 h
      exact hw
    | cons t texts ih =>
      intro w hw h
      obtain ⟨_, w₁, hfirst, h⟩ := returns_bind.1 h
      obtain ⟨stmt, w₂, hadded, hpure⟩ := returns_bind.1 hfirst
      obtain ⟨_, rfl⟩ := returns_pure.1 hpure
      exact ih (.added hw hadded) h
  exact hread _ hw h

theorem Work.returns_carry (h : (x.carry w).1.toOption = some a) : x.Returns w a (x.carry w).2 := by
  cases hx : (x.carry w).1 with
  | error e => simp [hx, Except.toOption] at h
  | ok b =>
    obtain rfl : b = a := by simpa [hx, Except.toOption] using h
    exact Prod.ext hx rfl

theorem Work.fails_carry (h : (x.carry w).1.toOption = none) : ∃ f, x.Fails w f (x.carry w).2 := by
  cases hx : (x.carry w).1 with
  | error f => exact ⟨f, Prod.ext hx rfl⟩
  | ok a => simp [hx, Except.toOption] at h

theorem Work.returns_of_toOption (h : (x.carry w).1.toOption = some a) : ∃ w', x.Returns w a w' :=
  ⟨_, returns_carry h⟩

/-! ## Two readings of a text -/

/-- The constants of the equations of a model. -/
def equationConstants (textual : Bool) (text : String) : Work ℚ (List ℚ) := do
  Work.read textual true text
  let p ← Work.problem
  p.model.equations.mapM fun q => Work.ofRun (q.constant.evaluate Env.empty)

/-- A number that is divided by a sum over a single element. -/
def loneDivisor : String := "range I = 2..2; dvar float x; c: x <= 12 / sum(i in I) i*3;"

/-- Reading a text with its sums written out may give another model. A sum over a single element is
written out without brackets, so the number is divided by the first factor of the term only. -/
theorem loneDivisor_read_differently :
    ((equationConstants true loneDivisor).carry blankWorkspace).1.toOption = some [18] ∧
      ((equationConstants false loneDivisor).carry blankWorkspace).1.toOption = some [2] := by
  constructor <;> decide +kernel

end LinearModel
