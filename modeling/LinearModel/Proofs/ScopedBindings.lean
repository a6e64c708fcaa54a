import LinearModel.Proofs.Enumeration

/-!
# Scoped bindings

An enumeration may give each element an environment of its own, or bind them all in one environment
that it changes. In the second case a binding is released when the step that needs it is over,
whether that step returns or fails. Then both do the same, and the environment is left as it was.
-/
namespace LinearModel

variable {K : Type} {α : Type}

/-- The environment without its innermost binding. -/
def Env.release (env : Env K) : Env K := { env with frames := env.frames.tail }

/-- A computation in an environment that it may change. -/
abbrev InPlace (K : Type) := ExceptT (Failure K) (StateM (Env K × Store K))

namespace InPlace

/-- The answer of a computation, and the environment and the store it leaves. -/
def start (x : InPlace K α) (p : Env K × Store K) : Except (Failure K) α × Env K × Store K :=
  Id.run (StateT.run (ExceptT.run x) p)

/-- Ask something in the environment as it is. -/
def ask (f : Env K → Run K α) : InPlace K α :=
  ExceptT.mk fun p => (((f p.1).start p.2).1, p.1, ((f p.1).start p.2).2)

/-- Do something with a symbol bound. The binding is released afterwards, also after a failure. -/
def binding (symbol : String) (v : Value K) (x : InPlace K α) : InPlace K α := ExceptT.mk do
  modify fun p => (p.1.bind symbol v, p.2)
  let answer ← x.run
  modify fun p => (p.1.release, p.2)
  return answer

/-- Visit every combination of elements that passes the filters, with the bindings made in place. -/
def visit : List (Stage K) → InPlace K (List α) → InPlace K (List α)
  | [], last => last
  | st :: rest, last => do
    let vs ← ask st.elements
    let found ← vs.mapM fun v => binding st.symbol v do
      if ← ask st.admits then visit rest last else return []
    return found.flatten

/-- Do something for every combination of elements that passes the filters and the condition, with
the bindings made in place. -/
def enumerate (ss : List (Stage K)) (holds : Env K → Run K Bool) (each : Env K → Run K α) :
    InPlace K (List α) := do
  if maxIterators < (← ask fun env => pure env.depth) + ss.length then
    throw { cause := .tooManyIterators maxIterators }
  else visit ss (ask (Stage.harvest holds each))

@[simp] theorem start_ask (f : Env K → Run K α) (env : Env K) (s : Store K) :
    (ask f).start (env, s) = (((f env).start s).1, env, ((f env).start s).2) :=
  rfl

variable {β : Type}

theorem start_bind (x : InPlace K α) (f : α → InPlace K β) (p : Env K × Store K) :
    (x >>= f).start p = match x.start p with
      | (.ok a, q) => (f a).start q
      | (.error e, q) => (.error e, q) := by
  simp only [start, ExceptT.run_bind, StateT.run_bind]
  cases h : StateT.run (ExceptT.run x) p with
  | mk o q => cases o <;> rfl

/-- Computations are equal if they do the same wherever they start. -/
theorem ext {x y : InPlace K α} (h : ∀ p, x.start p = y.start p) : x = y :=
  ExceptT.ext (StateT.ext h)

theorem ask_bind (f : Env K → Run K α) (g : α → Env K → Run K β) :
    (ask f >>= fun a => ask (g a)) = ask fun env => f env >>= fun a => g a env := by
  refine ext ?_
  rintro ⟨env, s⟩
  rw [start_bind, start_ask, start_ask, Run.start_bind]
  cases (f env).start s with
  | mk o s' => cases o <;> rfl

theorem ask_pure (a : α) : (pure a : InPlace K α) = ask fun _ => pure a := rfl

theorem ask_mapM (g : α → Env K → Run K β) (as : List α) :
    (as.mapM fun a => ask (g a)) = ask fun env => as.mapM fun a => g a env := by
  induction as with
  | nil => rfl
  | cons a as ih =>
    simp only [List.mapM_cons, ih, ask_pure, ask_bind]

theorem binding_ask (symbol : String) (v : Value K) (f : Env K → Run K α) :
    binding symbol v (ask f) = ask fun env => f (env.bind symbol v) :=
  rfl

/-- A visit that makes its bindings in place answers as if each had an environment of its own, and
leaves the environment as it was. -/
theorem visit_ask (ss : List (Stage K)) (last : Env K → Run K (List α)) :
    visit ss (ask last) = ask (Stage.visit ss last) := by
  induction ss with
  | nil => rfl
  | cons st rest ih =>
    have hbranch : ∀ v, (binding st.symbol v (do
        if ← ask st.admits then visit rest (ask last) else return [])) =
          ask fun env => st.branch last rest env v := by
      intro v
      have hif : ∀ b : Bool, (if b then visit rest (ask last) else return []) =
          ask fun env => if b then Stage.visit rest last env else return [] := by
        intro b
        cases b with
        | true => exact ih
        | false => rfl
      simp only [hif, ask_bind, binding_ask]
      rfl
    simp only [visit, hbranch, ask_mapM]
    simp only [ask_pure, ask_bind]
    rfl

theorem enumerate_eq_ask (ss : List (Stage K)) (holds : Env K → Run K Bool)
    (each : Env K → Run K α) : enumerate ss holds each = ask (Stage.enumerate ss holds each) := by
  have hif : ∀ depth : Nat, (if maxIterators < depth + ss.length then
      throw { cause := .tooManyIterators maxIterators }
      else visit ss (ask (Stage.harvest holds each)) : InPlace K (List α)) =
        ask fun env => if maxIterators < depth + ss.length then
          Run.fail (.tooManyIterators maxIterators)
          else Stage.visit ss (Stage.harvest holds each) env := by
    intro depth
    split
    · rfl
    · exact visit_ask ss _
  simp only [enumerate, hif, ask_bind, pure_bind]
  rfl

end InPlace

end LinearModel
