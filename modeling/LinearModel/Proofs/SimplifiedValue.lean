import LinearModel.Proofs.Simplification
import LinearModel.Proofs.SubstitutedValue

/-!
# The value of a simplified expression

Without a registry, simplification only folds what stands in the expression, and the number that it
evaluates to stays the same in every environment. With a registry, the values of parameters are put
in their place. The number stays the same where no binding hides a parameter, and where no parameter
is referred to by an empty index under which it holds a value of its own.

Evaluation fills the registry, so the two expressions are evaluated one after the other.
-/
namespace LinearModel

open Run

theorem Run.BothReturn.keptIn {K α β : Type} {x : Run K α} {y : Run K β} {a : α} {b : β}
    {s s' : Store K} (hx : x.Keeps x) (hy : y.Keeps y) (hs : s.registry.Keyed)
    (h : BothReturn x y s a b s') : s.registry.KeptIn s'.registry := by
  obtain ⟨s₁, ⟨ha, hb⟩ | ⟨hb, ha⟩⟩ := h
  · have hkept := (hx hs ha).1
    exact hkept.trans (hy (hs.kept hkept) hb).1
  · have hkept := (hy hs hb).1
    exact hkept.trans (hx (hs.kept hkept) ha).1

namespace Expr

variable {e n : Expr ℚ} {env : Env ℚ} {s : Store ℚ}

/-- After the first expression has been evaluated to a number, the second one evaluates to it as
well. Evaluated before the first, it evaluates to no other number. -/
structure SameNumber (s : Store ℚ) (env : Env ℚ) (e n : Expr ℚ) : Prop where
  gives : ∀ {x s'}, (e.evaluate env).Returns s x s' → (n.evaluate env).Gives s'.registry x
  eq : ∀ {x y s'}, BothReturn (e.evaluate env) (n.evaluate env) s x y s' → x = y

theorem SameNumber.of_refines (hs : s.registry.Keyed)
    (h : ∀ {t m}, s.registry.KeptIn t → Refines t m env env e n) : SameNumber s env e n := by
  have hnumber : ∀ {t x}, s.registry.KeptIn t → (e.evaluate env).Gives t x →
      (n.evaluate env).Gives t x := by
    intro t x hkept hx
    rw [gives_evaluate _ _ (hs.kept hkept)] at hx ⊢
    exact (h hkept).number hx
  constructor
  · intro x s' hx
    obtain ⟨hkept, hgives⟩ := evaluate_keeps e env hs hx
    exact hnumber hkept (hgives (.refl _))
  · intro x y s' hboth
    have hkept := hboth.keptIn (evaluate_keeps e env) (evaluate_keeps n env) hs
    obtain ⟨_, hx, hy⟩ := hboth.gives (evaluate_keeps e env) (evaluate_keeps n env) hs
    exact (hnumber hkept hx).unique hy

end Expr

/-- Simplification keeps the number that an expression evaluates to: without a registry in every
environment, and with one wherever no parameter is hidden or read under the empty index. -/
theorem simplified_value {s : Store ℚ} (hs : s.registry.Keyed) (e n : Expr ℚ) (env : Env ℚ) :
    (e.simplify none = .ok n → e.SameNumber s env n) ∧
    (s.registry.Reached → (∀ p, s.registry.params.contains p = true → env.get? p = none) →
      Expr.Unambiguous (some s.registry) e.scalarEntries →
      e.simplify (some s.registry) = .ok n → e.SameNumber s env n) := by
  constructor
  · intro hn
    exact .of_refines hs fun _ => Expr.refines_simplify e (.of_none _ env) (fun _ _ => rfl) hn
  · intro hreached hfree hunambiguous hn
    refine .of_refines hs fun hkept => ?_
    exact Expr.refines_simplify e (.of_some hreached.isSound.toTidy hkept hfree) hunambiguous hn

/-- Prices and quantities of three things, and a number of them. -/
def pricedModel : Run ℚ Unit := do
  let _ ← parseStatement false "range I = 1..3;"
  let _ ← parseStatement false "int n = 2;"
  let _ ← parseStatement false "int p[I] = [4, 5, 6];"
  let _ ← parseStatement false "dvar float x[I];"

/-- A number of things at one price, written as a negation that is subtracted, and the cost of the
first things. -/
def negatedPrice : Expr ℚ :=
  .arith .add
    (.arith .sub (.num 0) (.neg (.arith .mul (.name "n") (.param "p" [.name "k"]))))
    (.sum [.mk "i" (.named "I" none) (some (.rel .le (.name "i") (.name "n")))]
      (.arith .mul (.num 1) (.arith .mul (.param "p" [.name "i"]) (.ivar "x" [.name "i"]))) none)

/-- The last thing, and quantities of the first ones. -/
def lastThing : Env ℚ :=
  { frames := [("k", .int 3)], values := ⟨[("x1", .real 10), ("x2", .real 20)]⟩ }

theorem simplified_value_negatedPrice : ∃ (s s' : Store ℚ) (n n' : Expr ℚ), s.registry.Reached ∧
    negatedPrice.simplify none = .ok n ∧
    n.literal = "n * p[k] + sum(i in I: i <= n) (p[i] * x[i])" ∧
    negatedPrice.simplify (some s.registry) = .ok n' ∧
    n'.literal = "2 * p[k] + sum(i in I: i <= n) (p[i] * x[i])" ∧
    (negatedPrice.evaluate lastThing).Returns s 152 s' ∧
    (n.evaluate lastThing).Gives s'.registry 152 ∧
    (n'.evaluate lastThing).Gives s'.registry 152 := by
  have hrun : ((do
      pricedModel
      let r ← Run.registry
      let n ← Run.ofExcept (negatedPrice.simplify none)
      let n' ← Run.ofExcept (negatedPrice.simplify (some r))
      let x ← negatedPrice.evaluate lastThing
      return (n.literal, n'.literal, r.params.contains "k", x) :
        Run ℚ (String × String × Bool × ℚ)).start {}).1.toOption =
      some ("n * p[k] + sum(i in I: i <= n) (p[i] * x[i])",
        "2 * p[k] + sum(i in I: i <= n) (p[i] * x[i])", false, 152) := by
    decide +kernel
  obtain ⟨s', h⟩ := returns_of_toOption hrun
  simp only [returns_bind, returns_registry, returns_ofExcept, returns_pure, Prod.mk.injEq] at h
  obtain ⟨_, s, hmodel, _, _, ⟨rfl, rfl⟩, n, _, ⟨hn, rfl⟩, n', _, ⟨hn', rfl⟩, x, s', hx,
    ⟨hliteral, hliteral', hk, rfl⟩, rfl⟩ := h
  have hreached : s.registry.Reached := by
    simp only [pricedModel, returns_bind] at hmodel
    obtain ⟨_, _, hI, _, _, hcount, _, _, hprices, _, _, hvars, hlast⟩ := hmodel
    obtain ⟨_, rfl⟩ := returns_pure.1 hlast
    exact .read (.read (.read (.read .empty hI) hcount) hprices) hvars
  have hfree : ∀ p, s.registry.params.contains p = true → lastThing.get? p = none := by
    intro p hp
    have hne : "k" ≠ p := by
      rintro rfl
      simp [hk] at hp
    simp [Env.get?, lastThing, hne]
  have hsame := simplified_value hreached.isSound.toKeyed negatedPrice
  refine ⟨s, s', n, n', hreached, hn, hliteral, hn', hliteral', hx,
    ((hsame n lastThing).1 hn).gives hx, ((hsame n' lastThing).2 hreached hfree ?_ hn').gives hx⟩
  simp [Expr.Unambiguous, negatedPrice, Expr.scalarEntries, Expr.allScalarEntries]

end LinearModel
