import LinearModel.Proofs.Substitution
import LinearModel.Proofs.Reached

/-!
# The value of a substituted expression

Substitution replaces iterators by what they are bound to, writes summations out, and resolves
records and the indices of variables. The expression that it gives is evaluated without any
bindings, to the number that the original has with them.

Substitution and evaluation both fill the registry. They are made one after the other, in either
order, and the substituted expression is evaluated in the registry that they leave. Made apart, each
from the same registry, they need not agree: the members of a family are kept by outer index, and of
two indices that compare equal the one that comes first decides.
-/
namespace LinearModel

open Run

section Substituted

variable {K : Type} [Scalar K]

/-- Replace the iterators of an environment, where names are looked up in the registry at hand. -/
def Expr.substituted (e : Expr K) (env : Env K) : Run K (Expr K) := do
  e.substitute (← Run.lookup) env

theorem through_substitute (e : Expr K) (a : Env K) : Through fun L => e.substitute L a :=
  ⟨fun h => Simulation.exprSubstitute h trivial e (.refl a),
    fun h => Simulation.exprSubstitute h trivial e (.refl a)⟩

theorem through_value (e : Expr K) (a : Env K) : Through fun L => e.value L a :=
  ⟨fun h => Simulation.exprValue h e (.refl a), fun h => Simulation.exprValue h e (.refl a)⟩

variable [ReflBEq (Value K)] (e : Expr K) (a : Env K)

theorem substituted_keeps : (e.substituted a).Keeps (e.substituted a) :=
  (through_substitute e a).keeps_lookup

theorem evaluateValue_keeps : (e.evaluateValue a).Keeps (e.evaluateValue a) :=
  (through_value e a).keeps_lookup

end Substituted

namespace Run

variable {K α β : Type} {x : Run K α} {y : Run K β} {a : α} {b : β} {s s' : Store K}

/-- Two computations, made one after the other in either order, return two values. -/
def BothReturn (x : Run K α) (y : Run K β) (s : Store K) (a : α) (b : β) (s' : Store K) : Prop :=
  ∃ s₁, x.Returns s a s₁ ∧ y.Returns s₁ b s' ∨ y.Returns s b s₁ ∧ x.Returns s₁ a s'

/-- What both computations return is still given in the registry that they leave. -/
theorem BothReturn.gives (hx : x.Keeps x) (hy : y.Keeps y) (hs : s.registry.Keyed)
    (h : BothReturn x y s a b s') :
    s'.registry.Keyed ∧ x.Gives s'.registry a ∧ y.Gives s'.registry b := by
  obtain ⟨s₁, ⟨ha, hb⟩ | ⟨hb, ha⟩⟩ := h
  · obtain ⟨hkept, hgives⟩ := hx hs ha
    obtain ⟨hkept', hgives'⟩ := hy (hs.kept hkept) hb
    exact ⟨(hs.kept hkept).kept hkept', hgives hkept', hgives' (.refl _)⟩
  · obtain ⟨hkept, hgives⟩ := hy hs hb
    obtain ⟨hkept', hgives'⟩ := hx (hs.kept hkept) ha
    exact ⟨(hs.kept hkept).kept hkept', hgives' (.refl _), hgives hkept'⟩

end Run

variable {e n : Expr ℚ} {env : Env ℚ} {t : Registry ℚ}

/-- Where an expression is substituted, what it was substituted from has the same value. -/
theorem Expr.substituted_refines (ht : t.Keyed) (hn : (e.substituted env).Gives t n) :
    Refines t (t.size + familyDepth) env env.spawn e n := by
  have hknown := ((through_substitute e env).gives_iff ht).1 (gives_lookup.1 hn)
  exact (Expr.substitute_sound ht e hknown).refines (.refl env)

theorem gives_evaluate_substituted (ht : t.Keyed) (hn : (e.substituted env).Gives t n) {x : ℚ}
    (hx : (e.evaluate env).Gives t x) : (n.evaluate env.spawn).Gives t x := by
  rw [gives_evaluate _ _ ht] at hx ⊢
  exact (Expr.substituted_refines ht hn).number hx

theorem gives_evaluateValue_substituted (ht : t.Keyed) (hn : (e.substituted env).Gives t n)
    {v : Value ℚ} (hv : (e.evaluateValue env).Gives t v) :
    ∃ w, (n.evaluateValue env.spawn).Gives t w ∧ w.normalize = v.normalize := by
  have hknown := ((through_value e env).gives_iff ht).1 (gives_lookup.1 hv)
  obtain ⟨w, hw, hsame⟩ := Expr.substituted_refines ht hn v hknown
  exact ⟨w, gives_lookup.2 (((through_value n env.spawn).gives_iff ht).2 hw), hsame⟩

/-- An expression whose iterators have been replaced has the value without them that the expression
has in their environment: the same number, and the same element. -/
theorem substituted_value {s s' : Store ℚ} (hs : s.registry.Keyed) :
    (∀ x, BothReturn (e.substituted env) (e.evaluate env) s n x s' →
      (n.evaluate env.spawn).Gives s'.registry x) ∧
    (∀ v, BothReturn (e.substituted env) (e.evaluateValue env) s n v s' →
      ∃ w, (n.evaluateValue env.spawn).Gives s'.registry w ∧ w.normalize = v.normalize) := by
  constructor
  · intro x h
    obtain ⟨hs', hn, hx⟩ := h.gives (substituted_keeps e env) (evaluate_keeps e env) hs
    exact gives_evaluate_substituted hs' hn hx
  · intro v h
    obtain ⟨hs', hn, hv⟩ := h.gives (substituted_keeps e env) (evaluateValue_keeps e env) hs
    exact gives_evaluateValue_substituted hs' hn hv

/-- Costs and quantities of three things. -/
def costModel : Run ℚ Unit := do
  let _ ← parseStatement false "range I = 1..3;"
  let _ ← parseStatement false "int p[I] = [4, 5, 6];"
  let _ ← parseStatement false "dvar float x[I];"

/-- The cost of one thing, and the total cost of the first two, whose iterator hides the one
outside. -/
def costAbove : Expr ℚ :=
  .arith .add (.param "p" [.name "i"])
    (.sum [.mk "i" (.named "I" none) (some (.rel .le (.name "i") (.num 2)))]
      (.arith .mul (.param "p" [.name "i"]) (.ivar "x" [.name "i"])) none)

/-- The third thing, and quantities of the first two. -/
def thirdThing : Env ℚ :=
  { frames := [("i", .int 3)], values := ⟨[("x1", .real 10), ("x2", .real 20)]⟩ }

theorem substituted_value_third : ∃ (s s' : Store ℚ) (n : Expr ℚ), s.registry.Reached ∧
    BothReturn (costAbove.substituted thirdThing) (costAbove.evaluate thirdThing) s n 146 s' ∧
    (n.evaluate thirdThing.spawn).Gives s'.registry 146 := by
  have hrun : ((do
      costModel
      let _ ← costAbove.substituted thirdThing
      costAbove.evaluate thirdThing : Run ℚ ℚ).start {}).1.toOption = some 146 := by
    decide +kernel
  obtain ⟨s', h⟩ := returns_of_toOption hrun
  obtain ⟨_, s, hmodel, h⟩ := returns_bind.1 h
  obtain ⟨n, s₁, hn, hx⟩ := returns_bind.1 h
  have hreached : s.registry.Reached := by
    simp only [costModel, returns_bind] at hmodel
    obtain ⟨_, _, hI, _, _, hp, _, _, hx, hlast⟩ := hmodel
    obtain ⟨_, rfl⟩ := returns_pure.1 hlast
    exact .read (.read (.read .empty hI) hp) hx
  have hboth : BothReturn (costAbove.substituted thirdThing) (costAbove.evaluate thirdThing) s n 146
      s' := ⟨s₁, .inl ⟨hn, hx⟩⟩
  exact ⟨s, s', n, hreached, hboth, (substituted_value hreached.isSound.toKeyed).1 146 hboth⟩

end LinearModel
