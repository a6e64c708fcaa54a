import LinearModel.Proofs.LinearForm
import LinearModel.Equation

/-!
# Satisfied equations and true comparisons

Whether two sides stand in a relation depends on their difference only, so that terms may be moved
from one side to the other. A comparison of two expressions decides the relation between the numbers
they evaluate to, and an equation the one between what its coefficients add up to and its constant.
-/
namespace LinearModel

open Run Equation

variable {t : Registry ℚ} {σ : Assignment} {x y z : ℚ}

/-! ## Relations between numbers -/

theorem Scalar.abs_rat (x : ℚ) : Scalar.abs x = |x| := by
  simp only [Scalar.abs, Scalar.lt_rat, Scalar.zero_rat, decide_eq_true_eq]
  split
  · rw [abs_of_neg ‹_›]
  · rw [abs_of_nonneg (not_lt.1 ‹_›)]

/-- Terms may be moved from one side to the other. -/
theorem Equation.relates_congr (op : RelOp) {x y x' y' : ℚ} (h : x - y = x' - y') :
    relates op x y = relates op x' y' := by
  cases op with
  | eq => simp only [relates, h]
  | _ =>
    simp only [relates, Scalar.lt_rat, Scalar.le_rat, decide_eq_decide]
    constructor <;> intro _ <;> linarith

namespace Number

/-- A number, whichever way it is held. -/
def toRat : Number ℚ → ℚ
  | .int i => i
  | .real x => x

theorem lt_eq (n : Number ℚ) (y : ℚ) : n.lt y = decide (n.toRat < y) := by
  cases n <;> rfl

theorem gt_eq (n : Number ℚ) (y : ℚ) : n.gt y = decide (y < n.toRat) := by
  cases n <;> rfl

theorem intEq_rat (i : Int) (y : ℚ) : Scalar.intEq i y = decide ((i : ℚ) = y) := by
  rw [Bool.eq_iff_iff]
  simp only [Scalar.intEq, beq_iff_eq, Scalar.toInt?_rat, decide_eq_true_eq]
  exact eq_comm

theorem le_eq (n : Number ℚ) (y : ℚ) : n.le y = decide (n.toRat ≤ y) := by
  cases n with
  | int i =>
    rw [Bool.eq_iff_iff]
    simp only [le, Scalar.intLt, Scalar.toRat?, intEq_rat, Bool.or_eq_true, decide_eq_true_eq]
    exact le_iff_lt_or_eq.symm
  | real x => rfl

theorem ge_eq (n : Number ℚ) (y : ℚ) : n.ge y = decide (y ≤ n.toRat) := by
  cases n with
  | int i =>
    rw [Bool.eq_iff_iff]
    simp only [ge, Scalar.intGt, Scalar.toRat?, intEq_rat, Bool.or_eq_true, decide_eq_true_eq]
    exact (le_iff_lt_or_eq.trans (or_congr_right eq_comm)).symm
  | real x => rfl

theorem shift_eq (n : Number ℚ) (d : ℚ) : n.shift d = .ok (n.toRat + d) := by
  cases n <;> rfl

/-- No whole number but zero is within the tolerance of zero. -/
theorem isZero_eq (n : Number ℚ) : n.isZero = Scalar.isZero n.toRat := by
  cases n with
  | int i =>
    rw [Bool.eq_iff_iff]
    simp only [isZero, Scalar.isZero, toRat, Scalar.abs_rat, Scalar.lt_rat, decide_eq_true_eq]
    constructor
    · rintro rfl
      simp [Scalar.epsilon]
    · intro h
      have hone : |(i : ℚ)| < 1 := h.trans (by norm_num [Scalar.epsilon])
      exact Int.abs_lt_one_iff.1 (by exact_mod_cast hone)
  | real x => rfl

theorem sub_isZero (a b : Number ℚ) :
    (a.sub b).map isZero = .ok (Scalar.isZero (a.toRat - b.toRat)) := by
  cases a <;> cases b <;>
    simp only [sub, scalarOfInt_rat, Except.map, isZero_eq, toRat, Int.cast_sub]

/-- Numbers are compared by the relation between the sides of an equation. -/
theorem compare_eq_relates {op : RelOp} (hop : op.relatesSides = true) (a b : Number ℚ) :
    Number.compare op a b = .ok (relates op a.toRat b.toRat) := by
  cases op with
  | eq => exact sub_isZero a b
  | ne => cases hop
  | lt => simp only [Number.compare, shift_eq, Except.map, lt_eq, relates, Scalar.lt_rat,
      ← sub_eq_add_neg]
  | le => simp only [Number.compare, shift_eq, Except.map, le_eq, relates, Scalar.le_rat]
  | gt => simp only [Number.compare, shift_eq, Except.map, gt_eq, relates, Scalar.lt_rat]
  | ge => simp only [Number.compare, shift_eq, Except.map, ge_eq, relates, Scalar.le_rat,
      ← sub_eq_add_neg]

end Number

/-- The number that a scalar value is compared as. -/
theorem Value.number?_of_scalar? {v : Value ℚ} (h : v.scalar? = some x) :
    ∃ n, v.number? = some n ∧ n.toRat = x := by
  cases v with
  | bool b => exact ⟨_, rfl, by simpa [Number.toRat, scalar?] using h⟩
  | int i | real u => exact ⟨_, rfl, Option.some.inj h⟩
  | _ => simp [scalar?] at h

theorem Value.compare_eq_relates {op : RelOp} (hop : op.relatesSides = true) {v w : Value ℚ}
    (hv : v.scalar? = some x) (hw : w.scalar? = some y) :
    Value.compare op v w = .ok (relates op x y) := by
  rw [← Value.scalar?_normalize] at hv hw
  obtain ⟨a, ha, rfl⟩ := Value.number?_of_scalar? hv
  obtain ⟨b, hb, rfl⟩ := Value.number?_of_scalar? hw
  simp only [Value.compare, ha, hb]
  exact Number.compare_eq_relates hop a b

/-! ## Evaluation -/

/-- A comparison is one or zero, as its sides are in the relation or not. -/
theorem Expr.rel_evaluate {op : RelOp} (hop : op.relatesSides = true) (ht : t.Keyed)
    {l r : Expr ℚ} {a : Env ℚ} (hl : (l.evaluate a).Gives t x) (hr : (r.evaluate a).Gives t y) :
    ((Expr.rel op l r).evaluate a).Gives t (Scalar.ofBool (relates op x y)) := by
  rw [gives_evaluate _ _ ht] at hl hr ⊢
  obtain ⟨v, hv, hvx⟩ := gives_number.1 hl
  obtain ⟨w, hw, hwy⟩ := gives_number.1 hr
  have hcompare := Value.compare_eq_relates hop hvx hwy
  exact gives_number.2 ⟨_, gives_value_rel.2 ⟨v, w, _, hv, hw, hcompare, rfl⟩, rfl⟩

theorem Expr.sub_evaluate (ht : t.Keyed) {l r : Expr ℚ} {a : Env ℚ}
    (hl : (l.evaluate a).Gives t x) (hr : (r.evaluate a).Gives t y) :
    ((Expr.arith .sub l r).evaluate a).Gives t (x - y) := by
  rw [gives_evaluate _ _ ht] at hl hr ⊢
  exact gives_number.2 ⟨_, gives_value_arith.2 ⟨x, y, hl, hr, rfl⟩, rfl⟩

/-- The numbers of coefficients times the values of their variables add up to the total. -/
theorem Totals.products {cs : List (String × Expr ℚ)} (h : Totals (Expr.IsWorth t) σ cs z)
    (ht : t.Keyed) : ∃ xs ps, (evaluateCoefficients ⟨cs⟩).Gives t xs ∧
      (xs.mapM (product σ.values)).Gives t ps ∧ ps.sum = z := by
  simp only [evaluateCoefficients]
  induction h with
  | nil => exact ⟨[], [], gives_pure.2 rfl, gives_pure.2 rfl, rfl⟩
  | @cons n e x z cs he hn hcs ih =>
    obtain ⟨xs, ps, hxs, hps, rfl⟩ := ih
    obtain ⟨v, hv⟩ := hn
    obtain ⟨y, hy⟩ := σ.numeric hv
    have hnumber : σ.number n = y := by simp [Assignment.number, hv, hy]
    have hproduct : (product σ.values (n, x)).Gives t (x * y) := by
      simp only [product, hv, Value.scaleBy_of_scalar? x hy]
      exact gives_pure.2 rfl
    have hfirst : (do return (n, ← e.evaluate Env.empty) : Run ℚ (String × ℚ)).Gives t (n, x) :=
      (he.evaluate ht).bind (gives_pure.2 rfl)
    refine ⟨(n, x) :: xs, x * y :: ps, ?_, ?_, by rw [List.sum_cons, hnumber]⟩
    · rw [List.mapM_cons]
      exact hfirst.bind (hxs.bind (gives_pure.2 rfl))
    · rw [List.mapM_cons]
      exact hproduct.bind (hps.bind (gives_pure.2 rfl))

/-- An equation relates what its coefficients add up to and its constant. -/
theorem Equation.isSatisfied_gives {q : Equation ℚ} (ht : t.Keyed)
    (hcs : Totals (Expr.IsWorth t) σ q.coefficients.toList z) (hc : q.constant.IsWorth t x) :
    (q.isSatisfied σ.values).Gives t (relates q.op z x) := by
  obtain ⟨xs, ps, hxs, hps, rfl⟩ := hcs.products ht
  have hevaluate : q.evaluate.Gives t (xs, x) :=
    hxs.bind ((hc.evaluate ht).bind (gives_pure.2 rfl))
  refine hevaluate.bind (hps.bind (gives_pure.2 ?_))
  rw [List.sum_eq_foldl]
  rfl

end LinearModel
