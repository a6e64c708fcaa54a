import LinearModel.Proofs.Answer
import Mathlib.Algebra.Order.Field.Rat
import Mathlib.Tactic.Ring
import Mathlib.Tactic.Linarith
import Mathlib.Tactic.FieldSimp

/-!
# Exact arithmetic

Over the rational numbers a model is computed exactly, so that laws of arithmetic can be used on
it. A whole scalar and a whole number are then the same number in two forms, and evaluation does
not tell them apart.
-/
namespace LinearModel

open Value

variable {v w : Value ℚ} {x : ℚ}

open Run

/-- A rational number as a fraction, or as a whole number if it is one. -/
def ratText (x : ℚ) : String :=
  if x.den = 1 then intText x.num else intText x.num ++ "/" ++ natText x.den

/-- Models in exact arithmetic. Infinity is a number beyond the range of double precision. -/
instance : Scalar ℚ where
  ofInt i := i
  ofDecimal m e := m * 10 ^ e
  infinity := 2 ^ 1024
  undefined := 0
  epsilon := 1 / 10 ^ 10
  eq x y := decide (x = y)
  lt x y := decide (x < y)
  le x y := decide (x ≤ y)
  toRat? x := some x
  text := ratText
  exchangeText := ratText

namespace Scalar

@[simp] theorem zero_rat : (Scalar.zero : ℚ) = 0 := rfl

@[simp] theorem one_rat : (Scalar.one : ℚ) = 1 := rfl

@[simp] theorem ofInt_rat (i : Int) : (Scalar.ofInt i : ℚ) = i := rfl

@[simp] theorem eq_rat (x y : ℚ) : Scalar.eq x y = decide (x = y) := rfl

@[simp] theorem lt_rat (x y : ℚ) : Scalar.lt x y = decide (x < y) := rfl

@[simp] theorem le_rat (x y : ℚ) : Scalar.le x y = decide (x ≤ y) := rfl

theorem toInt?_rat {i : Int} : Scalar.toInt? x = some i ↔ x = i := by
  simp only [toInt?, toRat?]
  constructor
  · intro h
    split at h
    · rename_i hden
      obtain rfl : x.num = i := by simpa using h
      exact (Rat.den_eq_one_iff x).1 hden |>.symm
    · cases h
  · rintro rfl
    simp

@[simp] theorem toInt?_intCast (i : Int) : Scalar.toInt? (i : ℚ) = some i := toInt?_rat.2 rfl

end Scalar

@[simp] theorem scalarOfInt_rat (i : Int) : (scalarOfInt i : Except (Cause ℚ) ℚ) = .ok (i : ℚ) :=
  rfl

@[simp] theorem ArithOp.apply_add (x y : ℚ) : ArithOp.add.apply x y = x + y := rfl

@[simp] theorem ArithOp.apply_sub (x y : ℚ) : ArithOp.sub.apply x y = x - y := rfl

@[simp] theorem ArithOp.apply_mul (x y : ℚ) : ArithOp.mul.apply x y = x * y := rfl

@[simp] theorem ArithOp.apply_div (x y : ℚ) : ArithOp.div.apply x y = x / y := rfl

namespace Value

/-- The scalar that a value is, if it is a number. -/
def scalar? : Value ℚ → Option ℚ
  | .bool b => some (if b then 1 else 0)
  | .int i => some i
  | .real x => some x
  | _ => none

/-! ## Equality of values -/

mutual
theorem beq_refl : ∀ v : Value ℚ, beq v v = true
  | .null => rfl
  | .bool b => by cases b <;> rfl
  | .int i | .real x => by simp [beq, number?, Number.beq]
  | .str s => by simp [beq]
  | .record s vs | .seq vs | .list vs => by simp [beq, beqAll_refl vs]
  | .map ks vs => by simp [beq, beqAll_refl ks, beqAll_refl vs]

theorem beqAll_refl : ∀ vs : List (Value ℚ), beqAll vs vs = true
  | [] => rfl
  | v :: vs => by simp [beqAll, beq_refl v, beqAll_refl vs]
end

instance : ReflBEq (Value ℚ) := ⟨beq_refl _⟩

/-! ## Values as elements -/

/-- Two values that are the same as elements. -/
def Same (v w : Value ℚ) : Prop := v.normalize = w.normalize

theorem Same.refl (v : Value ℚ) : v.Same v := rfl

theorem Same.trans {u v w : Value ℚ} (h₁ : u.Same v) (h₂ : v.Same w) : u.Same w :=
  Eq.trans h₁ h₂

theorem Same.symm (h : v.Same w) : w.Same v := Eq.symm h

theorem same_normalize (v : Value ℚ) : v.normalize.Same v := normalize_normalize v

@[simp] theorem scalar?_normalize (v : Value ℚ) : v.normalize.scalar? = v.scalar? := by
  cases v with
  | bool b => cases b <;> rfl
  | real x =>
    cases hx : Scalar.toInt? x with
    | none => simp [normalize, hx]
    | some i =>
      obtain rfl := Scalar.toInt?_rat.1 hx
      simp [normalize, scalar?]
  | _ => rfl

theorem Same.scalar? (h : v.Same w) : v.scalar? = w.scalar? := by
  rw [← scalar?_normalize v, ← scalar?_normalize w, h]

/-- A value that is a number is the same element as its scalar. -/
theorem same_real (h : v.scalar? = some x) : v.Same (.real x) := by
  cases v with
  | bool b =>
    obtain rfl : (if b then 1 else 0 : ℚ) = x := by simpa [scalar?] using h
    cases b
    · simp [Same, normalize, Scalar.toInt?_rat.2 (show (0 : ℚ) = (0 : Int) by simp)]
    · simp [Same, normalize, Scalar.toInt?_rat.2 (show (1 : ℚ) = (1 : Int) by simp)]
  | int i =>
    obtain rfl : (i : ℚ) = x := by simpa [scalar?] using h
    simp [Same, normalize]
  | real y =>
    obtain rfl : y = x := by simpa [scalar?] using h
    rfl
  | _ => simp [scalar?] at h

/-- Two values that are the same number are the same element. -/
theorem same_of_scalar? (hv : v.scalar? = some x) (hw : w.scalar? = some x) : v.Same w :=
  (same_real hv).trans (same_real hw).symm

/-- A record is the same element as itself only. -/
theorem Same.eq_record {s : Schema} {vs : List (Value ℚ)} (h : v.Same (.record s vs)) :
    v = .record s vs := by
  cases v with
  | record s' vs' => exact h
  | real x => cases hx : Scalar.toInt? x <;> simp [Same, normalize, hx] at h
  | _ => simp [Same, normalize] at h

theorem compare_same {v' w w' : Value ℚ} (op : RelOp) (hv : v.Same v') (hw : w.Same w') :
    compare op v w = compare op v' w' := by
  simp only [compare, show v.normalize = v'.normalize from hv,
    show w.normalize = w'.normalize from hw]

theorem readScalar_of_scalar? (h : v.scalar? = some x) : v.readScalar = .ok x := by
  cases v with
  | bool b => cases b <;> simpa [scalar?, readScalar, Scalar.ofBool] using h
  | int i | real y => simpa [scalar?, readScalar] using h
  | _ => simp [scalar?] at h

theorem scaleBy_of_scalar? (c : ℚ) (h : v.scalar? = some x) : v.scaleBy c = .ok (c * x) := by
  cases v with
  | bool b =>
    obtain rfl : (if b then 1 else 0 : ℚ) = x := by simpa [scalar?] using h
    cases b <;> rfl
  | int i =>
    obtain rfl : (i : ℚ) = x := by simpa [scalar?] using h
    rfl
  | real y =>
    obtain rfl : y = x := by simpa [scalar?] using h
    rfl
  | _ => simp [scalar?] at h

end Value

namespace Expr

/-- A literal for a value is evaluated to the same element. -/
theorem ofValue_value {e : Expr ℚ} (h : ofValue v = .ok e) (L : Lookup ℚ) (env : Env ℚ) :
    ∃ w, e.value L env = pure w ∧ w.Same v := by
  cases v with
  | bool b =>
    cases h
    exact ⟨_, rfl, (same_normalize _).trans (same_real (by cases b <;> rfl)).symm⟩
  | int i =>
    cases h
    exact ⟨_, rfl, (same_normalize _).trans (same_real rfl).symm⟩
  | real x =>
    cases h
    exact ⟨_, rfl, same_normalize _⟩
  | str s | record s vs =>
    cases h
    exact ⟨_, rfl, .refl _⟩
  | _ => cases h

/-- An expression is a number when its value is one. -/
theorem gives_number {t : Registry ℚ} {m : Nat} {a : Env ℚ} {e : Expr ℚ} :
    (e.number (known m) a).Gives t x ↔
      ∃ v, (e.value (known m) a).Gives t v ∧ v.scalar? = some x := by
  have hread : ∀ v : Value ℚ, (e.readNumber v).Gives t x ↔ v.scalar? = some x := by
    intro v
    cases v with
    | bool b => cases b <;> simp [readNumber, scalar?, Scalar.ofBool]
    | _ => simp [readNumber, scalar?]
  have hsteady : ∀ v : Value ℚ, (e.readNumber v).Steady := by
    intro v
    cases v with
    | bool b | real y => exact steady_pure _
    | int i => exact steady_ofExcept (scalarOfInt i : Except (Cause ℚ) ℚ)
    | _ => exact steady_fail _
  cases e with
  | num y =>
    simp only [gives_value_num, exists_eq_left', scalar?_normalize]
    simp [number, asNumber, scalar?]
  | item set key =>
    refine ⟨fun h => absurd h not_gives_fail, ?_⟩
    rintro ⟨v, hv, hx⟩
    obtain ⟨_, _, _, _, hrecord⟩ := (gives_recordAt (steady_elements key a)).1
      (gives_value_item.1 hv)
    obtain ⟨s, vs, rfl⟩ := recordOf_record hrecord
    simp [scalar?] at hx
  | _ => exact (gives_bind (steady_value _ a) hsteady).trans (by simp only [hread])

end Expr

end LinearModel
