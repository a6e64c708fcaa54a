import LinearModel.Double
import LinearModel.Value
import LinearModel.Proofs.DoubleParts
import LinearModel.Proofs.Words
import Mathlib.Algebra.Order.Field.Power
import Mathlib.Data.List.TakeWhile
import Mathlib.Tactic.Linarith
import Mathlib.Tactic.Ring

/-!
# Doubles

Two facts about double precision numbers. The text of a double in an exchange file is a word: it
holds no blanks, and it is not empty, because the magnitude that its digits are counted from is
never so large that all of them are rounded away. And a double that equals anything equals itself.
-/
namespace LinearModel

namespace Decimal

/-! ## The magnitude of a ratio -/

theorem two_pow_le_ten_pow : 2 ^ 100000 ≤ 10 ^ 30103 := by decide +kernel

theorem ten_pow_le_two_pow : 10 ^ 30103 ≤ 2 ^ 100001 := by decide +kernel

/-- If `2 ^ n` and `10 ^ m` are less than a factor of two apart, a power of ten is estimated by a
power of two through the ratio of `m` to `n`. -/
theorem ten_zpow_le_two_zpow {n m : ℕ} (hn : 0 < n) (hlow : (2 : ℚ) ^ n ≤ 10 ^ m)
    (hhigh : (10 : ℚ) ^ m ≤ 2 ^ (n + 1)) {l : ℤ} (hl : l ≤ n) :
    (10 : ℚ) ^ (l * m / n) ≤ 2 ^ (l + 1) := by
  have hdiv : l * m / n * n ≤ m * l := by
    rw [mul_comm (m : ℤ)]
    exact Int.ediv_mul_le _ (by omega)
  have hpower : ((10 : ℚ) ^ (l * m / n)) ^ n ≤ ((2 : ℚ) ^ (l + 1)) ^ n := by
    rw [← zpow_natCast, ← zpow_natCast, ← zpow_mul, ← zpow_mul]
    refine (zpow_le_zpow_right₀ (by norm_num) hdiv).trans ?_
    rw [zpow_mul, zpow_natCast]
    obtain hneg | hpos := le_total l 0
    · have hinverse : ((10 : ℚ) ^ m) ^ l ≤ ((2 : ℚ) ^ n) ^ l := by
        simpa only [zpow_neg, inv_inv] using inv_anti₀ (by positivity)
          (zpow_le_zpow_left₀ (n := -l) (by omega) (by positivity) hlow)
      refine hinverse.trans ?_
      rw [← zpow_natCast, ← zpow_mul]
      exact zpow_le_zpow_right₀ (by norm_num) (by nlinarith)
    · refine (zpow_le_zpow_left₀ hpos (by positivity) hhigh).trans ?_
      rw [← zpow_natCast, ← zpow_mul]
      exact zpow_le_zpow_right₀ (by norm_num) (by push_cast; nlinarith)
  exact (pow_le_pow_iff_left₀ (by positivity) (by positivity) hn.ne').1 hpower

theorem reachesPowerOfTen_iff {num den : Nat} {e : Int} :
    reachesPowerOfTen num den e = true ↔ (10 : ℚ) ^ e * den ≤ num := by
  simp only [reachesPowerOfTen, scale, Nat.pow_eq]
  split
  · obtain ⟨k, rfl⟩ : ∃ k : ℕ, e = -k := ⟨(-e).toNat, by omega⟩
    rw [neg_neg, Int.toNat_natCast, zpow_neg, zpow_natCast, inv_mul_le_iff₀ (by positivity),
      decide_eq_true_eq, ← Nat.cast_le (α := ℚ)]
    push_cast
    rw [mul_comm]
  · obtain ⟨k, rfl⟩ : ∃ k : ℕ, e = k := ⟨e.toNat, by omega⟩
    rw [neg_neg, Int.toNat_natCast, zpow_natCast, decide_eq_true_eq, ← Nat.cast_le (α := ℚ)]
    push_cast
    rw [mul_comm]

/-- A ratio is not eleven powers of ten below its magnitude. -/
theorem reaches_magnitude {num den : Nat} (hnum : 0 < num)
    (hsize : (num.log2 : Int) - den.log2 ≤ 100000) :
    reachesPowerOfTen num den (magnitude num den - 11) = true := by
  have hbelow : ∀ {e : Int}, reachesPowerOfTen num den e = true →
      reachesPowerOfTen num den (e - 11) = true := by
    intro e he
    rw [reachesPowerOfTen_iff] at he ⊢
    refine le_trans ?_ he
    gcongr
    exacts [by norm_num, by omega]
  simp only [magnitude]
  split
  · rename_i h
    exact hbelow h
  · split
    · rename_i h
      exact hbelow h
    -- the estimate is too large by less than the digits that are kept
    · rw [reachesPowerOfTen_iff]
      have hguess : (10 : ℚ) ^ (((num.log2 : Int) - den.log2) * 30103 / 100000)
          ≤ 2 ^ ((num.log2 : Int) - den.log2 + 1) := by
        have hlow : (2 : ℚ) ^ 100000 ≤ 10 ^ 30103 := by exact_mod_cast two_pow_le_ten_pow
        have hhigh : (10 : ℚ) ^ 30103 ≤ 2 ^ 100001 := by exact_mod_cast ten_pow_le_two_pow
        exact ten_zpow_le_two_zpow (n := 100000) (m := 30103) (by norm_num) hlow hhigh hsize
      have hnum' : (2 : ℚ) ^ (num.log2 : Int) ≤ num := by
        exact_mod_cast Nat.log2_self_le hnum.ne'
      have hden' : (den : ℚ) ≤ 2 ^ ((den.log2 : Int) + 1) := by
        have := Nat.lt_log2_self (n := den)
        exact_mod_cast this.le
      calc (10 : ℚ) ^ (((num.log2 : Int) - den.log2) * 30103 / 100000 - 1 - 11) * den
          = 10 ^ (((num.log2 : Int) - den.log2) * 30103 / 100000) * den / 10 ^ 12 := by
            rw [sub_sub, zpow_sub₀ (by norm_num)]
            ring
        _ ≤ 2 ^ ((num.log2 : Int) - den.log2 + 1) * 2 ^ ((den.log2 : Int) + 1) / 10 ^ 12 := by
            gcongr
        _ = 2 ^ (num.log2 : Int) * (4 / 10 ^ 12) := by
            rw [← zpow_add₀ (by norm_num), show (num.log2 : Int) - den.log2 + 1 + (den.log2 + 1)
              = num.log2 + 2 by ring, zpow_add₀ (by norm_num)]
            ring
        _ ≤ num := (mul_le_of_le_one_right (by positivity) (by norm_num)).trans hnum'

/-- A ratio that is not below one is not rounded to zero. -/
theorem divRound_pos {num den : Nat} (hden : 0 < den) (h : den ≤ num) : 0 < divRound num den := by
  have hnear := (divRound_near num hden).1
  obtain hzero | hpos := Nat.eq_zero_or_pos (divRound num den)
  · rw [hzero] at hnear
    omega
  · exact hpos

theorem ofScaled_ne_nil {a : Nat} (ha : a ≠ 0) (k : Int) : (Written.ofScaled a k).digits ≠ [] := by
  intro hnil
  simp only [Written.ofScaled, List.reverse_eq_nil_iff] at hnil
  have hzeros : ∀ c ∈ Nat.toDigits 10 a, c = '0' := by
    intro c hc
    have hall := List.dropWhile_eq_nil_iff.1 hnil c (List.mem_reverse.2 hc)
    simpa using hall
  have hfold : ∀ ds : List Char, (∀ c ∈ ds, c = '0') → Nat.ofDigitChars 10 ds 0 = 0 := by
    intro ds hds
    induction ds with
    | nil => rfl
    | cons d ds ih =>
      obtain ⟨rfl, htail⟩ := List.forall_mem_cons.1 hds
      exact ih htail
  exact ha (by rw [← Nat.ofDigitChars_ten_toDigits (n := a), hfold _ hzeros])

theorem significant_ne_nil {num den : Nat} (hnum : 0 < num) (hden : 0 < den)
    (hsize : (num.log2 : Int) - den.log2 ≤ 100000) : (significant 12 num den).digits ≠ [] := by
  have hreach := reaches_magnitude hnum hsize
  simp only [reachesPowerOfTen, decide_eq_true_eq] at hreach
  have hscaled : 0 < (scale 10 num den (-(magnitude num den - 11))).2 := by
    simp only [scale, Nat.pow_eq]
    split
    · exact hden
    · positivity
  exact ofScaled_ne_nil (divRound_pos hscaled hreach).ne' _

/-! ## The text of a double -/

theorem unbroken_replicate (n : Nat) : Unbroken (List.replicate n '0') := by
  intro c hc
  rw [List.eq_of_mem_replicate hc]
  rfl

theorem unbroken_exponentMark (e : Int) : Unbroken (exponentMark e) := by
  refine .cons rfl (.cons (by split <;> rfl) ?_)
  split
  · exact .cons rfl (unbroken_toDigits _)
  · exact unbroken_toDigits _

theorem Layout.unbroken_write (l : Layout) {w : Written} (hw : Unbroken w.digits) :
    Unbroken (l.write w) := by
  have hpart : ∀ {ds : List Char}, (∀ c ∈ ds, c ∈ w.digits) → Unbroken ds :=
    fun hsub c hc => hw c (hsub c hc)
  unfold Layout.write
  split
  · split
    · exact .cons rfl (.cons rfl ((unbroken_replicate _).append hw))
    · dsimp only
      split
      · refine (hw.append (unbroken_replicate _)).append ?_
        split
        · exact .cons rfl (.cons rfl (by simp [Unbroken]))
        · simp [Unbroken]
      · exact (hpart fun c => List.mem_of_mem_take).append
          (.cons rfl (hpart fun c => List.mem_of_mem_drop))
  · split
    · simp [Unbroken]
    · rename_i d hd
      exact .cons (hw d (by simp [hd])) (unbroken_exponentMark _)
    · rename_i d ds _ hd
      exact .cons (hw d (by simp [hd])) (.cons rfl
        ((hpart fun c hc => by simp [hd, hc]).append (unbroken_exponentMark _)))

theorem Layout.write_ne_nil (l : Layout) {w : Written} (hw : w.digits ≠ []) : l.write w ≠ [] := by
  unfold Layout.write
  split
  · split
    · simp
    · dsimp only
      split <;> simp [hw]
  · split
    · contradiction
    · simp
    · simp

theorem unbroken_significant (n num den : Nat) : Unbroken (significant n num den).digits := by
  intro c hc
  simp only [significant, Written.ofScaled, List.mem_reverse] at hc
  exact unbroken_toDigits _ c (List.mem_reverse.1 ((List.dropWhile_sublist _).subset hc))

namespace Binary64

theorem bounds_of_decode {bits : UInt64} {y : Finite} (h : decode bits = some y) :
    y.mantissa < 2 ^ 53 ∧ y.exponent ≤ 971 := by
  simp only [decode, Nat.pow_eq] at h
  split at h
  · cases h
  · split at h <;> cases h <;> constructor <;> dsimp only <;> omega

/-- The numerator of a finite double has at most 1024 binary digits. -/
theorem log2_ratio_le {bits : UInt64} {y : Finite} (h : decode bits = some y) :
    y.ratio.1.log2 ≤ 1024 := by
  obtain ⟨hmantissa, hexponent⟩ := bounds_of_decode h
  have hlt : y.ratio.1 < 2 ^ 53 * 2 ^ 971 := by
    simp only [Finite.ratio, scale, Nat.pow_eq]
    split
    · calc y.mantissa * 2 ^ y.exponent.toNat
          < 2 ^ 53 * 2 ^ y.exponent.toNat := by gcongr
        _ ≤ 2 ^ 53 * 2 ^ 971 := by
            gcongr
            exacts [by decide, by omega]
    · exact hmantissa.trans_le (Nat.le_mul_of_pos_right _ (by positivity))
  rw [← pow_add] at hlt
  obtain hzero | hpos := Nat.eq_zero_or_pos y.ratio.1
  · simp [hzero]
  · have hlog := (Nat.log2_lt hpos.ne').2 hlt
    omega

theorem ratio_pos {y : Finite} (h : y.mantissa ≠ 0) : 0 < y.ratio.1 ∧ 0 < y.ratio.2 := by
  simp only [Finite.ratio, scale, Nat.pow_eq]
  split <;> constructor <;> positivity

end Binary64

/-- The text of a double in an exchange file is a word. -/
theorem significantText_isWord (x : Float) : IsWord (significantText x) := by
  have hword : ∀ {sign : String} {cs : List Char}, Unbroken sign.toList → Unbroken cs → cs ≠ [] →
      IsWord (sign ++ String.ofList cs) := by
    intro sign cs hsign hcs hne
    refine ⟨by simp [hne], fun c hc => ?_⟩
    rw [String.toList_append, String.toList_ofList] at hc
    exact (hsign.append hcs) c hc
  simp only [significantText]
  have hsign : Unbroken (if Binary64.isNegative x.toBits = true then "-" else "").toList := by
    split <;> simp [Unbroken]
  split
  · exact ⟨by simp, by simp [Unbroken]⟩
  · split
    · exact @hword _ ['i', 'n', 'f'] hsign (by simp [Unbroken]) (by simp)
    · rename_i y hy
      by_cases hmantissa : y.mantissa = 0
      · rw [if_pos hmantissa]
        exact hword hsign (by simp [Layout.writeZero, exchangeLayout, Unbroken])
          (by simp [Layout.writeZero, exchangeLayout])
      · rw [if_neg hmantissa]
        obtain ⟨hnum, hden⟩ := Binary64.ratio_pos hmantissa
        have hsize : (y.ratio.1.log2 : Int) - y.ratio.2.log2 ≤ 100000 := by
          have := Binary64.log2_ratio_le hy
          omega
        exact hword hsign (exchangeLayout.unbroken_write (unbroken_significant _ _ _))
          (exchangeLayout.write_ne_nil (significant_ne_nil hnum hden hsize))

end Decimal

/-! ## Equality -/

open Float.Model in
theorem UnpackedFloat.beq_self {u : UnpackedFloat} (h : u ≠ .notANumber) : u.beq u = true := by
  cases u with
  | notANumber => exact absurd rfl h
  | infinity s => cases s <;> rfl
  | zero s => rfl
  | finite s m e hm => cases s <;> simp [UnpackedFloat.beq, UnpackedFloat.compare]

open Float.Model in
/-- A double that equals anything equals itself. -/
theorem double_eq_self {x y : Float} (h : Scalar.eq x y = true) : Scalar.eq y y = true := by
  have hbeq : x.toModel.unpack.beq y.toModel.unpack = true := h
  refine UnpackedFloat.beq_self fun hnan => ?_
  rw [hnan] at hbeq
  cases hx : x.toModel.unpack <;> simp [hx, UnpackedFloat.beq, UnpackedFloat.compare] at hbeq

open Float.Model in
/-- A double that is not a number has no exact value. -/
theorem decode_eq_none {m : Float.Model} (h : m.unpack = .notANumber) :
    Decimal.Binary64.decode m.toBits = none := by
  simp only [Float.Model.unpack, UnpackedFloat.unpack] at h
  split at h
  · rename_i hexponent
    have hfield := congrArg BitVec.toNat hexponent
    simp only [UnpackedFloat.unpackExponent, BitVec.toNat_cast, BitVec.extractLsb_toNat,
      UInt64.toNat_toBitVec, Nat.shiftRight_eq_div_pow] at hfield
    exact if_pos hfield
  · split at h
    · split at h <;> cases h
    · cases h

/-- A finite double equals itself. -/
theorem double_eq_self_of_toRat? {x : Float} {q : ℚ} (h : Scalar.toRat? x = some q) :
    Scalar.eq x x = true := by
  refine UnpackedFloat.beq_self fun hnan => ?_
  have hnone : Decimal.Binary64.decode x.toBits = none := decode_eq_none hnan
  have htoRat : Decimal.Binary64.toRat? x = some q := h
  simp [Decimal.Binary64.toRat?, hnone] at htoRat

theorem Number.beq_self {a b : Number Float} (h : a.beq b = true) : b.beq b = true := by
  cases b with
  | int j => exact beq_self_eq_true j
  | real y =>
    cases a with
    | real x => exact double_eq_self h
    | int i =>
      simp only [Number.beq, Scalar.intEq, Scalar.toInt?, beq_iff_eq] at h
      split at h
      · rename_i q hq
        exact double_eq_self_of_toRat? hq
      · cases h

/-- Equality of doubles is symmetric. -/
theorem double_eq_symm {x y : Float} (h : Scalar.eq x y = true) : Scalar.eq y x = true := by
  obtain rfl | ⟨⟨s, hx⟩, t, hy⟩ := double_eq_or_zeros h
  · exact h
  · change y.toModel.unpack.beq x.toModel.unpack = true
    rw [hx, hy]
    rfl

theorem Number.beq_symm {a b : Number Float} (h : a.beq b = true) : b.beq a = true := by
  cases a <;> cases b <;> simp only [Number.beq] at h ⊢
  · exact BEq.symm h
  · exact h
  · exact h
  · exact double_eq_symm h

namespace Value

theorem beq_self_of_number {v w : Value Float} {b : Number Float} (hw : w.number? = some b)
    (hbeq : ∀ u : Value Float, beq u w = match u.number? with
      | some a => a.beq b
      | none => false) (h : beq v w = true) : beq w w = true := by
  rw [hbeq] at h ⊢
  rw [hw]
  cases ha : v.number? with
  | none => simp [ha] at h
  | some a =>
    rw [ha] at h
    exact Number.beq_self h

mutual
theorem beq_self : ∀ {v w : Value Float}, beq v w = true → beq w w = true
  | _, .null, _ => by simp only [beq]
  | _, .str s, _ => by simp [beq]
  | v, .bool b, h | v, .int i, h | v, .real x, h =>
    beq_self_of_number rfl (fun u => by cases u <;> simp only [beq, number?]) h
  | v, .record s ws, h => by
    cases v <;> simp only [beq, number?, Bool.and_eq_true, Bool.false_eq_true] at h
    simp [beq, beqAll_self h.2]
  | v, .seq ws, h | v, .list ws, h => by
    cases v <;> simp only [beq, number?, Bool.false_eq_true] at h
    simp only [beq, beqAll_self h]
  | v, .map ks ws, h => by
    cases v <;> simp only [beq, number?, Bool.and_eq_true, Bool.false_eq_true] at h
    simp [beq, beqAll_self h.1, beqAll_self h.2]

theorem beqAll_self : ∀ {vs ws : List (Value Float)}, beqAll vs ws = true → beqAll ws ws = true
  | _, [], _ => by simp only [beqAll]
  | [], _ :: _, h => by simp [beqAll] at h
  | v :: vs, w :: ws, h => by
    simp only [beqAll, Bool.and_eq_true] at h ⊢
    exact ⟨beq_self h.1, beqAll_self h.2⟩
end

mutual
theorem beq_symm {v w : Value Float} (h : beq v w = true) : beq w v = true := by
  cases v with
  | null => cases w <;> simp only [beq, number?, Bool.false_eq_true] at h ⊢
  | bool | int | real =>
    cases w <;> simp only [beq, number?, Bool.false_eq_true] at h ⊢ <;> exact Number.beq_symm h
  | str s =>
    cases w <;> simp only [beq, number?, beq_iff_eq, Bool.false_eq_true] at h ⊢
    exact h.symm
  | record s vs =>
    cases w <;> simp only [beq, number?, Bool.and_eq_true, beq_iff_eq, Bool.false_eq_true] at h ⊢
    exact ⟨h.1.symm, beqAll_symm h.2⟩
  | seq vs | list vs =>
    cases w <;> simp only [beq, number?, Bool.false_eq_true] at h ⊢
    exact beqAll_symm h
  | map ks vs =>
    cases w <;> simp only [beq, number?, Bool.and_eq_true, Bool.false_eq_true] at h ⊢
    exact ⟨beqAll_symm h.1, beqAll_symm h.2⟩

theorem beqAll_symm : ∀ {vs ws : List (Value Float)}, beqAll vs ws = true → beqAll ws vs = true
  | [], [], _ => by simp only [beqAll]
  | [], _ :: _, h | _ :: _, [], h => by simp [beqAll] at h
  | v :: vs, w :: ws, h => by
    simp only [beqAll, Bool.and_eq_true] at h ⊢
    exact ⟨beq_symm h.1, beqAll_symm h.2⟩
end

/-- A value that anything equals equals itself. -/
theorem beq_self_left {v w : Value Float} (h : beq v w = true) : beq v v = true :=
  beq_self (beq_symm h)

end Value

end LinearModel
