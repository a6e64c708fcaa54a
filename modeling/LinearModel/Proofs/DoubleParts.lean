import LinearModel.Double
import Mathlib

/-!
# The parts of a double

A double is unpacked into a sign, a mantissa and an exponent. Packing them again gives the double,
and packing them with the other sign its opposite. A product is rounded to the exponent that the
format prescribes. The mantissa of one is a power of
two, so a product with one or with minus one has its factor's mantissa and exponent after rounding,
and only its sign may differ. A double and its opposite count as zero alike. Equal doubles are the
same, unless both are zero.
-/
namespace LinearModel

open Float.Model UnpackedFloat

/-! ## Packing and unpacking -/

theorem toNat_one_append (x : BitVec 52) : (1#1 ++ x).toNat = 2 ^ 52 + x.toNat := by
  rw [BitVec.toNat_append, ← Nat.shiftLeft_add_eq_or_of_lt x.isLt]
  rfl

@[simp] theorem unpackSign_packComponents (s : Sign) (e : BitVec 11) (k : BitVec 52) :
    @unpackSign .binary64 (packComponents .binary64 s e k) = s.toBitVec := by
  refine BitVec.eq_of_getLsbD_eq fun i hi => ?_
  obtain rfl : i = 0 := by omega
  have hlast : (s.toBitVec ++ e ++ k).getLsbD 63 = s.toBitVec.getLsbD 0 := by
    simp only [BitVec.getLsbD_append]
    rfl
  simp only [unpackSign, packComponents, BitVec.getLsbD_cast, BitVec.getLsbD_extractLsb]
  exact hlast

/-- A double consists of its sign, its exponent and its mantissa. -/
theorem exists_packComponents (b : BitVec 64) : ∃ s e k, packComponents .binary64 s e k = b := by
  refine ⟨.ofBitVec (@unpackSign .binary64 b), @unpackExponent .binary64 b,
    @unpackMantissa .binary64 b, ?_⟩
  have hsign : ∀ x : BitVec 1, (Sign.ofBitVec x).toBitVec = x := by decide
  simp only [packComponents, hsign]
  refine BitVec.eq_of_getLsbD_eq fun i hi => ?_
  simp only [BitVec.getLsbD_append, unpackSign, unpackExponent, unpackMantissa, BitVec.getLsbD_cast,
    BitVec.getLsbD_extractLsb]
  split
  · have : i < 52 := ‹_›
    simp; omega
  · have h52 : ¬ i < 52 := ‹_›
    split
    · have : 52 + (i - 52) = i := by omega
      simp [this]; omega
    · have : 63 + (i - 52 - 11) = i := by omega
      simp [this]; omega

/-- What a sign, an exponent and a mantissa stand for. -/
def ofParts (s : Sign) (e : BitVec 11) (k : BitVec 52) : UnpackedFloat :=
  UnpackedFloat.unpack .binary64 (packComponents .binary64 s e k)

theorem ofParts_eq (s : Sign) (e : BitVec 11) (k : BitVec 52) : ofParts s e k =
      if e = -1#11 then if k = 0#52 then .infinity s else .notANumber else if e = 0#11 then
        if h : k = 0#52 then .zero s
        else .finite s k.toNat (-1074) (by simpa [BitVec.toNat_pos, BitVec.pos_iff_ne_zero])
      else .finite s (1#1 ++ k).toNat (e.toNat - 1075) (by rw [toNat_one_append]; omega) := by
  have hsign : Sign.ofBitVec s.toBitVec = s := by cases s <;> rfl
  simp only [ofParts, UnpackedFloat.unpack, unpackExponent_packComponents,
    unpackMantissa_packComponents, unpackSign_packComponents, hsign]
  split
  · rfl
  · split
    · rename_i he
      subst he
      rfl
    · rfl

theorem neg_ofParts (s : Sign) (e : BitVec 11) (k : BitVec 52) :
    (ofParts s e k).neg = ofParts (-s) e k := by
  simp only [ofParts_eq]
  split_ifs <;> rfl

/-- Parts that stand for a number are packed again from what they stand for. -/
theorem pack_ofParts (s : Sign) (e : BitVec 11) (k : BitVec 52) (h : ofParts s e k ≠ .notANumber) :
    UnpackedFloat.pack .binary64 (ofParts s e k) = packComponents .binary64 s e k := by
  have hk : k.toNat < 2 ^ 52 := k.isLt
  rw [ofParts_eq] at h ⊢
  split_ifs with hones hzero hleast hzero
  · subst hones hzero
    rfl
  · exact absurd (by simp [hones, hzero]) h
  · subst hleast hzero
    rfl
  · subst hleast
    have hpos : k.toNat ≠ 0 := fun h0 => hzero (BitVec.eq_of_toNat_eq h0)
    have hlog := (Nat.log2_lt hpos).2 hk
    simp only [UnpackedFloat.pack]
    rw [if_neg (by decide), if_neg (by simp [Format.mantissaBits]; omega), BitVec.ofNat_toNat]
    simp
  · have hones : e.toNat ≠ 2 ^ 11 - 1 := fun h => hones (BitVec.eq_of_toNat_eq (by rw [h]; rfl))
    have hlog : (2 ^ 52 + k.toNat).log2 = 52 := by
      rw [Nat.log2_eq_iff (by omega)]
      omega
    -- the implicit bit is cleared again
    have hrest : BitVec.ofNat 52 (2 ^ 52 + k.toNat) = k := by
      refine BitVec.eq_of_toNat_eq ?_
      rw [BitVec.toNat_ofNat]
      omega
    have hbiased : (e.toNat : Int) - 1075 + Format.exponentBias .binary64
        + Format.mantissaBitsWithoutImplicit .binary64 = e.toNat := by
      simp only [Format.exponentBias]
      omega
    simp only [UnpackedFloat.pack, toNat_one_append, hbiased, Int.toNat_natCast, hlog]
    rw [if_neg (by simp; omega), if_pos (by decide), BitVec.ofNat_toNat, hrest]
    simp

/-- A double is packed again from its parts. -/
theorem pack_unpack (m : Float.Model) : Float.Model.pack m.unpack = m := by
  obtain ⟨⟨b⟩, hvalid⟩ := m
  suffices hbits : UnpackedFloat.pack .binary64 (UnpackedFloat.unpack .binary64 b) = b by
    simp only [Float.Model.pack, Float.Model.unpack, hbits]
  obtain ⟨s, e, k, rfl⟩ := exists_packComponents b
  by_cases hnan : ofParts s e k = .notANumber
  · have hparts : e = -1#11 ∧ k ≠ 0#52 := by
      rw [ofParts_eq] at hnan
      split_ifs at hnan with he hk
      exact ⟨he, hk⟩
    have hbits := hvalid.eq_packedNaN (by simp [hparts.1]) (by simp [hparts.2])
    rw [show UnpackedFloat.unpack .binary64 _ = _ from hnan]
    exact hbits.symm
  · exact pack_ofParts s e k hnan

/-- The opposite of a double has the opposite parts. -/
theorem unpack_neg (m : Float.Model) : (-m).unpack = m.unpack.neg := by
  change UnpackedFloat.unpack .binary64 (UnpackedFloat.pack .binary64 m.unpack.neg) = m.unpack.neg
  obtain ⟨s, e, k, hb⟩ := exists_packComponents m.toBits.toBitVec
  have hm : m.unpack = ofParts s e k := by rw [ofParts, hb]; rfl
  rw [hm, neg_ofParts]
  by_cases hnan : ofParts (-s) e k = .notANumber
  · rw [hnan]
    rfl
  · rw [pack_ofParts _ _ _ hnan]
    rfl

/-! ## Rounding -/

/-- The mantissa and the exponent of an unpacked double: the exponent is the least one, or the
mantissa has all its bits. -/
structure IsCanonical (k : Nat) (e : Int) : Prop where
  bits : k < 2 ^ 53
  exponent : -1074 ≤ e
  full : e = -1074 ∨ 2 ^ 52 ≤ k

variable {k : Nat} {e : Int}

theorem isCanonical_of_unpack {m : Float.Model} {s : Sign} {hk : 0 < k}
    (h : m.unpack = .finite s k e hk) : IsCanonical k e := by
  obtain ⟨s', e', k', hb⟩ := exists_packComponents m.toBits.toBitVec
  have hm : m.unpack = ofParts s' e' k' := by rw [ofParts, hb]; rfl
  rw [hm, ofParts_eq] at h
  split_ifs at h with hones hzero hleast hzero
  · injection h with _ hk he
    exact ⟨by omega, by omega, .inl he.symm⟩
  · injection h with _ hk he
    have hpos : e'.toNat ≠ 0 := fun h0 => hleast (BitVec.eq_of_toNat_eq h0)
    rw [toNat_one_append] at hk
    exact ⟨by omega, by omega, .inr (by omega)⟩

theorem repeat_shiftRightOne (n k : Nat) :
    n.repeat ExtendedMantissa.shiftRightOne ⟨k * 2 ^ n, false, false⟩ = ⟨k, false, false⟩ := by
  induction n generalizing k with
  | zero => simp [Nat.repeat]
  | succ n ih =>
    rw [pow_succ, ← mul_assoc, mul_right_comm, Nat.repeat, ih (k * 2)]
    simp [ExtendedMantissa.shiftRightOne]

theorem log2_mul_two_pow (hk : 0 < k) (n : Nat) : (k * 2 ^ n).log2 = k.log2 + n := by
  rw [Nat.log2_eq_iff (by positivity)]
  have hlow := Nat.log2_self_le hk.ne'
  have hhigh := Nat.lt_log2_self (n := k)
  constructor
  · rw [pow_add]
    gcongr
  · rw [Nat.add_right_comm, pow_add]
    gcongr

theorem shift_canonical (hk : 0 < k) (h : IsCanonical k e) (n : Nat) :
    shiftToTargetExponent .binary64 (k * 2 ^ n) (e - n) .exact = (⟨k, false, false⟩, e) := by
  have htarget : Format.targetExponent .binary64 (totalExponent (k * 2 ^ n) (e - n)) = e := by
    simp only [Format.targetExponent, Format.minExponent, Format.mantissaBits, totalExponent,
      log2_mul_two_pow hk]
    have hlt : k.log2 < 53 := (Nat.log2_lt hk.ne').2 h.bits
    obtain hleast | hfull := h.full
    · simp
      omega
    · have hfull : 52 ≤ k.log2 := (Nat.le_log2 hk.ne').2 hfull
      have hexponent := h.exponent
      simp
      omega
  have hamount : (e - (e - (n : Int))).toNat = n := by omega
  simp only [shiftToTargetExponent, htarget, shiftToExponent, hamount,
    ExtendedMantissa.ofMantissaAndAccuracy]
  exact Prod.ext (repeat_shiftRightOne n k) (by simp)

/-- A number that has a double's mantissa and exponent, but for a power of two that was moved from
one to the other, is rounded to that double. -/
theorem round_canonical (hk : 0 < k) (h : IsCanonical k e) (s : Sign)
    (n : Nat) : roundWithAccuracy .binary64 s (k * 2 ^ n) (e - n) .exact = .finite s k e hk := by
  have hagain := shift_canonical hk h 0
  simp only [pow_zero, mul_one, Nat.cast_zero, sub_zero] at hagain
  simp [roundWithAccuracy, shift_canonical hk h n, ExtendedMantissa.roundedMantissa,
    ExtendedMantissa.accuracy, Accuracy.roundToNearestEven, hagain, hk.ne']

/-! ## Products with one and minus one -/

/-- A product with one or minus one has the parts of the factor, but for the sign. -/
theorem mul_unit (m : Float.Model) :
    UnpackedFloat.mul .binary64 (.finite .positive (2 ^ 52) (-52) (by decide)) m.unpack = m.unpack ∧
    UnpackedFloat.mul .binary64 (.finite .negative (2 ^ 52) (-52) (by decide)) m.unpack =
      m.unpack.neg := by
  cases hm : m.unpack with
  | notANumber => exact ⟨rfl, rfl⟩
  | infinity s | zero s => cases s <;> exact ⟨rfl, rfl⟩
  | finite s k e hk =>
    have hround := fun s => round_canonical hk (isCanonical_of_unpack hm) s 52
    have hexponent : (-52 : Int) + e = e - (52 : Nat) := by omega
    simp only [UnpackedFloat.mul, UnpackedFloat.neg, mul_comm (2 ^ 52) k, hexponent, hround]
    cases s <;> exact ⟨rfl, rfl⟩

theorem double_one_mul (x : Float) : Scalar.ofInt 1 * x = x := by
  obtain ⟨m⟩ := x
  have hone : (Scalar.ofInt 1 : Float).toModel.unpack =
      .finite .positive (2 ^ 52) (-52) (by decide) := rfl
  have hproduct : (Scalar.ofInt 1 : Float).toModel * m = m := by
    calc (Scalar.ofInt 1 : Float).toModel * m
        = Float.Model.pack (UnpackedFloat.mul .binary64
            (.finite .positive (2 ^ 52) (-52) (by decide)) m.unpack) := by rw [← hone]; rfl
      _ = m := by rw [(mul_unit m).1, pack_unpack]
  exact congrArg Float.ofModel hproduct

theorem double_neg_one_mul (x : Float) : Scalar.ofInt (-1) * x = -x := by
  obtain ⟨m⟩ := x
  have hone : (Scalar.ofInt (-1) : Float).toModel.unpack =
      .finite .negative (2 ^ 52) (-52) (by decide) := rfl
  have hproduct : (Scalar.ofInt (-1) : Float).toModel * m = -m := by
    calc (Scalar.ofInt (-1) : Float).toModel * m
        = Float.Model.pack (UnpackedFloat.mul .binary64
            (.finite .negative (2 ^ 52) (-52) (by decide)) m.unpack) := by rw [← hone]; rfl
      _ = -m := by rw [(mul_unit m).2]; rfl
  exact congrArg Float.ofModel hproduct

/-! ## Numbers that count as zero -/

/-- Whether a double counts as zero depends on its absolute value. -/
theorem isZero_eq (x : Float) : Scalar.isZero x =
    x.toModel.unpack.abs.lt (Scalar.epsilon : Float).toModel.unpack := by
  have hlt : ∀ y z : Float, Scalar.lt y z = y.toModel.unpack.lt z.toModel.unpack := by
    intro y z
    have hdecide : ∀ b : Bool, decide (decide (b = true) = true) = b := by decide
    exact hdecide _
  have hneg : (-x).toModel.unpack = x.toModel.unpack.neg := unpack_neg x.toModel
  have hzero : (Scalar.zero : Float).toModel.unpack = .zero .positive := rfl
  obtain ⟨k, e, hk, hepsilon⟩ : ∃ k e hk, (Scalar.epsilon : Float).toModel.unpack =
      .finite .positive k e hk := ⟨_, _, _, rfl⟩
  simp only [Scalar.isZero, Scalar.abs, hlt, hzero, hepsilon]
  cases hx : x.toModel.unpack with
  | notANumber => simp [UnpackedFloat.lt, UnpackedFloat.compare, UnpackedFloat.abs, hx]
  | infinity s | finite s m f hm =>
    cases s <;> simp [UnpackedFloat.lt, UnpackedFloat.compare, UnpackedFloat.abs,
      UnpackedFloat.neg, hx, hneg]
  | zero s =>
    cases s <;> simp [UnpackedFloat.lt, UnpackedFloat.compare, UnpackedFloat.abs, hx]

theorem isZero_neg (x : Float) : Scalar.isZero (-x) = Scalar.isZero x := by
  have hneg : (-x).toModel.unpack = x.toModel.unpack.neg := unpack_neg x.toModel
  have habs : ∀ u : UnpackedFloat, u.neg.abs = u.abs := fun u => by cases u <;> rfl
  rw [isZero_eq, isZero_eq, hneg, habs]

/-! ## Equality -/

theorem UnpackedFloat.eq_or_zeros_of_beq {u v : UnpackedFloat} (h : u.beq v = true) :
    u = v ∨ (∃ s, u = .zero s) ∧ ∃ s, v = .zero s := by
  simp only [UnpackedFloat.beq, beq_iff_eq] at h
  cases u with
  | notANumber => cases v <;> simp [UnpackedFloat.compare] at h
  | infinity s =>
    cases v with
    | infinity s' => cases s <;> cases s' <;> simp_all [UnpackedFloat.compare, Ord.compare]
    | _ => cases s <;> simp [UnpackedFloat.compare] at h
  | zero s =>
    cases v with
    | zero s' => exact .inr ⟨⟨s, rfl⟩, s', rfl⟩
    | infinity s' | finite s' => cases s' <;> simp [UnpackedFloat.compare] at h
    | notANumber => simp [UnpackedFloat.compare] at h
  | finite s k e hk =>
    cases v with
    | finite s' k' e' hk' =>
      cases s <;> cases s' <;>
        simp_all [UnpackedFloat.compare, Ordering.then_eq_eq]
    | zero s' => cases s <;> simp [UnpackedFloat.compare] at h
    | infinity s' => cases s' <;> simp [UnpackedFloat.compare] at h
    | notANumber => simp [UnpackedFloat.compare] at h

/-- Doubles that are equal are the same, or both are zero. -/
theorem double_eq_or_zeros {x y : Float} (h : Scalar.eq x y = true) :
    x = y ∨ (∃ s, x.toModel.unpack = .zero s) ∧ ∃ s, y.toModel.unpack = .zero s := by
  refine (UnpackedFloat.eq_or_zeros_of_beq (u := x.toModel.unpack) (v := y.toModel.unpack)
    h).imp_left fun hu => ?_
  have hmodel : x.toModel = y.toModel := by
    rw [← pack_unpack x.toModel, hu, pack_unpack]
  exact congrArg Float.ofModel hmodel
end LinearModel
