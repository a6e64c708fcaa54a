import LinearModel.Proofs.Doubles

/-!
# Whole numbers in double precision

A double that is a whole number is held as a whole number where it serves as an element. The double
nearest to that number is finite again. Below `2 ^ 53` it is found through the arithmetic of
doubles. Above that the number does not exceed the largest double, so that rounding does not carry
it out of range.
-/
namespace LinearModel

open Float.Model UnpackedFloat
open LinearModel.Decimal

/-! ## Finite doubles -/

/-- A number or zero, and neither infinite nor undefined. -/
def UnpackedFloat.IsFinite : UnpackedFloat → Prop
  | .zero _ | .finite _ _ _ _ => True
  | .infinity _ | .notANumber => False

theorem UnpackedFloat.IsFinite.neg {u : UnpackedFloat} (h : UnpackedFloat.IsFinite u) :
    UnpackedFloat.IsFinite u.neg := by
  cases u <;> trivial

/-- Parts stand for a finite double unless the exponent is the one kept for other things. -/
theorem isFinite_ofParts {s : Sign} {e : BitVec 11} {k : BitVec 52} (he : e ≠ -1#11) :
    UnpackedFloat.IsFinite (ofParts s e k) := by
  rw [ofParts_eq, if_neg he]
  split_ifs <;> trivial

theorem unpack_pack_ofParts (s : Sign) {e : BitVec 11} (he : e ≠ -1#11) (k : BitVec 52) :
    (Float.Model.pack (ofParts s e k)).unpack = ofParts s e k := by
  have hnan : ofParts s e k ≠ .notANumber := by
    intro hnan
    have hfinite := isFinite_ofParts (s := s) (k := k) he
    rw [hnan] at hfinite
    exact hfinite
  simp only [Float.Model.pack, Float.Model.unpack, pack_ofParts s e k hnan]
  rfl

/-- A number with all the bits of a mantissa and an exponent within range is kept by packing. -/
theorem unpack_pack_finite (s : Sign) {k : Nat} {e : Int} (hk : 0 < k) (hlow : 2 ^ 52 ≤ k)
    (hhigh : k < 2 ^ 53) (hleast : -1074 ≤ e) (hmost : e ≤ 971) :
    (Float.Model.pack (.finite s k e hk)).unpack = .finite s k e hk := by
  let exponent := BitVec.ofNat 11 (e + 1075).toNat
  let rest := BitVec.ofNat 52 (k - 2 ^ 52)
  have hexponent : exponent.toNat = (e + 1075).toNat := by
    simp only [exponent, BitVec.toNat_ofNat]
    omega
  have hrest : rest.toNat = k - 2 ^ 52 := by
    simp only [rest, BitVec.toNat_ofNat]
    omega
  have hones : exponent ≠ -1#11 := by
    intro h
    have hall : exponent.toNat = 2047 := by rw [h]; rfl
    omega
  have hzero : exponent ≠ 0#11 := by
    intro h
    have hnone : exponent.toNat = 0 := by rw [h]; rfl
    omega
  have hparts : ofParts s exponent rest = .finite s k e hk := by
    rw [ofParts_eq, if_neg hones, if_neg hzero]
    rw [finite.injEq, toNat_one_append, hrest, hexponent]
    exact ⟨rfl, by omega, by omega⟩
  rw [← hparts]
  exact unpack_pack_ofParts s hones rest

variable {x : Float} {n : Nat} {i : Int}

theorem isFinite_of_unpack (h : UnpackedFloat.IsFinite x.toModel.unpack) :
    Scalar.isFinite x = true := by
  have hsome : (Binary64.decode x.toBits).isSome = true := by
    simp only [Binary64.decode, Nat.pow_eq]
    split
    · rename_i hfield
      exfalso
      have hones : @unpackExponent .binary64 x.toModel.toBits.toBitVec = -1#11 := by
        refine BitVec.eq_of_toNat_eq ?_
        simp only [unpackExponent, BitVec.toNat_cast, BitVec.extractLsb_toNat,
          UInt64.toNat_toBitVec, Nat.shiftRight_eq_div_pow]
        exact hfield
      simp only [Float.Model.unpack, UnpackedFloat.unpack] at h
      rw [if_pos hones] at h
      split at h <;> exact h
    · split <;> rfl
  simpa [Scalar.isFinite, Scalar.toRat?, Binary64.toRat?] using hsome

/-! ## Numbers of at most 53 binary digits -/

theorem UnpackedFloat.mul_comm (spec : Format) (u v : UnpackedFloat) :
    u.mul spec v = v.mul spec u := by
  have hsign : ∀ s t : Sign, s * t = t * s := by
    intro s t
    cases s <;> cases t <;> rfl
  cases u <;> cases v <;>
    simp only [UnpackedFloat.mul, hsign, Nat.mul_comm, Int.add_comm]

/-- A positive number below `2 ^ 53` is moved to the upper end of the mantissa, unchanged. -/
theorem round_nat (hpos : 0 < n) (h : n < 2 ^ 53) :
    ∃ k e hk, 2 ^ 52 ≤ k ∧ k < 2 ^ 53 ∧ -1074 ≤ e ∧ e ≤ 971 ∧
      UnpackedFloat.round .binary64 .positive n 0 = .finite .positive k e hk := by
  have hlog : n.log2 < 53 := (Nat.log2_lt hpos.ne').2 h
  let shift := 52 - n.log2
  have hmantissa : 0 < n * 2 ^ shift := by positivity
  have hfull : (n * 2 ^ shift).log2 = 52 := by
    rw [log2_mul_two_pow hpos]
    omega
  obtain ⟨hlow, hhigh⟩ := (Nat.log2_eq_iff hmantissa.ne').1 hfull
  refine ⟨n * 2 ^ shift, -shift, hmantissa, hlow, hhigh, by omega, by omega, ?_⟩
  have htarget : Format.targetExponent .binary64 (totalExponent n 0) = -shift := by
    simp only [Format.targetExponent, Format.minExponent, Format.mantissaBits, totalExponent]
    simp
    omega
  have hcanonical : IsCanonical (n * 2 ^ shift) (-shift) := ⟨hhigh, by omega, .inr hlow⟩
  simpa [UnpackedFloat.round, htarget, decreaseExponent, Nat.shiftLeft_eq] using
    round_canonical hmantissa hcanonical .positive 0

theorem isFinite_ofUInt64 {n : UInt64} (h : n.toNat < 2 ^ 53) :
    UnpackedFloat.IsFinite (Float.Model.ofUInt64 n).unpack := by
  obtain hzero | hpos := Nat.eq_zero_or_pos n.toNat
  · rw [show n = 0 from UInt64.toNat_inj.1 hzero]
    trivial
  obtain ⟨k, e, hk, hlow, hhigh, hleast, hmost, hround⟩ := round_nat hpos h
  have hofUInt64 : UnpackedFloat.ofUInt64 .binary64 n = .finite .positive k e hk := by
    have hsign : compare (n.toNat : Int) 0 = .gt := compare_gt_iff_gt.2 (by omega)
    simpa [UnpackedFloat.ofUInt64, UnpackedFloat.ofNat, UnpackedFloat.ofInt,
      UnpackedFloat.normalize, hsign] using hround
  rw [Float.Model.ofUInt64, hofUInt64, unpack_pack_finite _ hk hlow hhigh hleast hmost]
  trivial

/-- A double that stands for a natural number below `2 ^ 53` is finite. -/
theorem isFinite_ofNat (h : n < 2 ^ 53) :
    UnpackedFloat.IsFinite (Float.ofNat n).toModel.unpack := by
  have hn : n.toUInt64.toNat = n := Nat.mod_eq_of_lt (by omega)
  have hone : (Float.ofBits 0x3FF0000000000000).toModel.unpack =
      .finite .positive (2 ^ 52) (-52) (by decide) := rfl
  have hproduct : (Float.ofNat n).toModel = Float.Model.ofUInt64 n.toUInt64 := by
    have hfast : Float.ofNat n = n.toUInt64.toFloat * Float.ofBits 0x3FF0000000000000 := by
      change Float.ofScientific n false 0 = _
      rw [Float.ofScientific, dif_pos ⟨h, by decide⟩]
      rfl
    calc (Float.ofNat n).toModel
        = Float.Model.pack (UnpackedFloat.mul .binary64 (Float.Model.ofUInt64 n.toUInt64).unpack
            (.finite .positive (2 ^ 52) (-52) (by decide))) := by rw [hfast, ← hone]; rfl
      _ = Float.Model.ofUInt64 n.toUInt64 := by
          rw [UnpackedFloat.mul_comm, (mul_unit _).1, pack_unpack]
  rw [hproduct]
  exact isFinite_ofUInt64 (by rwa [hn])

/-! ## Numbers with more digits -/

namespace Decimal.Binary64

/-- The largest double. -/
def greatest : Nat := (2 ^ 53 - 1) * 2 ^ 971

theorem divRound_le {num den b : Nat} (hden : 0 < den) (h : num ≤ b * den) :
    divRound num den ≤ b := by
  have hquotient : num / den ≤ b := Nat.div_le_of_le_mul (by rwa [Nat.mul_comm])
  obtain hlt | heq := hquotient.lt_or_eq
  · have hle : divRound num den ≤ num / den + 1 := by
      simp only [divRound]
      split_ifs <;> omega
    omega
  · -- nothing is left over, so there is nothing to round
    have hexact : num % den = 0 := by
      have hsplit := Nat.div_add_mod num den
      rw [heq, Nat.mul_comm] at hsplit
      omega
    simp [divRound, hexact, hden, heq]

theorem scale_neg (n k : Nat) : scale 2 n 1 (-(k : Int)) = (n, 2 ^ k) := by
  cases k with
  | zero => simp [scale]
  | succ k =>
    rw [scale, if_neg (by omega)]
    simp

/-- A whole number of more than 53 digits is rounded to a multiple of a power of two. -/
theorem nearestBits_nat (h : 2 ^ 53 ≤ n) : nearestBits n 1 =
      min ((n.log2 + 1022) * 2 ^ 52 + divRound n (2 ^ (n.log2 - 52))) infinityBits := by
  have hpos : n ≠ 0 := by omega
  have hlog : 53 ≤ n.log2 := (Nat.le_log2 hpos).2 h
  have hfirst : (n.log2 : Int) - (Nat.log2 1 : Nat) - 53 = (n.log2 - 53 : Nat) := by
    rw [show Nat.log2 1 = 0 from rfl]
    omega
  have hsecond : max (((n.log2 - 53 : Nat) : Int) + 1) (-1074) = (n.log2 - 52 : Nat) := by omega
  have hbinade : ¬ n / 2 ^ (n.log2 - 53) < 2 ^ 53 := by
    rw [not_lt, Nat.le_div_iff_mul_le (by positivity), ← pow_add,
      show 53 + (n.log2 - 53) = n.log2 by omega]
    exact Nat.log2_self_le hpos
  have hfield : (((n.log2 - 52 : Nat) : Int) + 1074).toNat = n.log2 + 1022 := by omega
  simp only [nearestBits, if_neg hpos, hfirst, scale_neg, Nat.pow_eq, if_neg hbinade, hsecond,
    hfield]

/-- The nearest double to a whole number within range is within range. -/
theorem nearestBits_lt (h : 2 ^ 53 ≤ n) (hn : n ≤ greatest) : nearestBits n 1 < infinityBits := by
  have hpos : n ≠ 0 := by omega
  have hlow : 53 ≤ n.log2 := (Nat.le_log2 hpos).2 h
  have hhigh : n.log2 < 1024 := by
    refine (Nat.log2_lt hpos).2 (hn.trans_lt ?_)
    decide +kernel
  rw [nearestBits_nat h]
  refine (min_le_left _ _).trans_lt ?_
  obtain hlast | hbelow : n.log2 = 1023 ∨ n.log2 < 1023 := by omega
  · have hround : divRound n (2 ^ (n.log2 - 52)) ≤ 2 ^ 53 - 1 := by
      refine divRound_le (by positivity) ?_
      rw [show n.log2 - 52 = 971 by omega]
      exact hn
    simp only [infinityBits]
    omega
  · have hround : divRound n (2 ^ (n.log2 - 52)) ≤ 2 ^ 53 := by
      refine divRound_le (by positivity) ?_
      rw [← pow_add, show 53 + (n.log2 - 52) = n.log2 + 1 by omega]
      exact Nat.lt_log2_self.le
    simp only [infinityBits]
    omega

theorem isFinite_ofBits {b : UInt64} (h : b.toNat < infinityBits) :
    UnpackedFloat.IsFinite (Float.ofBits b).toModel.unpack := by
  obtain ⟨s, e, k, hb⟩ := exists_packComponents b.toBitVec
  have hones : e ≠ -1#11 := by
    intro he
    have hfield : e.toNat = b.toNat / 2 ^ 52 % 2 ^ 11 := by
      have hexponent := congrArg BitVec.toNat (congrArg (@unpackExponent .binary64) hb)
      rw [unpackExponent_packComponents] at hexponent
      simpa only [unpackExponent, BitVec.toNat_cast, BitVec.extractLsb_toNat,
        UInt64.toNat_toBitVec, Nat.shiftRight_eq_div_pow] using hexponent
    have hall : e.toNat = 2047 := by rw [he]; rfl
    simp only [infinityBits] at h
    omega
  have hparts : UnpackedFloat.unpack .binary64 b.toBitVec = ofParts s e k := by rw [ofParts, hb]
  have hbits : (Float.ofBits b).toModel.unpack = ofParts s e k := by
    change (Float.Model.pack (UnpackedFloat.unpack .binary64 b.toBitVec)).unpack = _
    rw [hparts, unpack_pack_ofParts s hones k]
  rw [hbits]
  exact isFinite_ofParts hones

theorem isFinite_ofRatio (h : 2 ^ 53 ≤ n) (hn : n ≤ greatest) :
    UnpackedFloat.IsFinite (ofRatio n 1).toModel.unpack := by
  have hlt := nearestBits_lt h hn
  refine isFinite_ofBits ?_
  rwa [UInt64.toNat_ofNat_of_lt' (hlt.trans (by decide))]

/-- A whole number within range has a finite double nearest to it. -/
theorem isFinite_ofInt (h : i.natAbs ≤ greatest) :
    Scalar.isFinite (Scalar.ofInt i : Float) = true := by
  have hneg : ∀ x : Float, UnpackedFloat.IsFinite x.toModel.unpack →
      UnpackedFloat.IsFinite (-x).toModel.unpack := by
    intro x hx
    rw [show (-x).toModel.unpack = x.toModel.unpack.neg from unpack_neg x.toModel]
    exact hx.neg
  refine isFinite_of_unpack ?_
  simp only [Scalar.ofInt, ofInt, Nat.pow_eq]
  split_ifs with hsmall hsign
  · cases i with
    | ofNat n => exact isFinite_ofNat hsmall
    | negSucc n => exact hneg _ (isFinite_ofNat hsmall)
  · exact hneg _ (isFinite_ofRatio (by omega) h)
  · exact isFinite_ofRatio (by omega) h

theorem ratio_le_greatest {bits : UInt64} {y : Finite} (h : decode bits = some y) :
    y.ratio.1 ≤ greatest := by
  obtain ⟨hmantissa, hexponent⟩ := bounds_of_decode h
  have hmantissa : y.mantissa ≤ 2 ^ 53 - 1 := by omega
  have hscale : y.ratio.1 ≤ y.mantissa * 2 ^ y.exponent.toNat := by
    simp only [Finite.ratio, scale, Nat.pow_eq]
    split
    · exact le_rfl
    · exact Nat.le_mul_of_pos_right _ (by positivity)
  calc y.ratio.1
      ≤ y.mantissa * 2 ^ y.exponent.toNat := hscale
    _ ≤ (2 ^ 53 - 1) * 2 ^ 971 := by
        gcongr
        exacts [by decide, by omega]

/-- A whole number that a double holds is within range. -/
theorem natAbs_le_of_toInt? (h : Scalar.toInt? x = some i) : i.natAbs ≤ greatest := by
  have hnum : ∀ (n : Int) (d : Nat), (mkRat n d).num.natAbs ≤ n.natAbs := by
    intro n d
    rw [Rat.num_mkRat]
    split
    · exact Nat.zero_le _
    · exact Int.natAbs_ediv_le_natAbs _ _
  simp only [Scalar.toInt?, Scalar.toRat?, toRat?] at h
  cases hdecode : decode x.toBits with
  | none => simp [hdecode] at h
  | some y =>
    simp only [hdecode, Option.map_some, Option.ite_none_right_eq_some, Option.some.injEq] at h
    rw [← h.2]
    refine (hnum _ _).trans ?_
    split <;> simpa using ratio_le_greatest hdecode

end Decimal.Binary64

/-- A whole number that a double holds is a double again. -/
theorem ofInt?_of_toInt? (h : Scalar.toInt? x = some i) :
    Scalar.ofInt? i = some (Scalar.ofInt i : Float) := by
  rw [Scalar.ofInt?, if_pos (Binary64.isFinite_ofInt (Binary64.natAbs_le_of_toInt? h))]

end LinearModel
