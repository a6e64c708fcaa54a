import LinearModel.Proofs.Doubles

/-!
# Equal doubles

A double and a whole number are compared by their exact values, so two doubles that equal the same
whole number have to equal each other. This holds because the bits of a double other than its sign
follow from its magnitude. Equality of values is a partial equivalence for this reason. It is not
reflexive, as a double that is not a number equals nothing.
-/
namespace LinearModel

variable {x y : Float}

open Decimal

namespace Decimal.Binary64

/-- The magnitude of a finite double. -/
def Finite.magnitude (y : Finite) : ℚ := y.mantissa * 2 ^ y.exponent

theorem ratio_eq_magnitude (y : Finite) : (y.ratio.1 : ℚ) / y.ratio.2 = y.magnitude := by
  simp only [Finite.ratio, Finite.magnitude, scale, Nat.pow_eq]
  split
  · rename_i h
    obtain ⟨k, hk⟩ := Int.eq_ofNat_of_zero_le h
    simp [hk]
  · rename_i h
    obtain ⟨k, hk⟩ : ∃ k : ℕ, y.exponent = -k := ⟨(-y.exponent).toNat, by omega⟩
    simp [hk, div_eq_mul_inv]

theorem toRat?_eq {q : ℚ} (h : toRat? x = some q) : ∃ y, decode x.toBits = some y ∧
    q = if isNegative x.toBits then -y.magnitude else y.magnitude := by
  simp only [toRat?, Option.map_eq_some_iff] at h
  obtain ⟨y, hy, rfl⟩ := h
  refine ⟨y, hy, ?_⟩
  rw [Rat.mkRat_eq_div, ← ratio_eq_magnitude]
  split <;> simp [neg_div]

/-- Between equal magnitudes, the mantissa of full length has the smaller exponent. -/
theorem exponent_le_of_full {m n : ℕ} {d e : ℤ} (hm : m < 2 ^ 53) (hn : 2 ^ 52 ≤ n)
    (h : (m : ℚ) * 2 ^ d = n * 2 ^ e) : e ≤ d := by
  by_contra hlt
  have hstep : (2 : ℚ) ^ (d + 1) ≤ 2 ^ e := zpow_le_zpow_right₀ (by norm_num) (by omega)
  have hm' : (m : ℚ) < 2 ^ 53 := by exact_mod_cast hm
  have hn' : (2 : ℚ) ^ 52 ≤ n := by exact_mod_cast hn
  have hlow : (m : ℚ) * 2 ^ d < n * 2 ^ e := by
    calc (m : ℚ) * 2 ^ d < 2 ^ 53 * 2 ^ d := by gcongr
      _ = 2 ^ 52 * 2 ^ (d + 1) := by rw [zpow_add₀ (by norm_num)]; ring
      _ ≤ n * 2 ^ e := by gcongr
  exact hlow.ne h

variable {b c : UInt64} {y z : Finite}

/-- The mantissa and the exponent of a finite double, as they stand in its bits. -/
theorem decode_cases (h : decode b = some y) :
    (y.mantissa = b.toNat % 2 ^ 63 ∧ y.mantissa < 2 ^ 52 ∧ y.exponent = -1074) ∨
    (2 ^ 52 ≤ y.mantissa ∧ y.mantissa < 2 ^ 53 ∧ -1074 ≤ y.exponent ∧
      (b.toNat % 2 ^ 63 : ℕ) = y.mantissa + (y.exponent + 1074) * 2 ^ 52) := by
  simp only [decode, Nat.pow_eq] at h
  split at h
  · cases h
  · split at h <;> cases h <;> dsimp only <;> omega

theorem exponent_le_of_magnitude (hy : decode b = some y) (hz : decode c = some z)
    (h : y.magnitude = z.magnitude) : y.exponent ≤ z.exponent := by
  have hlow : -1074 ≤ z.exponent := by
    obtain ⟨-, -, he⟩ | ⟨-, -, he, -⟩ := decode_cases hz
    exacts [he.ge, he]
  obtain ⟨-, -, he⟩ | ⟨hfull, -, -, -⟩ := decode_cases hy
  · exact he.trans_le hlow
  · exact exponent_le_of_full (bounds_of_decode hz).1 hfull h.symm

/-- The bits of a double other than its sign follow from its magnitude. -/
theorem bits_of_magnitude (hy : decode b = some y) (hz : decode c = some z)
    (h : y.magnitude = z.magnitude) : b.toNat % 2 ^ 63 = c.toNat % 2 ^ 63 := by
  have hexponent : y.exponent = z.exponent :=
    (exponent_le_of_magnitude hy hz h).antisymm (exponent_le_of_magnitude hz hy h.symm)
  have hmantissa : y.mantissa = z.mantissa := by
    rw [Finite.magnitude, Finite.magnitude, hexponent] at h
    exact_mod_cast mul_right_cancel₀ (by positivity) h
  have hby := decode_cases hy
  have hcz := decode_cases hz
  omega

/-- A double whose magnitude is zero has no bits but its sign. -/
theorem bits_of_magnitude_zero (hy : decode b = some y) (h : y.magnitude = 0) :
    b.toNat % 2 ^ 63 = 0 := by
  have hmantissa : y.mantissa = 0 := by
    exact_mod_cast (mul_eq_zero.1 h).resolve_right (by positivity)
  have hby := decode_cases hy
  omega

end Decimal.Binary64

open Decimal.Binary64

theorem double_eq_of_toBits (h : x.toBits.toNat = y.toBits.toNat) : x = y := by
  obtain ⟨⟨b, hb⟩⟩ := x
  obtain ⟨⟨c, hc⟩⟩ := y
  obtain rfl : b = c := UInt64.toNat.inj h
  rfl

/-- The two zeros are equal. -/
theorem double_eq_of_zeros (hx : x.toBits.toNat % 2 ^ 63 = 0)
    (hy : y.toBits.toNat % 2 ^ 63 = 0) : Scalar.eq x y = true := by
  have hzero : ∀ {x : Float}, x.toBits.toNat % 2 ^ 63 = 0 →
      x = Float.ofBits 0 ∨ x = Float.ofBits 9223372036854775808 := by
    intro x hx
    have hlt := x.toBits.toNat_lt
    obtain h | h : x.toBits.toNat = 0 ∨ x.toBits.toNat = 9223372036854775808 := by omega
    · exact .inl (double_eq_of_toBits h)
    · exact .inr (double_eq_of_toBits h)
  obtain rfl | rfl := hzero hx <;> obtain rfl | rfl := hzero hy <;> decide +kernel

/-- Doubles with the same exact value are equal. -/
theorem double_eq_of_toRat? {q : ℚ} (hx : Scalar.toRat? x = some q)
    (hy : Scalar.toRat? y = some q) : Scalar.eq x y = true := by
  have hself := double_eq_self_of_toRat? hx
  obtain ⟨m, hm, rfl⟩ := toRat?_eq hx
  obtain ⟨n, hn, hsame⟩ := toRat?_eq hy
  have hpos : 0 ≤ m.magnitude ∧ 0 ≤ n.magnitude := by
    constructor <;> (unfold Finite.magnitude; positivity)
  by_cases hsign : isNegative x.toBits = isNegative y.toBits
  · have hmagnitude : m.magnitude = n.magnitude := by
      rw [hsign] at hsame
      split at hsame
      exacts [neg_injective hsame, hsame]
    have hbits := bits_of_magnitude hm hn hmagnitude
    have hxlt := x.toBits.toNat_lt
    have hylt := y.toBits.toNat_lt
    simp only [isNegative, Nat.pow_eq, decide_eq_decide] at hsign
    obtain rfl : x = y := double_eq_of_toBits (by omega)
    exact hself
  · have hzero : m.magnitude = 0 ∧ n.magnitude = 0 := by
      obtain ⟨hm', hn'⟩ := hpos
      cases hxs : isNegative x.toBits <;> cases hys : isNegative y.toBits <;>
        simp [hxs, hys] at hsign hsame <;> constructor <;> linarith
    exact double_eq_of_zeros (bits_of_magnitude_zero hm hzero.1) (bits_of_magnitude_zero hn hzero.2)

/-- Equality of doubles is transitive. -/
theorem double_eq_trans {y z : Float} (hxy : Scalar.eq x y = true) (hyz : Scalar.eq y z = true) :
    Scalar.eq x z = true := by
  obtain rfl | ⟨⟨s, hx⟩, -⟩ := double_eq_or_zeros hxy
  · exact hyz
  obtain rfl | ⟨-, t, hz⟩ := double_eq_or_zeros hyz
  · exact hxy
  change x.toModel.unpack.beq z.toModel.unpack = true
  rw [hx, hz]
  rfl

open Float.Model in
theorem toInt?_of_unpack_zero {s : UnpackedFloat.Sign} (h : x.toModel.unpack = .zero s) :
    Scalar.toInt? x = some 0 := by
  obtain ⟨m⟩ := x
  obtain rfl : Float.Model.pack (.zero s) = m := by rw [← pack_unpack m, h]
  cases s <;> decide +kernel

/-- Equal doubles are the same whole number, if they are any. -/
theorem toInt?_of_eq (h : Scalar.eq x y = true) : Scalar.toInt? x = Scalar.toInt? y := by
  obtain rfl | ⟨⟨s, hx⟩, t, hy⟩ := double_eq_or_zeros h
  · rfl
  · rw [toInt?_of_unpack_zero hx, toInt?_of_unpack_zero hy]

theorem toRat?_of_toInt? {i : Int} (h : Scalar.toInt? x = some i) :
    Scalar.toRat? x = some (i : ℚ) := by
  simp only [Scalar.toInt?] at h
  split at h
  · rename_i q hq
    obtain ⟨hden, rfl⟩ : q.den = 1 ∧ q.num = i := by simpa using h
    rw [hq, (Rat.den_eq_one_iff q).1 hden]
  · cases h

theorem Number.beq_trans {a b c : Number Float} (hab : a.beq b = true) (hbc : b.beq c = true) :
    a.beq c = true := by
  cases a <;> cases b <;> cases c <;>
    simp only [Number.beq, Scalar.intEq, beq_iff_eq] at hab hbc ⊢
  case int.int.int => exact hab.trans hbc
  case int.int.real => rw [hbc, hab]
  case int.real.int => exact Option.some.inj (hab.symm.trans hbc)
  case int.real.real => rw [← toInt?_of_eq hbc, hab]
  case real.int.int => rw [hab, hbc]
  case real.int.real => exact double_eq_of_toRat? (toRat?_of_toInt? hab) (toRat?_of_toInt? hbc)
  case real.real.int => rw [toInt?_of_eq hab, hbc]
  case real.real.real => exact double_eq_trans hab hbc

namespace Value

mutual
theorem beq_trans : ∀ {u v w : Value Float}, beq u v = true → beq v w = true → beq u w = true
  | u, .null, w, huv, hvw => by
    cases u <;> simp only [beq, number?, Bool.false_eq_true] at huv
    exact hvw
  | u, .str s, w, huv, hvw => by
    cases u <;> simp only [beq, number?, beq_iff_eq, Bool.false_eq_true] at huv
    exact huv ▸ hvw
  | u, .bool b, w, huv, hvw | u, .int b, w, huv, hvw | u, .real b, w, huv, hvw => by
    cases u <;> simp only [beq, number?, Bool.false_eq_true] at huv <;> cases w <;>
      simp only [beq, number?, Bool.false_eq_true] at hvw ⊢ <;> exact Number.beq_trans huv hvw
  | u, .record s vs, w, huv, hvw => by
    cases u <;> simp only [beq, number?, Bool.and_eq_true, beq_iff_eq, Bool.false_eq_true] at huv
    cases w <;> simp only [beq, number?, Bool.and_eq_true, beq_iff_eq, Bool.false_eq_true] at hvw ⊢
    exact ⟨huv.1.trans hvw.1, beqAll_trans huv.2 hvw.2⟩
  | u, .seq vs, w, huv, hvw | u, .list vs, w, huv, hvw => by
    cases u <;> simp only [beq, number?, Bool.false_eq_true] at huv
    cases w <;> simp only [beq, number?, Bool.false_eq_true] at hvw ⊢
    exact beqAll_trans huv hvw
  | u, .map ks vs, w, huv, hvw => by
    cases u <;> simp only [beq, number?, Bool.and_eq_true, Bool.false_eq_true] at huv
    cases w <;> simp only [beq, number?, Bool.and_eq_true, Bool.false_eq_true] at hvw ⊢
    exact ⟨beqAll_trans huv.1 hvw.1, beqAll_trans huv.2 hvw.2⟩

theorem beqAll_trans : ∀ {us vs ws : List (Value Float)}, beqAll us vs = true →
    beqAll vs ws = true → beqAll us ws = true
  | [], [], _, _, hvw => hvw
  | [], _ :: _, _, huv, _ | _ :: _, [], _, huv, _ => by simp [beqAll] at huv
  | _ :: _, _ :: _, [], _, hvw => by simp [beqAll] at hvw
  | u :: us, v :: vs, w :: ws, huv, hvw => by
    simp only [beqAll, Bool.and_eq_true] at huv hvw ⊢
    exact ⟨beq_trans huv.1 hvw.1, beqAll_trans huv.2 hvw.2⟩
end

instance : PartialEquivBEq (Value Float) where
  symm := beq_symm
  trans := beq_trans

end Value

end LinearModel
