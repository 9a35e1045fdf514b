import Slipbox.Decimal.Numeral
import Slipbox.Proofs.Decimal.Packing

/-! Reading a decimal. Its digits and the power of ten behind them are multiplied or divided with
one rounding, whether both are doubles or the exact product is rounded, so that the result is the
double that covers the decimal. -/

namespace Slipbox.Decimal

open Float.Model Float.Model.UnpackedFloat

/-- A product of values of the model, the first of which has all the bits of a double. -/
theorem mul_of_covers {a b c : Binary} (hb : b.Normalized) (ha : 0 < a.mantissa)
    (hc : 0 < c.mantissa) (hbits : 2 ^ 52 ≤ a.mantissa) (hv : b.Covers (a.value * c.value)) :
    UnpackedFloat.mul Format.binary64 (a.unpacked ha) (c.unpacked hc) = b.unpacked hb.pos := by
  have hproduct : a.value * c.value =
      (a.mantissa * c.mantissa : Nat) * 2 ^ (a.exponent + c.exponent) := by
    rw [Binary.value, Binary.value, zpow_add₀ (by norm_num)]
    push_cast
    ring
  rw [hproduct] at hv
  have henough : Enough (a.mantissa * c.mantissa) (a.exponent + c.exponent) :=
    enough_of_full (hbits.trans (Nat.le_mul_of_pos_right _ hc))
  exact roundWithAccuracy_of_covers hb hv (placed_exact_zpow _ _) henough

/-- The remainder of a division tells where the quotient stands. -/
theorem placed_div (n d : Nat) (hd : 0 < d) :
    Placed (n / d) (n / d : ℚ) (accuracyOfFraction (n % d) d) := by
  have hd' : (0 : ℚ) < d := by exact_mod_cast hd
  have hn : (n : ℚ) = d * (n / d : Nat) + (n % d : Nat) := by
    exact_mod_cast (Nat.div_add_mod n d).symm
  have hlt : ((n % d : Nat) : ℚ) < d := by exact_mod_cast Nat.mod_lt n hd
  have hquot : (n / d : ℚ) = (n / d : Nat) + (n % d : Nat) / d := by
    rw [div_eq_iff hd'.ne', add_mul, div_mul_cancel₀ _ hd'.ne', mul_comm]
    exact hn
  rw [hquot, accuracyOfFraction]
  generalize n % d = r at *
  split
  · next hr => simp [hr, Placed]
  · next hr =>
    have hr' : (0 : ℚ) < r := by exact_mod_cast Nat.pos_of_ne_zero hr
    have hpos : (0 : ℚ) < r / d := div_pos hr' hd'
    have hone : (r / d : ℚ) < 1 := (div_lt_one hd').mpr hlt
    have htwo : (r / d : ℚ) * (2 * d) = 2 * r := by field_simp
    cases hcompare : compare (2 * r) d with
    | lt =>
        have h : (2 * r : ℚ) < d := by exact_mod_cast Nat.compare_eq_lt.mp hcompare
        refine ⟨by linarith, ?_⟩
        have : (r / d : ℚ) < 1 / 2 := by rw [div_lt_div_iff₀ hd' (by norm_num)]; linarith
        linarith
    | eq =>
        have h : (2 * r : ℚ) = d := by exact_mod_cast Nat.compare_eq_eq.mp hcompare
        show _ = _
        have : (r / d : ℚ) = 1 / 2 := by rw [div_eq_div_iff hd'.ne' (by norm_num)]; linarith
        linarith
    | gt =>
        have h : (d : ℚ) < 2 * r := by exact_mod_cast Nat.compare_eq_gt.mp hcompare
        refine ⟨?_, by linarith⟩
        have : (1 / 2 : ℚ) < r / d := by rw [div_lt_div_iff₀ (by norm_num) hd']; linarith
        linarith

/-- The exponent that a quotient is computed with: the one that it is rounded to, or less. -/
def quotientExponent (a c : Binary) : ℤ :=
  min (a.exponent - c.exponent) (Format.binary64.targetExponent
    (totalExponent a.mantissa a.exponent - totalExponent c.mantissa c.exponent))

section

variable {a b c : Binary} {n : Nat}

theorem placed_quotient (hc : 0 < c.mantissa)
    (hn : a.exponent - c.exponent - quotientExponent a c = n) :
    Placed (a.mantissa <<< n / c.mantissa) (a.value / c.value / 2 ^ quotientExponent a c)
      (accuracyOfFraction (a.mantissa <<< n % c.mantissa) c.mantissa) := by
  have hquot : a.value / c.value / 2 ^ quotientExponent a c =
      (a.mantissa <<< n : Nat) / c.mantissa := by
    have hexp : a.exponent = n + c.exponent + quotientExponent a c := by omega
    have hmantissa : (c.mantissa : ℚ) ≠ 0 := by exact_mod_cast hc.ne'
    have hunit := (two_zpow_pos c.exponent).ne'
    have hunit' := (two_zpow_pos (quotientExponent a c)).ne'
    rw [Binary.value, Binary.value, hexp, zpow_add₀ (by norm_num), zpow_add₀ (by norm_num),
      zpow_natCast, Nat.shiftLeft_eq]
    push_cast
    field_simp
  rw [hquot]
  exact placed_div _ _ hc

/-- A quotient has at least as many bits as its operands differ by. -/
theorem enough_quotient (ha : 0 < a.mantissa) (hc : 0 < c.mantissa)
    (hn : a.exponent - c.exponent - quotientExponent a c = n) :
    Enough (a.mantissa <<< n / c.mantissa) (quotientExponent a c) := by
  have hfirst := (placed_exact_zpow a.mantissa a.exponent).total_bounds.2 ha.ne'
  have hsecond := (placed_exact_zpow c.mantissa c.exponent).total_bounds.1
  have hquot := (placed_quotient hc hn).total_bounds.1
  rw [Binary.value, Binary.value,
    div_lt_iff₀ (mul_pos (by exact_mod_cast hc) (two_zpow_pos _))] at hquot
  have hlt : (2 : ℚ) ^ (totalExponent a.mantissa a.exponent - 1) <
      2 ^ (totalExponent (a.mantissa <<< n / c.mantissa) (quotientExponent a c) +
        totalExponent c.mantissa c.exponent) := by
    rw [zpow_add₀ (by norm_num)]
    exact hfirst.trans_lt (hquot.trans (mul_lt_mul_of_pos_left hsecond (two_zpow_pos _)))
  have hless := two_zpow_lt hlt
  have hle : quotientExponent a c ≤ Format.binary64.targetExponent
      (totalExponent a.mantissa a.exponent - totalExponent c.mantissa c.exponent) :=
    min_le_right _ _
  rw [Enough, targetExponent_eq]
  rw [targetExponent_eq] at hle
  omega

theorem div_of_covers (hb : b.Normalized) (ha : 0 < a.mantissa) (hc : 0 < c.mantissa)
    (hv : b.Covers (a.value / c.value)) :
    UnpackedFloat.div Format.binary64 (a.unpacked ha) (c.unpacked hc) = b.unpacked hb.pos := by
  obtain ⟨n, hn⟩ : ∃ n : Nat, a.exponent - c.exponent - quotientExponent a c = n :=
    Int.eq_ofNat_of_zero_le (Int.sub_nonneg_of_le (min_le_left _ _))
  have hshift : (a.exponent - c.exponent - quotientExponent a c).toNat = n := by omega
  have hround := roundWithAccuracy_of_covers hb hv (placed_quotient hc hn)
    (enough_quotient ha hc hn)
  rw [← hshift] at hround
  exact hround

end

theorem log2_le_of_lt {n : Nat} (hpos : 0 < n) (hlt : n < 2 ^ 53) : n.log2 ≤ 52 :=
  Nat.lt_succ_iff.mp ((Nat.log2_lt hpos.ne').mpr hlt)

namespace Binary

/-- A whole number of at most fifty-three bits as a double. -/
def ofNat (n : Nat) : Binary :=
  ⟨n * 2 ^ (52 - n.log2), n.log2 - 52⟩

variable {n : Nat} (hpos : 0 < n) (hlt : n < 2 ^ 53)

include hpos hlt

theorem ofNat_full : 2 ^ 52 ≤ (ofNat n).mantissa := by
  calc 2 ^ 52 = 2 ^ n.log2 * 2 ^ (52 - n.log2) := by
        rw [← pow_add, Nat.add_sub_cancel' (log2_le_of_lt hpos hlt)]
    _ ≤ n * 2 ^ (52 - n.log2) := Nat.mul_le_mul_right _ (Nat.log2_self_le hpos.ne')

theorem ofNat_canonical : (ofNat n).Canonical := by
  have hlog := log2_le_of_lt hpos hlt
  have hexponent : (ofNat n).exponent = n.log2 - 52 := rfl
  have hbits : n * 2 ^ (52 - n.log2) < 2 ^ 53 := by
    calc n * 2 ^ (52 - n.log2) < 2 ^ (n.log2 + 1) * 2 ^ (52 - n.log2) :=
          Nat.mul_lt_mul_of_pos_right Nat.lt_log2_self (by positivity)
      _ = 2 ^ 53 := by
        rw [← pow_add]
        congr 1
        omega
  exact ⟨⟨Nat.mul_pos hpos (by positivity), hbits, by omega, Or.inl (ofNat_full hpos hlt)⟩,
    by omega⟩

theorem ofNat_value : (ofNat n).value = n := by
  have hlog := log2_le_of_lt hpos hlt
  have hexponent : (ofNat n).exponent = -(52 - n.log2 : Nat) := by
    show (n.log2 : ℤ) - 52 = _
    omega
  rw [value, hexponent, zpow_neg, zpow_natCast]
  show ((n * 2 ^ (52 - n.log2) : Nat) : ℚ) * _ = n
  push_cast
  exact mul_inv_cancel_right₀ (by positivity) _

end Binary

theorem toUInt64_toFloat {n : Nat} (hpos : 0 < n) (hlt : n < 2 ^ 53) :
    n.toUInt64.toFloat = (Binary.ofNat n).toFloat (Binary.ofNat_canonical hpos hlt).pos := by
  have hb := Binary.ofNat_canonical hpos hlt
  have hn : n.toUInt64.toNat = n := by
    rw [Nat.toUInt64_eq, UInt64.toNat_ofNat']
    omega
  have hround : UnpackedFloat.ofNat Format.binary64 n = (Binary.ofNat n).unpacked hb.pos := by
    have hcompare : compare (n : ℤ) 0 = .gt := Int.compare_eq_gt.mpr (by omega)
    have hcovers : (Binary.ofNat n).Covers (n * 2 ^ (0 : ℤ)) := by
      rw [zpow_zero, mul_one, ← Binary.ofNat_value hpos hlt]
      exact Binary.covers_value _
    simp only [UnpackedFloat.ofNat, UnpackedFloat.ofInt, UnpackedFloat.normalize, hcompare]
    exact round_of_covers hb.toNormalized hpos hcovers
  show Float.ofModel (.pack (UnpackedFloat.ofNat Format.binary64 n.toUInt64.toNat)) = _
  rw [hn, hround]
  rfl

/-- The model's value of a power of ten, checked against the power. -/
def isPowerOfTen (k : Nat) : UnpackedFloat → Bool
  | .finite .positive m e _ => -52 ≤ e && m * 2 ^ (e + 52).toNat == 10 ^ k * 2 ^ 52
  | _ => false

theorem isPowerOfTen_eq {k : Nat} {f : UnpackedFloat} (h : isPowerOfTen k f = true) :
    ∃ (p : Binary) (hp : 0 < p.mantissa), f = p.unpacked hp ∧ p.value = 10 ^ k := by
  unfold isPowerOfTen at h
  split at h
  · next m e hm =>
    simp only [Bool.and_eq_true, decide_eq_true_eq, beq_iff_eq] at h
    obtain ⟨hle, heq⟩ := h
    obtain ⟨n, hn⟩ := Int.eq_ofNat_of_zero_le (show 0 ≤ e + 52 by omega)
    obtain rfl : e = n - 52 := by omega
    rw [hn] at heq
    have hpow : (m * 2 ^ n : ℚ) = 10 ^ k * 2 ^ 52 := by exact_mod_cast heq
    refine ⟨⟨m, n - 52⟩, hm, rfl, ?_⟩
    rw [Binary.value, zpow_sub₀ (by norm_num), zpow_natCast, ← mul_div_assoc, hpow]
    norm_num
  · cases h

theorem powers_exact :
    ∀ k : Fin Float.exactlyRepresentablePowersOfTen.size,
      isPowerOfTen k Float.exactlyRepresentablePowersOfTen[k].toModel.unpack = true := by
  decide +kernel

/-- The powers of ten that are doubles are tabulated. -/
theorem exists_powerOfTen {k : Nat} (hk : k < Float.exactlyRepresentablePowersOfTen.size) :
    ∃ (p : Binary) (hp : 0 < p.mantissa),
      Float.exactlyRepresentablePowersOfTen[k].toModel.unpack = p.unpacked hp ∧
        p.value = 10 ^ k := by
  exact isPowerOfTen_eq (powers_exact ⟨k, hk⟩)

/-- The model computes a power of ten in full before it rounds. -/
theorem ofScientific_natCast {b : Binary} (hb : b.Normalized) {m e : Nat} (hm : 0 < m)
    (he : e ≤ 2048) (hv : b.Covers (m * 10 ^ e)) :
    UnpackedFloat.ofScientific Format.binary64 m e = b.unpacked hb.pos := by
  have hbits : Format.binary64.mantissaBits = 53 := rfl
  have hlarge : ¬ (e : ℤ) > 2 ^ Format.binary64.exponentBits := by
    show ¬ (e : ℤ) > 2048
    omega
  have hsmall : ¬ (e : ℤ) < -(2 ^ Format.binary64.exponentBits + m.log2) := by
    show ¬ (e : ℤ) < -(2048 + m.log2)
    omega
  let a : Binary := ⟨m <<< 53, -(53 : Nat)⟩
  let c : Binary := ⟨10 ^ e, 0⟩
  have hfull : 2 ^ 52 ≤ a.mantissa := by
    show 2 ^ 52 ≤ m <<< 53
    rw [Nat.shiftLeft_eq]
    omega
  have hvalue : a.value * c.value = m * 10 ^ e := by
    show ((m <<< 53 : Nat) * 2 ^ (-(53 : Nat) : ℤ) * ((10 ^ e : Nat) * 2 ^ (0 : ℤ)) : ℚ) = _
    rw [Nat.shiftLeft_eq, zpow_neg, zpow_natCast, zpow_zero, Nat.cast_mul, Nat.cast_pow,
      Nat.cast_ofNat, mul_inv_cancel_right₀ (by norm_num)]
    push_cast
    ring
  simp only [UnpackedFloat.ofScientific, hbits, Int.toNat_natCast]
  rw [dif_neg hm.ne', if_neg hlarge, if_neg hsmall, if_pos (Int.natCast_nonneg e)]
  exact mul_of_covers (a := a) (c := c) hb _ (Nat.pow_pos (by norm_num)) hfull (hvalue ▸ hv)

theorem ofScientific_neg {b : Binary} (hb : b.Normalized) {m e : Nat} (hm : 0 < m) (hpos : 0 < e)
    (he : e ≤ 2048) (hv : b.Covers (m / 10 ^ e)) :
    UnpackedFloat.ofScientific Format.binary64 m (-e) = b.unpacked hb.pos := by
  have hlarge : ¬ -(e : ℤ) > 2 ^ Format.binary64.exponentBits := by
    show ¬ -(e : ℤ) > 2048
    omega
  have hsmall : ¬ -(e : ℤ) < -(2 ^ Format.binary64.exponentBits + m.log2) := by
    show ¬ -(e : ℤ) < -(2048 + m.log2)
    omega
  let a : Binary := ⟨m, 0⟩
  let c : Binary := ⟨10 ^ e, 0⟩
  have hvalue : a.value / c.value = m / 10 ^ e := by
    show (m * 2 ^ (0 : ℤ) / ((10 ^ e : Nat) * 2 ^ (0 : ℤ)) : ℚ) = _
    push_cast
    ring
  simp only [UnpackedFloat.ofScientific, neg_neg, Int.toNat_natCast]
  rw [dif_neg hm.ne', if_neg hlarge, if_neg hsmall, if_neg (by omega)]
  exact div_of_covers (a := a) (c := c) hb hm (Nat.pow_pos (by norm_num)) (hvalue ▸ hv)

/-- Digits in front of a power of ten are read as the double that covers their value. -/
theorem ofScientific_product {b : Binary} (hb : b.Normalized) {m e : Nat} (hm : 0 < m)
    (he : e ≤ 2048) (hv : b.Covers (m * 10 ^ e)) :
    Float.ofScientific m false e = b.toFloat hb.pos := by
  unfold Float.ofScientific
  split
  · next hfast =>
    have hsize : e < Float.exactlyRepresentablePowersOfTen.size := Nat.lt_succ_iff.mpr hfast.2
    obtain ⟨p, hp, hpower, hvalue⟩ := exists_powerOfTen hsize
    have hn := Binary.ofNat_canonical hm hfast.1
    rw [← Binary.ofNat_value hm hfast.1, ← hvalue] at hv
    rw [if_neg Bool.false_ne_true, toUInt64_toFloat hm hfast.1]
    show Float.ofModel (.pack (UnpackedFloat.mul Format.binary64
      ((Binary.ofNat m).toFloat hn.pos).toModel.unpack
      Float.exactlyRepresentablePowersOfTen[e].toModel.unpack)) = _
    rw [unpack_toFloat hn, hpower, mul_of_covers hb hn.pos hp (Binary.ofNat_full hm hfast.1) hv]
    rfl
  · rw [if_neg Bool.false_ne_true]
    exact congrArg (fun f => Float.ofModel (.pack f)) (ofScientific_natCast hb hm he hv)

/-- Digits over a power of ten are read as the double that covers their value. -/
theorem ofScientific_quotient {b : Binary} (hb : b.Normalized) {m e : Nat} (hm : 0 < m)
    (hpos : 0 < e) (he : e ≤ 2048) (hv : b.Covers (m / 10 ^ e)) :
    Float.ofScientific m true e = b.toFloat hb.pos := by
  unfold Float.ofScientific
  split
  · next hfast =>
    have hsize : e < Float.exactlyRepresentablePowersOfTen.size := Nat.lt_succ_iff.mpr hfast.2
    obtain ⟨p, hp, hpower, hvalue⟩ := exists_powerOfTen hsize
    have hn := Binary.ofNat_canonical hm hfast.1
    rw [← Binary.ofNat_value hm hfast.1, ← hvalue] at hv
    rw [if_pos rfl, toUInt64_toFloat hm hfast.1]
    show Float.ofModel (.pack (UnpackedFloat.div Format.binary64
      ((Binary.ofNat m).toFloat hn.pos).toModel.unpack
      Float.exactlyRepresentablePowersOfTen[e].toModel.unpack)) = _
    rw [unpack_toFloat hn, hpower, div_of_covers hb hn.pos hp hv]
    rfl
  · rw [if_pos rfl, Int.negOfNat_eq]
    exact congrArg (fun f => Float.ofModel (.pack f)) (ofScientific_neg hb hm hpos he hv)

/-- A numeral without an exponent mark is read as the double that covers it. -/
theorem Numeral.value_of_covers {b : Binary} (hb : b.Normalized) {n : Numeral}
    (hexponent : n.exponent = 0) (hlength : n.fraction.length ≤ 2048)
    (hv : b.Covers (digitsValue (n.whole ++ n.fraction) / 10 ^ n.fraction.length)) :
    n.value = b.toFloat hb.pos := by
  have hpos : 0 < digitsValue (n.whole ++ n.fraction) := by
    refine Nat.pos_of_ne_zero fun hzero => ?_
    have hv_pos := hv.pos hb.pos
    rw [hzero, Nat.cast_zero, zero_div] at hv_pos
    exact hv_pos.false
  -- no cut-off of the exponent takes place, for the digits behind the point count as digits
  have hcut : max (-((n.whole ++ n.fraction).length + 400 : ℤ))
      (min 400 (n.exponent - (n.fraction.length : ℤ))) = -n.fraction.length := by
    rw [List.length_append]
    omega
  simp only [value, hcut]
  split
  · next hwhole =>
    have hnone : n.fraction.length = 0 := by omega
    rw [hnone, pow_zero, div_one] at hv
    rw [hnone]
    refine ofScientific_product hb hpos (by norm_num) ?_
    rw [show (-((0 : Nat) : ℤ)).toNat = 0 from rfl, pow_zero, mul_one]
    exact hv
  · next hpart =>
    rw [neg_neg, Int.toNat_natCast]
    exact ofScientific_quotient hb hpos (by omega) hlength hv

end Slipbox.Decimal
