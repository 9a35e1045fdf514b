import Slipbox.Proofs.Decimal.Plain

/-! Cutting a double off at the point leaves its whole part, or the largest number of sixty-four
bits where that is larger. Whole numbers of at most `2^53` are read exactly, so they are given back. -/

namespace Slipbox.Decimal

open Float.Model Float.Model.UnpackedFloat

namespace Binary

/-- The whole part of a double. -/
theorem roundToInt_eq_floor (b : Binary) :
    roundToInt .positive b.mantissa b.exponent = ⌊b.value⌋ := by
  refine (Int.floor_eq_iff.mpr ?_).symm
  rcases Int.le_total 0 b.exponent with hwhole | hpart
  · obtain ⟨n, hn⟩ := Int.eq_ofNat_of_zero_le hwhole
    have hraise : (b.exponent - 0).toNat = n := by omega
    have hstay : (0 - (b.exponent - n)).toNat = 0 := by omega
    have hshift : roundToInt .positive b.mantissa b.exponent = (b.mantissa <<< n : Nat) := by
      simp only [roundToInt, decreaseExponent, shiftToExponent, hraise, hstay]
      rfl
    rw [hshift, value, hn, Nat.shiftLeft_eq, zpow_natCast]
    push_cast
    exact ⟨le_rfl, lt_add_one _⟩
  · obtain ⟨n, hn⟩ := Int.eq_ofNat_of_zero_le (show 0 ≤ -b.exponent by omega)
    have hraise : (b.exponent - 0).toNat = 0 := by omega
    have hlower : (0 - (b.exponent - (0 : Nat))).toNat = n := by omega
    let em := ExtendedMantissa.ofMantissaAndAccuracy b.mantissa .exact
    have hshift : roundToInt .positive b.mantissa b.exponent = ((em >>> n).mantissa : Nat) := by
      simp only [roundToInt, decreaseExponent, shiftToExponent, hraise, hlower,
        Nat.shiftLeft_zero]
      rfl
    have hexact : Placed em.mantissa (b.mantissa : ℚ) em.accuracy := rfl
    have hvalue : b.value = b.mantissa / 2 ^ n := by
      rw [value, show b.exponent = -n by omega, zpow_neg, zpow_natCast, div_eq_mul_inv]
    rw [hshift, hvalue]
    exact_mod_cast (placed_shiftRight hexact n).bounds

variable {b : Binary}

/-- A double that is too large is infinite. -/
theorem unpack_toFloat_overflow (hb : b.Normalized) (hlarge : 971 < b.exponent) :
    (b.toFloat hb.pos).toModel.unpack = .infinity .positive := by
  have hbiased : 2 ^ Format.binary64.exponentBits ≤ (b.exponent +
      (Format.binary64.exponentBias : Nat) +
      (Format.binary64.mantissaBitsWithoutImplicit : Nat)).toNat + 1 := by
    show 2 ^ 11 ≤ (b.exponent + 1023 + 52).toNat + 1
    omega
  have hpack : UnpackedFloat.pack Format.binary64 (b.unpacked hb.pos) =
      packedInfinity Format.binary64 .positive := if_pos hbiased
  show UnpackedFloat.unpack Format.binary64 (UnpackedFloat.pack Format.binary64 _) = _
  rw [hpack]
  rfl

theorem toUInt64_eq_min (hb : b.Normalized) :
    (b.toFloat hb.pos).toUInt64.toNat = min ⌊b.value⌋.toNat (2 ^ 64 - 1) := by
  have hclamp (n : Nat) : (UInt64.ofNatClamp n).toNat = min n (2 ^ 64 - 1) := by
    unfold UInt64.ofNatClamp
    split
    · next hfits => exact (Nat.min_eq_left (Nat.le_sub_one_of_lt hfits)).symm
    · next hlarge => exact (Nat.min_eq_right ((Nat.sub_le _ _).trans (not_lt.mp hlarge))).symm
  show (UnpackedFloat.toUInt64 (b.toFloat hb.pos).toModel.unpack).toNat = _
  rcases Int.lt_or_le 971 b.exponent with hlarge | hfits
  · rw [unpack_toFloat_overflow hb hlarge, UnpackedFloat.toUInt64, hclamp]
    have hvalue : ((2 ^ 64 : ℤ) : ℚ) ≤ b.value := by
      have hone : (1 : ℚ) ≤ b.mantissa := by exact_mod_cast hb.pos
      calc ((2 ^ 64 : ℤ) : ℚ) ≤ 1 * 2 ^ (64 : ℤ) := by norm_num
        _ ≤ b.mantissa * 2 ^ b.exponent :=
          mul_le_mul hone (zpow_le_zpow_right₀ (by norm_num) (by omega)) (by norm_num)
            (zero_le_one.trans hone)
    have hfloor := Int.le_floor.mpr hvalue
    show min (2 ^ 64 - 1) (2 ^ 64 - 1) = min ⌊b.value⌋.toNat (2 ^ 64 - 1)
    omega
  · rw [unpack_toFloat ⟨hb, hfits⟩, UnpackedFloat.toUInt64, hclamp]
    show min (roundToInt .positive b.mantissa b.exponent).toNat _ = _
    rw [roundToInt_eq_floor]

end Binary

theorem toUInt64_ofNat {n : Nat} (hpos : 0 < n) (hlt : n < 2 ^ 53) :
    ((Binary.ofNat n).toFloat (Binary.ofNat_canonical hpos hlt).pos).toUInt64.toNat = n := by
  rw [Binary.toUInt64_eq_min (Binary.ofNat_canonical hpos hlt).toNormalized,
    Binary.ofNat_value hpos hlt, Int.floor_natCast, Int.toNat_natCast]
  omega

theorem ofNat_le_bound {n : Nat} (hpos : 0 < n) (hlt : n < 2 ^ 53) :
    (Binary.ofNat n).toFloat (Binary.ofNat_canonical hpos hlt).pos ≤ 18446744073709551616.0 := by
  have htop : (Binary.power 64).Canonical := Binary.power_canonical (by norm_num) (by norm_num)
  have hbound : (18446744073709551616.0 : Float) = (Binary.power 64).toFloat htop.pos := by
    refine ofScientific_quotient htop.toNormalized (by norm_num) (by norm_num) (by norm_num) ?_
    have hdecimal : (Binary.power 64).value = (184467440737095516160 : Nat) / 10 ^ 1 := by
      rw [Binary.power_value]
      norm_num
    exact hdecimal ▸ Binary.covers_value _
  have hless : (n : ℚ) ≤ 2 ^ (64 : ℤ) := by exact_mod_cast (by omega : n ≤ 2 ^ 64)
  rw [hbound, Binary.toFloat_le_iff (Binary.ofNat_canonical hpos hlt) htop, Binary.power_value,
    Binary.ofNat_value hpos hlt]
  exact hless

/-- The digits of a whole number, read as a double that is cut off at the point. -/
theorem digits_read_back {n : Nat} (h : n ≤ 2 ^ 53) :
    Numeral.value ⟨digitChars n, [], 0⟩ ≤ 18446744073709551616.0 ∧
      (Numeral.value ⟨digitChars n, [], 0⟩).toUInt64.toNat = n := by
  rcases Nat.lt_or_eq_of_le h with hlt | rfl
  · rcases Nat.eq_zero_or_pos n with rfl | hpos
    · decide +kernel
    · have hb := Binary.ofNat_canonical hpos hlt
      have hvalue : Numeral.value ⟨digitChars n, [], 0⟩ = (Binary.ofNat n).toFloat hb.pos := by
        refine Numeral.value_of_covers hb.toNormalized rfl (Nat.zero_le _) ?_
        rw [List.append_nil, digitsValue_digitChars, List.length_nil, pow_zero, div_one,
          ← Binary.ofNat_value hpos hlt]
        exact Binary.covers_value _
      rw [hvalue]
      exact ⟨ofNat_le_bound hpos hlt, toUInt64_ofNat hpos hlt⟩
  · decide +kernel

end Slipbox.Decimal
