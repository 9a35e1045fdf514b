import Slipbox.Proofs.Decimal.Monotone

/-! Quotients and sums of positive doubles. Each is the double that covers the exact result, so it
stays within every bound that is a double itself, and doubles compare as their values do. -/

namespace Slipbox.Decimal

open Float.Model Float.Model.UnpackedFloat

section Operations

variable {a b c : Binary}

/-- The mantissas of a sum are added in the smaller of the two units. -/
theorem add_of_covers (hb : b.Normalized) (ha : 0 < a.mantissa) (hc : 0 < c.mantissa)
    (hv : b.Covers (a.value + c.value)) :
    UnpackedFloat.add Format.binary64 (a.unpacked ha) (c.unpacked hc) = b.unpacked hb.pos := by
  generalize he : min a.exponent c.exponent = e
  generalize hn : (a.exponent - e).toNat = n
  generalize hk : (c.exponent - e).toNat = k
  have hvalue : a.value + c.value = (a.mantissa <<< n + c.mantissa <<< k : Nat) * 2 ^ e := by
    rw [Binary.value, Binary.value, show a.exponent = e + n by omega,
      show c.exponent = e + k by omega, zpow_add₀ (by norm_num), zpow_add₀ (by norm_num),
      zpow_natCast, zpow_natCast, Nat.shiftLeft_eq, Nat.shiftLeft_eq]
    push_cast
    ring
  have hpos : 0 < a.mantissa <<< n + c.mantissa <<< k := by
    rw [Nat.shiftLeft_eq]
    positivity
  have hcompare : compare ((a.mantissa <<< n : Nat) + (c.mantissa <<< k : Nat) : ℤ) 0 = .gt :=
    Int.compare_eq_gt.mpr (by exact_mod_cast hpos)
  rw [hvalue] at hv
  have hround := round_of_covers hb hpos hv
  simp only [Binary.unpacked, UnpackedFloat.add, decreaseExponent, Sign.apply, he, hn, hk,
    UnpackedFloat.normalize, hcompare]
  exact hround

end Operations

theorem one_canonical : (Binary.power 0).Canonical :=
  Binary.power_canonical (by norm_num) (by norm_num)

theorem two_canonical : (Binary.power 1).Canonical :=
  Binary.power_canonical (by norm_num) (by norm_num)

/-- A double with the value of a whole number is what the number is read as. -/
theorem toFloat_eq_ofNat {b : Binary} (hb : b.Canonical) {n : Nat} (hn : 0 < n)
    (hvalue : b.value = n) : b.toFloat hb.pos = Float.ofNat n := by
  have hcovers : b.Covers (n * 10 ^ 0) := by
    rw [pow_zero, mul_one, ← hvalue]
    exact b.covers_value
  exact (ofScientific_product hb.toNormalized hn (by norm_num) hcovers).symm

theorem unpack_zero : (0 : Float).toModel.unpack = .zero .positive := rfl

/-- The number that a positive double stands for. -/
def realValue (x : Float) : ℚ :=
  match x.toModel.unpack with
  | .finite .positive mantissa exponent _ => Binary.value ⟨mantissa, exponent⟩
  | _ => 0

theorem realValue_toFloat {b : Binary} (hb : b.Canonical) :
    realValue (b.toFloat hb.pos) = b.value := by
  rw [realValue, unpack_toFloat hb]
  rfl

/-- The double is positive and no larger than a rational. -/
def UpTo (q : ℚ) (x : Float) : Prop :=
  ∃ (b : Binary) (hb : b.Canonical), x = b.toFloat hb.pos ∧ b.value ≤ q

namespace UpTo

variable {q : ℚ} {x y : Float}

theorem mono {q' : ℚ} (h : UpTo q x) (hle : q ≤ q') : UpTo q' x := by
  obtain ⟨b, hb, rfl, hvalue⟩ := h
  exact ⟨b, hb, rfl, hvalue.trans hle⟩

theorem pos (h : UpTo q x) : 0 < x := by
  obtain ⟨b, hb, rfl, -⟩ := h
  refine decide_eq_true ?_
  show UnpackedFloat.lt (0 : Float).toModel.unpack (b.toFloat hb.pos).toModel.unpack = true
  rw [unpack_toFloat hb, unpack_zero]
  rfl

theorem le_toFloat {c : Binary} (hc : c.Canonical) (h : UpTo c.value x) : x ≤ c.toFloat hc.pos := by
  obtain ⟨b, hb, rfl, hvalue⟩ := h
  exact (Binary.toFloat_le_iff hb hc).mpr hvalue

section Order

variable {p : ℚ} (hx : UpTo p x) (hy : UpTo q y)

include hx hy

theorem lt_iff : x < y ↔ realValue x < realValue y := by
  obtain ⟨a, ha, rfl, -⟩ := hx
  obtain ⟨b, hb, rfl, -⟩ := hy
  rw [Binary.toFloat_lt_iff ha hb, realValue_toFloat ha, realValue_toFloat hb]

theorem beq_iff : (x == y) = true ↔ realValue x = realValue y := by
  obtain ⟨a, ha, rfl, -⟩ := hx
  obtain ⟨b, hb, rfl, -⟩ := hy
  rw [Binary.toFloat_beq_iff ha hb, realValue_toFloat ha, realValue_toFloat hb]

theorem eq_of_realValue (h : realValue x = realValue y) : x = y := by
  obtain ⟨a, ha, rfl, -⟩ := hx
  obtain ⟨b, hb, rfl, -⟩ := hy
  rw [realValue_toFloat ha, realValue_toFloat hb] at h
  obtain rfl := Binary.eq_of_value ha.toNormalized hb.toNormalized h
  rfl

end Order

/-- A zero adds nothing, on either side. -/
theorem add_zero (h : UpTo q x) : x + 0 = x := by
  obtain ⟨b, hb, rfl, -⟩ := h
  show Float.ofModel (.pack (UnpackedFloat.add Format.binary64 (b.toFloat hb.pos).toModel.unpack
    (0 : Float).toModel.unpack)) = _
  rw [unpack_toFloat hb, unpack_zero]
  rfl

theorem zero_add (h : UpTo q x) : 0 + x = x := by
  obtain ⟨b, hb, rfl, -⟩ := h
  show Float.ofModel (.pack (UnpackedFloat.add Format.binary64 (0 : Float).toModel.unpack
    (b.toFloat hb.pos).toModel.unpack)) = _
  rw [unpack_toFloat hb, unpack_zero]
  rfl

/-- A sum of doubles stays within the double that is the sum of their bounds. -/
theorem add {p : ℚ} (hx : UpTo p x) (hy : UpTo q y) {c : Binary} (hc : c.Canonical)
    (hbound : p + q ≤ c.value) : UpTo c.value (x + y) := by
  obtain ⟨a, ha, rfl, hvalue⟩ := hx
  obtain ⟨b, hb, rfl, hvalue'⟩ := hy
  have hsmallest : 2 ^ (-1074 : ℤ) ≤ a.value + b.value :=
    ha.smallest_le.trans (le_add_of_nonneg_right (Binary.value_pos hb.pos).le)
  obtain ⟨s, hs, hcovers⟩ := Binary.exists_covers hsmallest
  have hle : s.value ≤ c.value := hcovers.value_le hs hc.toNormalized (by linarith)
  refine ⟨s, hc.of_value_le hs hle, ?_, hle⟩
  show Float.ofModel (.pack (UnpackedFloat.add Format.binary64 (a.toFloat ha.pos).toModel.unpack
    (b.toFloat hb.pos).toModel.unpack)) = _
  rw [unpack_toFloat ha, unpack_toFloat hb, add_of_covers hs ha.pos hb.pos hcovers]
  rfl

end UpTo

section Whole

/-! Whole numbers over larger ones. -/

variable {a c : Binary}

/-- The quotient of two doubles that are not less than one, the second not less than the first. -/
theorem upTo_div (ha : a.Canonical) (hc : c.Canonical) (hone : 1 ≤ a.value)
    (hle : a.value ≤ c.value) (hlarge : c.value ≤ 2 ^ 65) :
    UpTo 1 (a.toFloat ha.pos / c.toFloat hc.pos) := by
  have hc_pos : 0 < c.value := by linarith
  have hsmallest : 2 ^ (-1074 : ℤ) ≤ a.value / c.value := by
    calc (2 : ℚ) ^ (-1074 : ℤ) ≤ 2 ^ (-65 : ℤ) := zpow_le_zpow_right₀ (by norm_num) (by norm_num)
      _ = 1 / 2 ^ 65 := by norm_num
      _ ≤ a.value / c.value := by gcongr
  obtain ⟨b, hb, hcovers⟩ := Binary.exists_covers hsmallest
  have hbound : b.value ≤ (Binary.power 0).value := by
    refine hcovers.value_le hb one_canonical.toNormalized ?_
    rw [Binary.power_value, zpow_zero]
    exact (div_le_one hc_pos).mpr hle
  refine ⟨b, one_canonical.of_value_le hb hbound, ?_, by rwa [Binary.power_value] at hbound⟩
  show Float.ofModel (.pack (UnpackedFloat.div Format.binary64 (a.toFloat ha.pos).toModel.unpack
    (c.toFloat hc.pos).toModel.unpack)) = _
  rw [unpack_toFloat ha, unpack_toFloat hc, div_of_covers hb ha.pos hc.pos hcovers]
  rfl

/-- A positive whole number of no more than sixty-five bits as a double. -/
theorem exists_ofNat {n : Nat} (hn : 0 < n) (hlarge : n ≤ 2 ^ 65) :
    ∃ (b : Binary) (hb : b.Canonical), b.Covers n ∧ Float.ofNat n = b.toFloat hb.pos ∧
      1 ≤ b.value ∧ b.value ≤ 2 ^ 65 := by
  obtain ⟨b, hb, hcovers, hread⟩ := exists_ofScientific hn
  have hcanonical : (Binary.power 65).Canonical :=
    Binary.power_canonical (by norm_num) (by norm_num)
  have hhigh : b.value ≤ (Binary.power 65).value := by
    refine hcovers.value_le hb hcanonical.toNormalized ?_
    rw [Binary.power_value]
    exact_mod_cast hlarge
  have hlow : (Binary.power 0).value ≤ b.value := by
    refine hcovers.le_value hb one_canonical.toNormalized ?_
    rw [Binary.power_value]
    exact_mod_cast hn
  refine ⟨b, hcanonical.of_value_le hb hhigh, hcovers, hread, ?_, ?_⟩
  · rwa [Binary.power_value] at hlow
  · rw [Binary.power_value] at hhigh
    exact_mod_cast hhigh

/-- The quotient of a whole number by one that is not less. -/
theorem upTo_share {n u : Nat} (hn : 0 < n) (hle : n ≤ u) (hlarge : u ≤ 2 ^ 65) :
    UpTo 1 (Float.ofNat n / Float.ofNat u) := by
  obtain ⟨c, hc, hcovers, hread, hone, hbound⟩ := exists_ofNat (hn.trans_le hle) hlarge
  rcases hle.lt_or_eq with hlt | rfl
  -- only of different numbers does rounding keep the order; equal ones are read as one double
  · obtain ⟨a, ha, hcovers', hread', hone', -⟩ := exists_ofNat hn (hle.trans hlarge)
    rw [hread, hread']
    refine upTo_div ha hc hone' ?_ hbound
    exact Binary.value_le_of_covers ha.toNormalized hc.toNormalized hcovers' hcovers
      (by exact_mod_cast hlt)
  · rw [hread]
    exact upTo_div hc hc hone le_rfl hbound

end Whole

namespace UpTo

variable {x y : Float}

theorem le_one (h : UpTo 1 x) : x ≤ 1 := by
  have hone : (Binary.power 0).toFloat one_canonical.pos = 1 :=
    toFloat_eq_ofNat one_canonical one_pos (by rw [Binary.power_value]; norm_num)
  rw [← hone]
  exact le_toFloat one_canonical (by rwa [Binary.power_value])

theorem le_two (h : UpTo 2 x) : x ≤ 2 := by
  have htwo : (Binary.power 1).toFloat two_canonical.pos = 2 :=
    toFloat_eq_ofNat two_canonical two_pos (by rw [Binary.power_value]; norm_num)
  rw [← htwo]
  exact le_toFloat two_canonical (by rwa [Binary.power_value, zpow_one])

theorem add_ones (hx : UpTo 1 x) (hy : UpTo 1 y) : UpTo 2 (x + y) := by
  have hsum := hx.add hy two_canonical (by rw [Binary.power_value]; norm_num)
  rwa [Binary.power_value, zpow_one] at hsum

end UpTo

end Slipbox.Decimal
