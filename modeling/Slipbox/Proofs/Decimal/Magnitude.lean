import Slipbox.Proofs.Decimal.Shortest

/-! Decimals of few digits. A double is estimated to a power of ten, from which the search for its
shortest decimal starts. Where it covers a decimal of at most fifteen digits, its interval is
narrower than a unit of the last digit, so this decimal is the shortest one. -/

namespace Slipbox.Decimal

section Powers

variable {p q w : ℕ} {k : ℤ}

/-- One power of two below a power of ten bounds them all in this ratio. -/
theorem two_pow_le (hbase : 2 ^ q ≤ 10 ^ p) (hq : q ≠ 0) (h : (p * w : ℤ) ≤ q * k) :
    (2 : ℚ) ^ w ≤ 10 ^ k := by
  have hbase' : (2 : ℚ) ^ q ≤ 10 ^ p := by exact_mod_cast hbase
  have hpow : ((2 : ℚ) ^ w) ^ q ≤ ((10 : ℚ) ^ k) ^ q := by
    calc ((2 : ℚ) ^ w) ^ q = (2 ^ q) ^ w := pow_right_comm ..
      _ ≤ (10 ^ p) ^ w := pow_le_pow_left₀ (by positivity) hbase' w
      _ = 10 ^ (p * w : ℤ) := by rw [← pow_mul]; exact_mod_cast rfl
      _ ≤ 10 ^ (q * k : ℤ) := zpow_le_zpow_right₀ (by norm_num) h
      _ = (10 ^ k) ^ q := by rw [mul_comm, zpow_mul, zpow_natCast]
  exact le_of_pow_le_pow_left₀ hq (by positivity) hpow

theorem ten_zpow_le (hbase : 10 ^ p ≤ 2 ^ q) (hq : q ≠ 0) (h : (q * k : ℤ) ≤ p * w) :
    (10 : ℚ) ^ k ≤ 2 ^ w := by
  have hbase' : (10 : ℚ) ^ p ≤ 2 ^ q := by exact_mod_cast hbase
  have hpow : ((10 : ℚ) ^ k) ^ q ≤ ((2 : ℚ) ^ w) ^ q := by
    calc ((10 : ℚ) ^ k) ^ q = 10 ^ (q * k : ℤ) := by rw [mul_comm, zpow_mul, zpow_natCast]
      _ ≤ 10 ^ (p * w : ℤ) := zpow_le_zpow_right₀ (by norm_num) h
      _ = (10 ^ p) ^ w := by rw [← pow_mul]; exact_mod_cast rfl
      _ ≤ (2 ^ q) ^ w := pow_le_pow_left₀ (by positivity) hbase' w
      _ = (2 ^ w) ^ q := pow_right_comm ..
  exact le_of_pow_le_pow_left₀ hq (by positivity) hpow

/-- Zeros at the end of a whole number move its last place. -/
theorem natCast_mul_ten_pow (n j : ℕ) (k : ℤ) :
    ((n * 10 ^ j : ℕ) : ℚ) * 10 ^ k = n * 10 ^ (k + j) := by
  rw [zpow_add₀ (by norm_num), zpow_natCast]
  push_cast
  ring

end Powers

namespace Binary

variable {b : Binary}

/-- The power of two just above a double. -/
def bits (b : Binary) : ℤ :=
  b.mantissa.log2 + 1 + b.exponent

theorem value_bits (hpos : 0 < b.mantissa) :
    2 ^ (b.bits - 1) ≤ b.value ∧ b.value < 2 ^ b.bits := by
  have hlow : (2 : ℚ) ^ b.mantissa.log2 ≤ b.mantissa := by
    exact_mod_cast Nat.log2_self_le hpos.ne'
  have hhigh : (b.mantissa : ℚ) < 2 ^ (b.mantissa.log2 + 1) := by
    exact_mod_cast Nat.lt_log2_self
  have hunit := two_zpow_pos b.exponent
  rw [bits, value]
  constructor
  · rw [add_right_comm, add_sub_cancel_right, zpow_add₀ (by norm_num), zpow_natCast]
    exact mul_le_mul_of_nonneg_right hlow hunit.le
  · rw [zpow_add₀ (by norm_num)]
    exact mul_lt_mul_of_pos_right (by exact_mod_cast hhigh) hunit

theorem Canonical.bits_bounds (hb : b.Canonical) :
    -1073 ≤ b.bits ∧ b.bits ≤ 1024 ∧
      100000 * (b.magnitude - 1) ≤ 30103 * b.bits ∧ 30103 * b.bits < 100000 * b.magnitude := by
  have hge := hb.exponent_ge
  have hle := hb.exponent_le
  have hlog : b.mantissa.log2 < 53 := (Nat.log2_lt hb.pos.ne').mpr hb.mantissa_lt
  unfold magnitude bits
  rw [Int.fdiv_eq_ediv_of_nonneg _ (by norm_num)]
  omega

theorem Canonical.value_lt_ten (hb : b.Canonical) : b.value < 10 ^ b.magnitude := by
  obtain ⟨hlow, hhigh, -, hestimate⟩ := hb.bits_bounds
  refine (value_bits hb.pos).2.trans_le ?_
  rcases Int.le_total 0 b.bits with hbits | hbits
  · obtain ⟨w, hw⟩ := Int.eq_ofNat_of_zero_le hbits
    rw [hw, zpow_natCast]
    exact two_pow_le (p := 146) (q := 485) (by decide +kernel) (by norm_num) (by omega)
  · obtain ⟨w, hw⟩ := Int.eq_ofNat_of_zero_le (Int.neg_nonneg_of_nonpos hbits)
    obtain hw : b.bits = -w := by omega
    rw [hw, ← neg_neg b.magnitude, zpow_neg, zpow_neg 10, zpow_natCast]
    refine inv_anti₀ (by positivity) ?_
    exact ten_zpow_le (p := 643) (q := 2136) (by decide +kernel) (by norm_num) (by omega)

theorem Canonical.ten_le_value (hb : b.Canonical) : 10 ^ (b.magnitude - 2) ≤ b.value := by
  obtain ⟨hlow, hhigh, hestimate, -⟩ := hb.bits_bounds
  refine le_trans ?_ (value_bits hb.pos).1
  rcases Int.le_total 0 (b.bits - 1) with hbits | hbits
  · obtain ⟨w, hw⟩ := Int.eq_ofNat_of_zero_le hbits
    rw [hw, zpow_natCast]
    exact ten_zpow_le (p := 59) (q := 196) (by norm_num) (by norm_num) (by omega)
  · obtain ⟨w, hw⟩ := Int.eq_ofNat_of_zero_le (Int.neg_nonneg_of_nonpos hbits)
    obtain hw : b.bits - 1 = -w := by omega
    rw [hw, ← neg_neg (b.magnitude - 2), zpow_neg, zpow_neg 2, zpow_natCast]
    refine inv_anti₀ (by positivity) ?_
    exact two_pow_le (p := 28) (q := 93) (by norm_num) (by norm_num) (by omega)

section Covers

variable {v w : ℚ}

/-- Between what a double covers and the double itself it covers everything. -/
theorem Covers.of_between (h : b.Covers v) (hw : v ≤ w ∧ w ≤ b.value ∨ b.value ≤ w ∧ w ≤ v) :
    b.Covers w := by
  rcases hw with ⟨hlow, hhigh⟩ | ⟨hlow, hhigh⟩
  · have hless := hhigh.trans_lt b.value_lt_high
    refine ⟨h.low.trans hlow, hless.le, fun hends => h.even (.inl ?_)⟩
    exact le_antisymm (hlow.trans (hends.resolve_right hless.ne).le) h.low
  · have hless := b.low_lt_value.trans_le hlow
    refine ⟨hless.le, hhigh.trans h.high, fun hends => h.even (.inr ?_)⟩
    exact le_antisymm h.high ((hends.resolve_left hless.ne').symm.le.trans hhigh)

/-- What a double covers is within half a unit of it. -/
theorem Covers.near (h : b.Covers v) :
    b.value - 2 ^ b.exponent / 2 ≤ v ∧ v ≤ b.value + 2 ^ b.exponent / 2 := by
  have hlow : b.value - 2 ^ b.exponent / 2 ≤ b.low := by
    rw [Binary.value, Binary.low]
    nlinarith [b.below_bounds.2, two_zpow_pos b.exponent]
  exact ⟨hlow.trans h.low, b.high_eq ▸ h.high⟩

theorem unit_le_of_full (hfull : 2 ^ 52 ≤ b.mantissa) : 2 ^ 52 * 2 ^ b.exponent ≤ b.value :=
  mul_le_mul_of_nonneg_right (by exact_mod_cast hfull) (two_zpow_pos _).le

variable {d n : ℕ} {k : ℤ}

/-- Of a decimal with at most fifteen digits that a double covers, the last digit counts for more
than four units of the double. -/
theorem Covers.unit_lt (hfull : 2 ^ 52 ≤ b.mantissa) (h : b.Covers (d * 10 ^ k))
    (hd : d < 10 ^ 15) : 4 * 2 ^ b.exponent < (10 : ℚ) ^ k := by
  have hunit := two_zpow_pos b.exponent
  have hten : (0 : ℚ) < 10 ^ k := zpow_pos (by norm_num) k
  have hd' : (d : ℚ) * 10 ^ k ≤ 10 ^ 15 * 10 ^ k :=
    mul_le_mul_of_nonneg_right (by exact_mod_cast hd.le) hten.le
  linarith [unit_le_of_full hfull, h.near.1]

/-- No other multiple of this digit's place is covered. -/
theorem Covers.eq_of_digits (hfull : 2 ^ 52 ≤ b.mantissa) (h : b.Covers (d * 10 ^ k))
    (hd : d < 10 ^ 15) (hn : b.Covers (n * 10 ^ k)) : n = d := by
  have hunit := two_zpow_pos b.exponent
  have hten : (0 : ℚ) < 10 ^ k := zpow_pos (by norm_num) k
  have hsmall := h.unit_lt hfull hd
  have hle (x y : ℕ) (hx : b.Covers (x * 10 ^ k)) (hy : b.Covers (y * 10 ^ k)) : x ≤ y := by
    have hless : (x : ℚ) * 10 ^ k < (y + 1) * 10 ^ k := by
      linarith [hx.near.2, hy.near.1]
    exact Nat.lt_succ_iff.mp (by exact_mod_cast lt_of_mul_lt_mul_right hless hten.le)
  exact le_antisymm (hle n d hn h) (hle d n h hn)

end Covers

section Shortest

variable {n d : ℕ} {k : ℤ}

/-- A grid with a point in the interval is not passed over: the point stands on one side of the
double, and the nearest one on this side is in the interval too. -/
theorem nearest?_isSome_of_covers (hpos : 0 < b.mantissa) (tie : Tie)
    (h : b.Covers (n * 10 ^ k)) : ((b.interval.rescale k).nearest? tie).isSome = true := by
  obtain ⟨hbelow, habove⟩ := grid_neighbours b k
  generalize hi : b.interval.rescale k = i at hbelow habove
  have hten : (0 : ℚ) < 10 ^ k := zpow_pos (by norm_num) k
  have hcontains (m : ℕ) : i.contains m = true ↔ b.Covers (m * 10 ^ k) :=
    hi ▸ contains_iff hpos k m
  rcases Nat.lt_or_ge (i.value / i.unit) n with hup | hdown
  · refine Interval.nearest?_isSome tie ((hcontains _).mpr (h.of_between (.inr
      ⟨habove.le, mul_le_mul_of_nonneg_right (by exact_mod_cast hup) hten.le⟩)))
  · have hfirst : i.contains (i.value / i.unit) = true :=
      (hcontains _).mpr (h.of_between (.inl
        ⟨mul_le_mul_of_nonneg_right (by exact_mod_cast hdown) hten.le, hbelow⟩))
    unfold Interval.nearest?
    dsimp only
    rw [hfirst]
    cases i.contains (i.value / i.unit + 1) <;> rfl

variable (hb : b.Canonical)

include hb

theorem Canonical.le_magnitude (h : b.Covers (n * 10 ^ k)) : k ≤ b.magnitude := by
  have hten : (0 : ℚ) < 10 ^ k := zpow_pos (by norm_num) k
  have hone : (1 : ℚ) ≤ n := by
    rcases Nat.eq_zero_or_pos n with rfl | hn
    · simpa using h.pos hb.pos
    · exact_mod_cast hn
  have hmantissa : (1 : ℚ) ≤ b.mantissa := by exact_mod_cast hb.pos
  have hvalue : 2 ^ b.exponent ≤ b.value := le_mul_of_one_le_left (two_zpow_pos _).le hmantissa
  have hmore : (10 : ℚ) ^ k < 10 ^ (b.magnitude + 1) := by
    calc (10 : ℚ) ^ k ≤ n * 10 ^ k := le_mul_of_one_le_left hten.le hone
      _ ≤ b.value + 2 ^ b.exponent / 2 := h.near.2
      _ < 10 ^ b.magnitude * 10 := by linarith [hb.value_lt_ten, two_zpow_pos b.exponent]
      _ = 10 ^ (b.magnitude + 1) := (zpow_add_one₀ (by norm_num) _).symm
  exact Int.lt_add_one_iff.mp ((zpow_lt_zpow_iff_right₀ (by norm_num)).mp hmore)

/-- No decimal with a higher last place is covered than the shortest one. -/
theorem Canonical.le_shortest_exponent (tie : Tie) (h : b.Covers (n * 10 ^ k)) :
    k ≤ (b.shortest tie).exponent := by
  by_contra hhigher
  have hnone := Interval.nearest?_eq_none_of_search (hb.search_eq_shortest tie)
    (not_le.mp hhigher) (hb.le_magnitude h)
  simpa [hnone] using nearest?_isSome_of_covers hb.pos tie h

/-- The shortest decimal does not end in a zero. -/
theorem Canonical.shortest_digits (tie : Tie) : (b.shortest tie).digits % 10 ≠ 0 := by
  intro hzero
  obtain ⟨n, hn⟩ := Nat.dvd_of_mod_eq_zero hzero
  have hdigits : (b.shortest tie).digits = n * 10 ^ 1 := by omega
  have hcovers := (hb.shortest_covers tie).1
  rw [hdigits, natCast_mul_ten_pow] at hcovers
  exact absurd (hb.le_shortest_exponent tie hcovers) (by omega)

/-- A decimal of at most fifteen digits is the shortest one of the double that it reads as. -/
theorem Canonical.shortest_eq (tie : Tie) (hfull : 2 ^ 52 ≤ b.mantissa)
    (h : b.Covers (d * 10 ^ k)) (hd : d < 10 ^ 15) (hdigit : d % 10 ≠ 0) :
    b.shortest tie = ⟨d, k⟩ := by
  obtain ⟨hcovers, -⟩ := hb.shortest_covers tie
  have hle := hb.le_shortest_exponent tie h
  generalize b.shortest tie = s at hcovers hle
  obtain ⟨digits, exponent⟩ := s
  obtain ⟨j, rfl⟩ := Int.le.dest hle
  rw [← natCast_mul_ten_pow] at hcovers
  obtain rfl := h.eq_of_digits hfull hd hcovers
  cases j with
  | zero => simp
  | succ j =>
      rw [pow_succ, ← mul_assoc, Nat.mul_mod_left] at hdigit
      exact absurd rfl hdigit

end Shortest

end Binary

end Slipbox.Decimal
