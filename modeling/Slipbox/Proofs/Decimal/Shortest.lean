import Slipbox.Proofs.Decimal.Reading

/-! The shortest decimal of a double reads back as that double: the search stays in the double's
interval, and it ends, since the last of its grids is finer than half a unit of the mantissa. -/

namespace Slipbox.Decimal

theorem natCast_pow_toNat {a : ℚ} (ha : a ≠ 0) (k : ℤ) :
    a ^ k.toNat = a ^ k * a ^ (-k).toNat := by
  rw [← zpow_natCast, ← zpow_natCast, ← zpow_add₀ ha]
  congr 1
  omega

/-- The factor between the rationals and the whole numbers that stand for them in a rescaled
interval. -/
def scale (b : Binary) (k : ℤ) : ℚ :=
  2 ^ (2 - b.exponent).toNat * 10 ^ (-k).toNat

theorem scale_pos (b : Binary) (k : ℤ) : 0 < scale b k :=
  mul_pos (by positivity) (by positivity)

/-- Whole numbers compare like the rationals that they stand for. -/
theorem scaled_iff {x y scale : ℚ} {m n : Nat} (hscale : 0 < scale) (hm : (m : ℚ) = x * scale)
    (hn : (n : ℚ) = y * scale) : (m ≤ n ↔ x ≤ y) ∧ (m < n ↔ x < y) := by
  rw [← Nat.cast_le (α := ℚ), ← Nat.cast_lt (α := ℚ), hm, hn]
  exact ⟨mul_le_mul_iff_left₀ hscale, mul_lt_mul_iff_left₀ hscale⟩

section

variable {b : Binary} (hpos : 0 < b.mantissa) (k : ℤ)

theorem rescale_unit : ((b.interval.rescale k).unit : ℚ) = 10 ^ k * scale b k := by
  show ((2 ^ (2 - b.exponent).toNat * 10 ^ k.toNat : Nat) : ℚ) = _
  push_cast
  rw [natCast_pow_toNat (by norm_num : (10 : ℚ) ≠ 0) k, scale]
  ring

theorem quarter_scale (b : Binary) (k : ℤ) :
    ((2 ^ (b.exponent - 2).toNat * 10 ^ (-k).toNat : Nat) : ℚ) =
      2 ^ b.exponent / 4 * scale b k := by
  push_cast
  rw [natCast_pow_toNat (by norm_num : (2 : ℚ) ≠ 0) (b.exponent - 2), neg_sub,
    zpow_sub₀ (by norm_num), scale]
  ring

theorem rescale_value : ((b.interval.rescale k).value : ℚ) = b.value * scale b k := by
  show ((4 * b.mantissa * 2 ^ (b.exponent - 2).toNat * 10 ^ (-k).toNat : Nat) : ℚ) = _
  rw [mul_assoc, Nat.cast_mul, quarter_scale, Binary.value]
  push_cast
  ring

theorem rescale_high : ((b.interval.rescale k).high : ℚ) = b.high * scale b k := by
  show (((4 * b.mantissa + 2) * 2 ^ (b.exponent - 2).toNat * 10 ^ (-k).toNat : Nat) : ℚ) = _
  rw [mul_assoc, Nat.cast_mul, quarter_scale, Binary.high]
  push_cast
  ring

include hpos in
theorem rescale_low : ((b.interval.rescale k).low : ℚ) = b.low * scale b k := by
  have hbelow : b.below ≤ 4 * b.mantissa := by
    unfold Binary.below
    split <;> omega
  show (((4 * b.mantissa - b.below) * 2 ^ (b.exponent - 2).toNat * 10 ^ (-k).toNat : Nat) : ℚ) = _
  rw [mul_assoc, Nat.cast_mul, quarter_scale, Nat.cast_sub hbelow, Binary.low]
  push_cast
  ring

include hpos in
/-- The points of a grid that lie in the interval are those that the double covers. -/
theorem contains_iff (n : Nat) :
    (b.interval.rescale k).contains n = true ↔ b.Covers (n * 10 ^ k) := by
  have hpoint : ((n * (b.interval.rescale k).unit : Nat) : ℚ) = n * 10 ^ k * scale b k := by
    rw [Nat.cast_mul, rescale_unit, mul_assoc]
  obtain ⟨hlow_le, hlow_lt⟩ := scaled_iff (scale_pos b k) (rescale_low hpos k) hpoint
  obtain ⟨hhigh_ge, hhigh_gt⟩ := scaled_iff (scale_pos b k) hpoint (rescale_high k)
  have hclosed : (b.interval.rescale k).closed = true ↔ b.mantissa % 2 = 0 := beq_iff_eq
  unfold Interval.contains
  split
  · next heven =>
    rw [Bool.and_eq_true, decide_eq_true_eq, decide_eq_true_eq, hlow_le, hhigh_ge]
    exact ⟨fun h => ⟨h.1, h.2, fun _ => hclosed.mp heven⟩, fun h => ⟨h.low, h.high⟩⟩
  · next hodd =>
    rw [Bool.and_eq_true, decide_eq_true_eq, decide_eq_true_eq, hlow_lt, hhigh_gt]
    constructor
    · rintro ⟨hlow, hhigh⟩
      exact ⟨hlow.le, hhigh.le, fun h => (h.elim hlow.ne' hhigh.ne).elim⟩
    · intro h
      have hends : ¬ (n * 10 ^ k = b.low ∨ n * 10 ^ k = b.high) :=
        fun hend => hodd (hclosed.mpr (h.even hend))
      rw [not_or] at hends
      exact ⟨lt_of_le_of_ne h.low (Ne.symm hends.1), lt_of_le_of_ne h.high hends.2⟩

end

theorem Interval.contains_of_nearest? {i : Interval} {tie : Tie} {d : Nat}
    (h : i.nearest? tie = some d) : i.contains d = true := by
  unfold nearest? at h
  dsimp only at h
  split at h
  · next hdown hup =>
    rw [Option.some.injEq] at h
    split at h <;> (subst h; assumption)
  · next hdown hup =>
    cases h
    exact hdown
  · next hdown hup =>
    cases h
    exact hup
  · cases h

theorem Interval.nearest?_isSome {i : Interval} (tie : Tie)
    (h : i.contains (i.value / i.unit + 1) = true) : (i.nearest? tie).isSome = true := by
  unfold nearest?
  dsimp only
  rw [h]
  cases i.contains (i.value / i.unit) <;> rfl

/-- What a search returns is the nearest point of one of its grids. -/
theorem Interval.nearest?_of_search {i : Interval} {tie : Tie} {grids : Nat} {k : ℤ} {s : Scaled}
    (h : i.search tie grids k = some s) :
    (i.rescale s.exponent).nearest? tie = some s.digits ∧ k - grids < s.exponent := by
  induction grids generalizing k with
  | zero => cases h
  | succ n ih =>
      unfold search at h
      split at h
      · next d hd =>
        cases h
        exact ⟨hd, by simp only; omega⟩
      · obtain ⟨hnearest, hlt⟩ := ih h
        exact ⟨hnearest, by omega⟩

/-- The grids before the one that it is found on have no point in the interval. -/
theorem Interval.nearest?_eq_none_of_search {i : Interval} {tie : Tie} {grids : Nat} {k k' : ℤ}
    {s : Scaled} (h : i.search tie grids k = some s) (hafter : s.exponent < k') (hfrom : k' ≤ k) :
    (i.rescale k').nearest? tie = none := by
  induction grids generalizing k with
  | zero => cases h
  | succ n ih =>
      unfold search at h
      split at h
      · cases h
        exact absurd hafter hfrom.not_gt
      · next hnone =>
        rcases hfrom.eq_or_lt with rfl | hless
        · exact hnone
        · exact ih h (Int.le_sub_one_of_lt hless)

/-- A search with a point on its last grid ends. -/
theorem Interval.search_isSome {i : Interval} {tie : Tie} {n : Nat} {k : ℤ}
    (h : ((i.rescale (k - n)).nearest? tie).isSome = true) :
    (i.search tie (n + 1) k).isSome = true := by
  induction n generalizing k with
  | zero =>
      obtain ⟨d, hd⟩ := Option.isSome_iff_exists.mp h
      rw [Nat.cast_zero, Int.sub_zero] at hd
      rw [search, hd]
      rfl
  | succ n ih =>
      unfold search
      split
      · rfl
      · refine ih ?_
        have hlast : k - 1 - n = k - (n + 1 : Nat) := by omega
        rw [hlast]
        exact h

/-- The points of a grid next to the double. -/
theorem grid_neighbours (b : Binary) (k : ℤ) :
    let i := b.interval.rescale k
    (i.value / i.unit : Nat) * 10 ^ k ≤ b.value ∧
      b.value < (i.value / i.unit + 1 : Nat) * 10 ^ k := by
  intro i
  have hscale := scale_pos b k
  have hvalue : (i.value : ℚ) = b.value * scale b k := rescale_value k
  have hpoint (n : Nat) : ((n * i.unit : Nat) : ℚ) = n * 10 ^ k * scale b k := by
    rw [Nat.cast_mul, rescale_unit, mul_assoc]
  have hunit_pos : 0 < i.unit := by
    have hunit : (0 : ℚ) < i.unit := by
      rw [rescale_unit]
      exact mul_pos (zpow_pos (by norm_num) k) hscale
    exact_mod_cast hunit
  exact ⟨(scaled_iff hscale (hpoint _) hvalue).1.mp (Nat.div_mul_le_self _ _),
    (scaled_iff hscale hvalue (hpoint _)).2.mp
      (Nat.lt_mul_of_div_lt (Nat.lt_succ_self _) hunit_pos)⟩

/-- A grid finer than half a unit of the mantissa has a point in the interval: the first one above
the double. -/
theorem nearest?_isSome_of_fine {b : Binary} (hpos : 0 < b.mantissa) (tie : Tie) {k : ℤ}
    (hfine : (10 : ℚ) ^ k < 2 ^ b.exponent / 2) :
    ((b.interval.rescale k).nearest? tie).isSome = true := by
  obtain ⟨hbelow, habove⟩ := grid_neighbours b k
  let i := b.interval.rescale k
  have hwithin : (i.value / i.unit + 1 : Nat) * 10 ^ k < b.high := by
    calc ((i.value / i.unit + 1 : Nat) * 10 ^ k : ℚ)
        = (i.value / i.unit : Nat) * 10 ^ k + 10 ^ k := by
          push_cast
          ring
      _ ≤ b.value + 10 ^ k := by linarith
      _ < b.value + 2 ^ b.exponent / 2 := by linarith
      _ = b.high := b.high_eq.symm
  have hlow := b.low_lt_value.trans habove
  exact Interval.nearest?_isSome tie ((contains_iff hpos k _).mpr
    ⟨hlow.le, hwithin.le, fun h => (h.elim hlow.ne' hwithin.ne).elim⟩)

/-- Powers of ten against powers of two: `10^3 < 2^10` and `2^43 < 10^13` are close enough for all
exponents of a double. -/
theorem ten_zpow_lt {k q : ℤ} (hq : -1074 ≤ q) (hq' : q ≤ 971)
    (h : 100000 * k ≤ 30103 * q - 204541) : (10 : ℚ) ^ k < 2 ^ q / 2 := by
  have htwo : (2 : ℚ) ^ q / 2 = 2 ^ (q - 1) := by
    rw [zpow_sub_one₀ (by norm_num)]
    rfl
  rw [htwo]
  rcases Int.le_total 0 k with hk | hk
  · obtain ⟨n, rfl⟩ := Int.eq_ofNat_of_zero_le hk
    have hpow : ((10 : ℚ) ^ (n : ℤ)) ^ 3 < (2 ^ (q - 1)) ^ 3 := by
      calc ((10 : ℚ) ^ (n : ℤ)) ^ 3 = (10 ^ 3) ^ n := by rw [zpow_natCast, pow_right_comm]
        _ ≤ (2 ^ 10) ^ n := pow_le_pow_left₀ (by norm_num) (by norm_num) n
        _ = 2 ^ (10 * n : ℤ) := by rw [← pow_mul, ← zpow_natCast]; norm_cast
        _ < 2 ^ ((q - 1) * 3) := zpow_lt_zpow_right₀ (by norm_num) (by omega)
        _ = (2 ^ (q - 1)) ^ 3 := by rw [zpow_mul]; rfl
    exact lt_of_pow_lt_pow_left₀ 3 (two_zpow_pos _).le hpow
  · obtain ⟨n, hn⟩ := Int.eq_ofNat_of_zero_le (Int.neg_nonneg_of_nonpos hk)
    obtain rfl : k = -n := by omega
    have hpow : ((10 : ℚ) ^ (-n : ℤ)) ^ 13 < (2 ^ (q - 1)) ^ 13 := by
      calc ((10 : ℚ) ^ (-n : ℤ)) ^ 13 = ((10 ^ 13) ^ n)⁻¹ := by
            rw [zpow_neg, zpow_natCast, inv_pow, pow_right_comm]
        _ ≤ ((2 ^ 43) ^ n)⁻¹ :=
            inv_anti₀ (by positivity) (pow_le_pow_left₀ (by norm_num) (by norm_num) n)
        _ = 2 ^ (-(43 * n) : ℤ) := by rw [zpow_neg, ← pow_mul, ← zpow_natCast]; norm_cast
        _ < 2 ^ ((q - 1) * 13) := zpow_lt_zpow_right₀ (by norm_num) (by omega)
        _ = (2 ^ (q - 1)) ^ 13 := by rw [zpow_mul]; rfl
    exact lt_of_pow_lt_pow_left₀ 13 (two_zpow_pos _).le hpow

theorem Binary.Canonical.magnitude_bounds {b : Binary} (hb : b.Canonical) :
    -323 ≤ b.magnitude ∧ 100000 * (b.magnitude - 19) ≤ 30103 * b.exponent - 204541 := by
  have hge := hb.exponent_ge
  have hlog : b.mantissa.log2 < 53 := (Nat.log2_lt hb.pos.ne').mpr hb.mantissa_lt
  unfold magnitude
  rw [Int.fdiv_eq_ediv_of_nonneg _ (by norm_num)]
  omega

/-- Within twenty grids the search ends. -/
theorem Binary.Canonical.search_eq_shortest {b : Binary} (hb : b.Canonical) (tie : Tie) :
    b.interval.search tie 20 b.magnitude = some (b.shortest tie) := by
  have hlast := nearest?_isSome_of_fine hb.pos tie
    (ten_zpow_lt hb.exponent_ge hb.exponent_le hb.magnitude_bounds.2)
  obtain ⟨s, hs⟩ := Option.isSome_iff_exists.mp (Interval.search_isSome (n := 19) hlast)
  rw [shortest, if_neg hb.pos.ne', hs]
  rfl

/-- The shortest decimal of a double is positive and reads as the double. -/
theorem Binary.Canonical.shortest_covers {b : Binary} (hb : b.Canonical) (tie : Tie) :
    b.Covers ((b.shortest tie).digits * 10 ^ (b.shortest tie).exponent) ∧
      0 < (b.shortest tie).digits ∧ -343 < (b.shortest tie).exponent := by
  obtain ⟨hmagnitude, -⟩ := hb.magnitude_bounds
  obtain ⟨hnearest, hexponent⟩ := Interval.nearest?_of_search (hb.search_eq_shortest tie)
  have hcovers := (contains_iff hb.pos _ _).mp (Interval.contains_of_nearest? hnearest)
  refine ⟨hcovers, Nat.pos_of_ne_zero fun hzero => ?_, by omega⟩
  have hcovers_pos := hcovers.pos hb.pos
  rw [hzero, Nat.cast_zero, zero_mul] at hcovers_pos
  exact hcovers_pos.false

end Slipbox.Decimal
