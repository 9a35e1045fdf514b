import Mathlib.Algebra.Order.Field.Power
import Mathlib.Algebra.Order.Field.Rat
import Mathlib.Tactic.FieldSimp
import Mathlib.Tactic.Linarith
import Mathlib.Tactic.NormNum
import Mathlib.Tactic.Positivity
import Mathlib.Tactic.Ring
import Slipbox.Decimal.Shortest

/-! The rationals that round to a double. They form an interval between the midpoints to its two
neighbours. In the units of the double its mantissa is the whole number nearest to them, except for
those below a power of two, which are rounded in half of these units. -/

namespace Slipbox.Decimal

theorem two_zpow_pos (e : ℤ) : (0 : ℚ) < 2 ^ e :=
  zpow_pos (by norm_num) e

theorem two_zpow_lt {a c : ℤ} (h : (2 : ℚ) ^ a < 2 ^ c) : a < c :=
  (zpow_lt_zpow_iff_right₀ (by norm_num)).mp h

/-- The whole number nearest to a rational, the even one of two. -/
structure Nearest (x : ℚ) (n : Nat) : Prop where
  low : n - 1 / 2 ≤ x
  high : x ≤ n + 1 / 2
  even : x = n - 1 / 2 ∨ x = n + 1 / 2 → n % 2 = 0

theorem Nearest.le {x : ℚ} {n n' : Nat} (h : Nearest x n) (h' : Nearest x n') : n' ≤ n := by
  by_contra hlt
  have hsucc : (n + 1 : ℚ) ≤ n' := by exact_mod_cast Nat.lt_of_not_le hlt
  have hhigh := h.high
  have hlow := h'.low
  have hx : x = n + 1 / 2 := by linarith
  have hx' : x = n' - 1 / 2 := by linarith
  have hnext : n' = n + 1 := by
    have : (n' : ℚ) = n + 1 := by linarith
    exact_mod_cast this
  -- of two consecutive numbers one is odd
  have heven := h.even (Or.inr hx)
  have heven' := h'.even (Or.inl hx')
  omega

theorem Nearest.unique {x : ℚ} {n n' : Nat} (h : Nearest x n) (h' : Nearest x n') : n = n' :=
  Nat.le_antisymm (h'.le h) (h.le h')

namespace Binary

/-- What a positive rational is rounded to: only the smallest exponent has mantissas of fewer than
fifty-three bits. -/
structure Normalized (b : Binary) : Prop where
  pos : 0 < b.mantissa
  mantissa_lt : b.mantissa < 2 ^ 53
  exponent_ge : -1074 ≤ b.exponent
  full : 2 ^ 52 ≤ b.mantissa ∨ b.exponent = -1074

/-- A positive double in the form that `classify` gives. -/
structure Canonical (b : Binary) : Prop extends Normalized b where
  exponent_le : b.exponent ≤ 971

/-- The distance to the lower midpoint in quarters of a unit. Just above a power of two the lower
neighbour is half as far. -/
def below (b : Binary) : Nat :=
  if b.mantissa = 2 ^ 52 ∧ -1074 < b.exponent then 1 else 2

def value (b : Binary) : ℚ :=
  b.mantissa * 2 ^ b.exponent

/-- A power of two as a double. -/
def power (k : ℤ) : Binary :=
  ⟨2 ^ 52, k - 52⟩

theorem power_value (k : ℤ) : (power k).value = 2 ^ k := by
  have hmantissa : ((2 ^ 52 : Nat) : ℚ) = 2 ^ (52 : ℤ) := by norm_num
  rw [power, value, hmantissa, ← zpow_add₀ (by norm_num), add_sub_cancel]

theorem power_canonical {k : ℤ} (hlow : -1022 ≤ k) (hhigh : k ≤ 1023) : (power k).Canonical :=
  ⟨⟨by norm_num [power], by norm_num [power], by simp only [power]; omega, .inl le_rfl⟩,
    by simp only [power]; omega⟩

/-- The midpoint to the lower neighbour. -/
def low (b : Binary) : ℚ :=
  (b.mantissa - b.below / 4) * 2 ^ b.exponent

/-- The midpoint to the upper neighbour. -/
def high (b : Binary) : ℚ :=
  (b.mantissa + 1 / 2) * 2 ^ b.exponent

theorem high_eq (b : Binary) : b.high = b.value + 2 ^ b.exponent / 2 := by
  rw [high, value]
  ring

/-- The rational lies in the interval of the double, the ends of which belong to an even
mantissa. -/
structure Covers (b : Binary) (v : ℚ) : Prop where
  low : b.low ≤ v
  high : v ≤ b.high
  even : v = b.low ∨ v = b.high → b.mantissa % 2 = 0

theorem below_bounds (b : Binary) : (1 : ℚ) ≤ b.below ∧ (b.below : ℚ) ≤ 2 := by
  unfold below
  split <;> norm_num

theorem low_lt_value (b : Binary) : b.low < b.value :=
  mul_lt_mul_of_pos_right (by linarith [b.below_bounds.1]) (two_zpow_pos _)

theorem value_lt_high (b : Binary) : b.value < b.high :=
  mul_lt_mul_of_pos_right (by linarith) (two_zpow_pos _)

theorem covers_value (b : Binary) : b.Covers b.value :=
  ⟨b.low_lt_value.le, b.value_lt_high.le,
    fun h => (h.elim b.low_lt_value.ne' b.value_lt_high.ne).elim⟩

variable {b : Binary} {v : ℚ}

theorem Covers.pos (hpos : 0 < b.mantissa) (h : b.Covers v) : 0 < v := by
  have hone : (1 : ℚ) ≤ b.mantissa := by exact_mod_cast hpos
  have hlow : 0 < b.low := mul_pos (by linarith [b.below_bounds.2]) (two_zpow_pos _)
  exact hlow.trans_le h.low

/-- In the units of the double the rational is rounded to the mantissa. -/
structure RoundsTo (b : Binary) (v : ℚ) : Prop where
  nearest : Nearest (v / 2 ^ b.exponent) b.mantissa
  full : 2 ^ 52 ≤ v / 2 ^ b.exponent ∨ b.exponent = -1074

/-- The double is a power of two and the rational less than it: in half of the double's units it has
as many bits as a mantissa, and is rounded up to one bit more. -/
structure RoundsUp (b : Binary) (v : ℚ) : Prop where
  mantissa_eq : b.mantissa = 2 ^ 52
  exponent_gt : -1074 < b.exponent
  less : v / 2 ^ b.exponent < 2 ^ 52
  nearest : Nearest (v / 2 ^ (b.exponent - 1)) (2 ^ 53)

/-- The interval in the units of the double. -/
theorem Covers.in_units (h : b.Covers v) :
    (b.mantissa - b.below / 4 ≤ v / 2 ^ b.exponent ∧ v / 2 ^ b.exponent ≤ b.mantissa + 1 / 2) ∧
      (v / 2 ^ b.exponent = b.mantissa - b.below / 4 ∨
        v / 2 ^ b.exponent = b.mantissa + 1 / 2 → b.mantissa % 2 = 0) := by
  have hunit := two_zpow_pos b.exponent
  refine ⟨⟨(le_div_iff₀ hunit).mpr h.low, (div_le_iff₀ hunit).mpr h.high⟩, fun hends => h.even ?_⟩
  exact hends.imp (div_eq_iff hunit.ne').mp (div_eq_iff hunit.ne').mp

theorem Covers.roundsTo_of_below (hb : b.Normalized) (h : b.Covers v) (hbelow : b.below = 2) :
    b.RoundsTo v := by
  obtain ⟨⟨hlow, hhigh⟩, heven⟩ := h.in_units
  have hhalf : ((b.below : Nat) : ℚ) / 4 = 1 / 2 := by
    rw [hbelow]
    norm_num
  rw [hhalf] at hlow heven
  refine ⟨⟨hlow, hhigh, heven⟩, ?_⟩
  rcases hb.full with hfull | hmin
  · rcases hb.exponent_ge.lt_or_eq with hgt | heq
    · have hne : b.mantissa ≠ 2 ^ 52 := by
        intro hmantissa
        rw [below, if_pos ⟨hmantissa, hgt⟩] at hbelow
        cases hbelow
      have hmore : (2 ^ 52 + 1 : ℚ) ≤ b.mantissa := by
        exact_mod_cast Nat.lt_of_le_of_ne hfull hne.symm
      exact Or.inl (by linarith)
    · exact Or.inr heq.symm
  · exact Or.inr hmin

theorem Covers.rounds_of_power (h : b.Covers v) (hmantissa : b.mantissa = 2 ^ 52)
    (hexponent : -1074 < b.exponent) : b.RoundsTo v ∨ b.RoundsUp v := by
  obtain ⟨⟨hlow, hhigh⟩, -⟩ := h.in_units
  rw [below, if_pos ⟨hmantissa, hexponent⟩, hmantissa] at hlow
  rw [hmantissa] at hhigh
  push_cast at hlow hhigh
  by_cases hless : v / 2 ^ b.exponent < 2 ^ 52
  · have hhalf : v / 2 ^ (b.exponent - 1) = 2 * (v / 2 ^ b.exponent) := by
      rw [zpow_sub_one₀ (by norm_num)]
      field_simp
    refine Or.inr ⟨hmantissa, hexponent, hless, ?_⟩
    rw [hhalf]
    exact ⟨by push_cast; linarith, by push_cast; linarith, fun _ => by norm_num⟩
  · rw [not_lt] at hless
    refine Or.inl ⟨?_, Or.inl hless⟩
    rw [hmantissa]
    exact ⟨by push_cast; linarith, by push_cast; linarith, fun _ => by norm_num⟩

theorem Covers.rounds (hb : b.Normalized) (h : b.Covers v) : b.RoundsTo v ∨ b.RoundsUp v := by
  by_cases hpower : b.mantissa = 2 ^ 52 ∧ -1074 < b.exponent
  · exact h.rounds_of_power hpower.1 hpower.2
  · exact Or.inl (h.roundsTo_of_below hb (if_neg hpower))

section Order

/-! The intervals of two doubles do not overlap, so rounding keeps the order. -/

variable {a c : Binary} {w : ℚ}

theorem high_le_low_of_exponent (ha : a.Normalized) (hb : b.Normalized)
    (h : a.exponent < b.exponent) : a.high ≤ b.low := by
  have hge := ha.exponent_ge
  have hmore : (a.mantissa + 1 : ℚ) ≤ 2 ^ 53 := by exact_mod_cast ha.mantissa_lt
  have hfull : 2 ^ 52 ≤ b.mantissa := hb.full.resolve_right (by omega)
  obtain ⟨n, hn⟩ := Int.eq_ofNat_of_zero_le (show 0 ≤ b.exponent - a.exponent - 1 by omega)
  have hexponent : b.exponent = a.exponent + 1 + n := by omega
  have hbelow : (2 ^ 52 - 1 / 4 : ℚ) ≤ b.mantissa - b.below / 4 := by
    rcases hfull.eq_or_lt with hpower | hnext
    · rw [below, if_pos ⟨hpower.symm, by omega⟩, ← hpower]
      norm_num
    · have hnext' : (2 ^ 52 + 1 : ℚ) ≤ b.mantissa := by exact_mod_cast hnext
      linarith [b.below_bounds.2]
  have hpow : (1 : ℚ) ≤ 2 ^ n := one_le_pow₀ (by norm_num)
  calc a.high ≤ (2 ^ 53 - 1 / 2) * 2 ^ a.exponent :=
        mul_le_mul_of_nonneg_right (by linarith) (two_zpow_pos _).le
    _ = (2 ^ 52 - 1 / 4) * (2 ^ (a.exponent + 1) * 1) := by
      rw [zpow_add_one₀ (by norm_num)]
      ring
    _ ≤ (2 ^ 52 - 1 / 4) * (2 ^ (a.exponent + 1) * 2 ^ n) := by gcongr
    _ = (2 ^ 52 - 1 / 4) * 2 ^ b.exponent := by
      rw [hexponent, zpow_add₀ (by norm_num) (a.exponent + 1), zpow_natCast]
    _ ≤ b.low := mul_le_mul_of_nonneg_right hbelow (two_zpow_pos _).le

/-- The midpoints to the neighbours keep the order of the doubles. -/
theorem high_le_low (ha : a.Normalized) (hb : b.Normalized) (h : a.value < b.value) :
    a.high ≤ b.low := by
  rcases lt_trichotomy a.exponent b.exponent with hlt | heq | hgt
  · exact high_le_low_of_exponent ha hb hlt
  · rw [value, value, heq] at h
    have hless : (a.mantissa + 1 : ℚ) ≤ b.mantissa := by
      exact_mod_cast lt_of_mul_lt_mul_right h (two_zpow_pos _).le
    rw [high, low, heq]
    exact mul_le_mul_of_nonneg_right (by linarith [b.below_bounds.2]) (two_zpow_pos _).le
  · have hmid := high_le_low_of_exponent hb ha hgt
    linarith [b.value_lt_high, a.low_lt_value]

theorem value_le_of_covers (ha : a.Normalized) (hb : b.Normalized) (hv : a.Covers v)
    (hw : b.Covers w) (hlt : v < w) : a.value ≤ b.value := by
  by_contra hless
  have hmid := high_le_low hb ha (not_le.mp hless)
  linarith [hv.low, hw.high]

theorem value_pos (hpos : 0 < b.mantissa) : 0 < b.value :=
  mul_pos (by exact_mod_cast hpos) (two_zpow_pos _)

theorem unit_le_value (hpos : 0 < b.mantissa) : 2 ^ b.exponent ≤ b.value :=
  le_mul_of_one_le_left (two_zpow_pos _).le (by exact_mod_cast hpos)

/-- The smallest double. -/
theorem Normalized.smallest_le (hb : b.Normalized) : 2 ^ (-1074 : ℤ) ≤ b.value :=
  (zpow_le_zpow_right₀ (by norm_num) hb.exponent_ge).trans (unit_le_value hb.pos)

/-- Of two doubles the one with the larger exponent is the larger one. -/
theorem value_lt_of_exponent (ha : a.Normalized) (hb : b.Normalized)
    (h : a.exponent < b.exponent) : a.value < b.value := by
  have hmid := high_le_low_of_exponent ha hb h
  linarith [a.value_lt_high, b.low_lt_value]

/-- What is at most a double is rounded to no more than it. -/
theorem Covers.value_le (h : b.Covers v) (hb : b.Normalized) (hc : c.Normalized)
    (hle : v ≤ c.value) : b.value ≤ c.value := by
  by_contra hgt
  have hmid := high_le_low hc hb (not_le.mp hgt)
  linarith [h.low, c.value_lt_high]

theorem Canonical.of_value_le (hc : c.Canonical) (hb : b.Normalized) (h : b.value ≤ c.value) :
    b.Canonical := by
  refine ⟨hb, not_lt.mp fun hlarge => ?_⟩
  have hless := value_lt_of_exponent hc.toNormalized hb (hc.exponent_le.trans_lt hlarge)
  linarith

/-- What is at least a double is rounded to no less than it. -/
theorem Covers.le_value (h : b.Covers v) (hb : b.Normalized) (hc : c.Normalized)
    (hle : c.value ≤ v) : c.value ≤ b.value := by
  by_contra hlt
  have hmid := high_le_low hb hc (not_le.mp hlt)
  linarith [h.high, c.low_lt_value]

end Order

end Binary

end Slipbox.Decimal
