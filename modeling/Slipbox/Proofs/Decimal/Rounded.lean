import Slipbox.Decimal.Layout
import Slipbox.Proofs.Decimal.Magnitude

/-! Doubles rounded to fifteen digits. The estimate of a double fixes the place of the fifteenth
digit, and the rounded decimal is the multiple of this place that is nearest to the double. A
decimal of at most fifteen digits that reads as the double is such a multiple, and no other one is
as near. -/

namespace Slipbox.Decimal

namespace Binary

variable {b : Binary} {s : Scaled}

/-- The double rounded to fifteen digits. -/
def rounded (b : Binary) : Scaled :=
  roundTo 15 b.interval.value b.interval.unit b.magnitude

/-- The decimal has fifteen digits and no other multiple of their last place is nearer. -/
structure RoundedTo (b : Binary) (s : Scaled) : Prop where
  low : 10 ^ 14 * 10 ^ s.exponent ≤ b.value
  high : b.value < 10 ^ 15 * 10 ^ s.exponent
  below : s.digits * 10 ^ s.exponent ≤ b.value + 10 ^ s.exponent / 2
  above : b.value < s.digits * 10 ^ s.exponent + 10 ^ s.exponent / 2

theorem rounded_eq (b : Binary) :
    let i (k : ℤ) := b.interval.rescale k
    let first := b.magnitude - 15
    let k := if 10 ^ 14 * (i first).unit ≤ (i first).value then first else first - 1
    b.rounded = ⟨(2 * (i k).value + (i k).unit) / (2 * (i k).unit), k⟩ := by
  simp only [rounded, roundTo, decide_eq_true_eq]
  rfl

/-- The last place is that of the fifteenth digit. -/
theorem Canonical.exists_place (hb : b.Canonical) :
    ∃ k, b.rounded = ⟨(2 * (b.interval.rescale k).value + (b.interval.rescale k).unit) /
        (2 * (b.interval.rescale k).unit), k⟩ ∧
      10 ^ 14 * 10 ^ k ≤ b.value ∧ b.value < 10 ^ 15 * 10 ^ k := by
  have hten (m : ℕ) {j k : ℤ} (h : j + m = k) : (10 : ℚ) ^ m * 10 ^ j = 10 ^ k := by
    rw [← h, zpow_add₀ (by norm_num), zpow_natCast, mul_comm]
  have hfills (k : ℤ) : 10 ^ 14 * (b.interval.rescale k).unit ≤ (b.interval.rescale k).value ↔
      10 ^ 14 * 10 ^ k ≤ b.value := by
    refine (scaled_iff (scale_pos b k) ?_ (rescale_value k)).1
    rw [Nat.cast_mul, rescale_unit, mul_assoc]
    norm_num
  have hrounded := b.rounded_eq
  dsimp only at hrounded
  simp only [hfills] at hrounded
  have hmost : (10 : ℚ) ^ 15 * 10 ^ (b.magnitude - 15) = 10 ^ b.magnitude :=
    hten 15 (by omega)
  split at hrounded
  · next hfull => exact ⟨_, hrounded, hfull, hmost ▸ hb.value_lt_ten⟩
  · next hfew =>
    have hleast : (10 : ℚ) ^ 14 * 10 ^ (b.magnitude - 15 - 1) = 10 ^ (b.magnitude - 2) :=
      hten 14 (by omega)
    have hfirst : (10 : ℚ) ^ 14 * 10 ^ (b.magnitude - 15) =
        10 ^ 15 * 10 ^ (b.magnitude - 15 - 1) :=
      (hten 14 (k := b.magnitude - 1) (by omega)).trans (hten 15 (by omega)).symm
    exact ⟨_, hrounded, hleast ▸ hb.ten_le_value, hfirst ▸ not_le.mp hfew⟩

theorem Canonical.roundedTo (hb : b.Canonical) : b.RoundedTo b.rounded := by
  obtain ⟨k, hrounded, hlow, hhigh⟩ := hb.exists_place
  rw [hrounded]
  have hscale := scale_pos b k
  have hvalue := rescale_value (b := b) k
  have hunit := rescale_unit (b := b) k
  generalize b.interval.rescale k = i at hvalue hunit
  have htwice : ((2 * i.value + i.unit : ℕ) : ℚ) = (2 * b.value + 10 ^ k) * scale b k := by
    push_cast
    rw [hvalue, hunit]
    ring
  have hpoint (n : ℕ) : ((2 * i.unit * n : ℕ) : ℚ) = 2 * (n * 10 ^ k) * scale b k := by
    push_cast
    rw [hunit]
    ring
  have hpos : 0 < 2 * i.unit := by
    have hpos : (0 : ℚ) < i.unit := hunit ▸ mul_pos (zpow_pos (by norm_num) k) hscale
    have : 0 < i.unit := by exact_mod_cast hpos
    omega
  have hbelow := (scaled_iff hscale (hpoint _) htwice).1.mp (Nat.mul_div_le _ (2 * i.unit))
  have habove := (scaled_iff hscale htwice (hpoint _)).2.mp (Nat.lt_mul_div_succ _ hpos)
  push_cast at habove
  exact ⟨hlow, hhigh, by simp only; linarith, by simp only; linarith⟩

theorem RoundedTo.digits_bounds (h : b.RoundedTo s) :
    10 ^ 14 ≤ s.digits ∧ s.digits ≤ 10 ^ 15 := by
  obtain ⟨hlow, hhigh, hbelow, habove⟩ := h
  have hten : (0 : ℚ) < 10 ^ s.exponent := zpow_pos (by norm_num) _
  have hleast : (10 ^ 14 : ℚ) * 10 ^ s.exponent < (s.digits + 1) * 10 ^ s.exponent := by linarith
  have hmost : (s.digits : ℚ) * 10 ^ s.exponent < (10 ^ 15 + 1) * 10 ^ s.exponent := by linarith
  exact ⟨Nat.lt_add_one_iff.mp (by exact_mod_cast lt_of_mul_lt_mul_right hleast hten.le),
    Nat.lt_add_one_iff.mp (by exact_mod_cast lt_of_mul_lt_mul_right hmost hten.le)⟩

/-- A decimal of at most fifteen digits is what the double that it reads as is rounded to. -/
theorem RoundedTo.eq_of_covers (h : b.RoundedTo s) (hfull : 2 ^ 52 ≤ b.mantissa) {d : ℕ} {k : ℤ}
    (hcovers : b.Covers (d * 10 ^ k)) (hd : d < 10 ^ 15) :
    ∃ j : ℕ, k = s.exponent + j ∧ s.digits = d * 10 ^ j := by
  obtain ⟨hlow, hhigh, hbelow, habove⟩ := h
  have hten : (0 : ℚ) < 10 ^ s.exponent := zpow_pos (by norm_num) _
  have hunit := two_zpow_pos b.exponent
  have hplace : s.exponent ≤ k := by
    by_contra hlower
    have hfine : (10 : ℚ) ^ k * 10 ≤ 10 ^ s.exponent := by
      rw [← zpow_add_one₀ (by norm_num)]
      exact zpow_le_zpow_right₀ (by norm_num) (by omega)
    have hd' : (d : ℚ) + 1 ≤ 10 ^ 15 := by exact_mod_cast hd
    have hmost : ((d : ℚ) + 1) * 10 ^ k ≤ 10 ^ 15 * 10 ^ k :=
      mul_le_mul_of_nonneg_right hd' (zpow_pos (by norm_num) k).le
    linarith [hcovers.near.1, hcovers.unit_lt hfull hd]
  obtain ⟨j, rfl⟩ := Int.le.dest hplace
  refine ⟨j, rfl, ?_⟩
  rw [← natCast_mul_ten_pow] at hcovers
  obtain ⟨hnear, hnear'⟩ := hcovers.near
  -- fifteen digits do not reach the last bits of the mantissa
  have hless : 4 * (2 : ℚ) ^ b.exponent < 10 ^ s.exponent := by
    linarith [unit_le_of_full hfull]
  have hle : (s.digits : ℚ) * 10 ^ s.exponent < ((d * 10 ^ j : ℕ) + 1) * 10 ^ s.exponent := by
    linarith
  have hge : ((d * 10 ^ j : ℕ) : ℚ) * 10 ^ s.exponent < (s.digits + 1) * 10 ^ s.exponent := by
    linarith
  exact le_antisymm
    (Nat.lt_add_one_iff.mp (by exact_mod_cast lt_of_mul_lt_mul_right hle hten.le))
    (Nat.lt_add_one_iff.mp (by exact_mod_cast lt_of_mul_lt_mul_right hge hten.le))

end Binary

end Slipbox.Decimal
