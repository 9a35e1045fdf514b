import Slipbox.Proofs.Decimal.Whole

/-! Whole numbers of any size, read as doubles and cut off to sixty-four bits, keep their order.
Each is covered by a number of fifty-three bits, and what two of these cover does not overlap; where
they are too large for a double, the reading is infinite and cut off like all large ones. -/

namespace Slipbox.Decimal

open Float.Model Float.Model.UnpackedFloat

namespace Binary

variable {a b : Binary} {v w : ℚ}

theorem RoundsTo.covers (h : b.RoundsTo v) : b.Covers v := by
  have hunit := two_zpow_pos b.exponent
  obtain ⟨hlow, hhigh, heven⟩ := h.nearest
  have hhalf : b.mantissa = 2 ^ 52 ∧ 2 ^ 52 ≤ v / 2 ^ b.exponent ∨ b.below = 2 := by
    unfold below
    split
    · next hpower => exact .inl ⟨hpower.1, h.full.resolve_right (by omega)⟩
    · exact .inr rfl
  have hbelow : (b.mantissa - b.below / 4 : ℚ) ≤ v / 2 ^ b.exponent := by
    rcases hhalf with ⟨hpower, hfull⟩ | htwo
    · have hpower' : (b.mantissa : ℚ) = 2 ^ 52 := by exact_mod_cast hpower
      rw [hpower']
      linarith [b.below_bounds.1]
    · rw [htwo]
      push_cast
      linarith
  refine ⟨(le_div_iff₀ hunit).mp hbelow, (div_le_iff₀ hunit).mp hhigh, ?_⟩
  rintro (hends | hends)
  · rcases hhalf with ⟨hpower, -⟩ | htwo
    · rw [hpower]
      norm_num
    · refine heven (.inl ?_)
      rw [div_eq_iff hunit.ne', hends, low, htwo]
      norm_num
  · exact heven (.inr ((div_eq_iff hunit.ne').mpr hends))

theorem RoundsUp.covers (h : b.RoundsUp v) : b.Covers v := by
  have hunit := two_zpow_pos b.exponent
  have hhalf : v / 2 ^ (b.exponent - 1) = 2 * (v / 2 ^ b.exponent) := by
    rw [zpow_sub_one₀ (by norm_num)]
    field_simp
  have hnear := h.nearest.low
  rw [hhalf] at hnear
  push_cast at hnear
  have hbelow : b.below = 1 := if_pos ⟨h.mantissa_eq, h.exponent_gt⟩
  have hmantissa : (b.mantissa : ℚ) = 2 ^ 52 := by exact_mod_cast h.mantissa_eq
  refine ⟨(le_div_iff₀ hunit).mp ?_, (div_le_iff₀ hunit).mp ?_, fun _ => ?_⟩
  · rw [hbelow, hmantissa]
    push_cast
    linarith
  · rw [hmantissa]
    linarith [h.less]
  · rw [h.mantissa_eq]
    norm_num

theorem exists_nearest {x : ℚ} (hx : 0 ≤ x) : ∃ m, Nearest x m := by
  have hplaced := (placed_div x.num.toNat x.den x.den_pos).nearest
  have hnum : (x.num.toNat : ℚ) = x.num := by
    exact_mod_cast Int.toNat_of_nonneg (Rat.num_nonneg.mpr hx)
  rw [hnum, Rat.num_div_den] at hplaced
  exact ⟨_, hplaced⟩

/-- In some unit a rational has the bits of a mantissa, or else the unit is the smallest one. -/
theorem exists_unit (hpos : 0 < v) :
    ∃ k : ℤ, -1074 ≤ k ∧ (2 ^ 52 ≤ v / 2 ^ k ∨ k = -1074) ∧ v / 2 ^ k < 2 ^ 53 := by
  have hlow : (2 : ℚ) ^ Int.log 2 v ≤ v := by
    exact_mod_cast Int.zpow_log_le_self (b := 2) (by norm_num) hpos
  have hhigh : v < 2 ^ (Int.log 2 v + 1) := by
    exact_mod_cast Int.lt_zpow_succ_log_self (b := 2) (by norm_num) v
  refine ⟨max (Int.log 2 v - 52) (-1074), le_max_right _ _, ?_, ?_⟩
  · rcases le_total (Int.log 2 v - 52) (-1074) with hsmall | hlarge
    · exact .inr (max_eq_right hsmall)
    · rw [max_eq_left hlarge]
      refine .inl ((le_div_iff₀ (two_zpow_pos _)).mpr ?_)
      rw [← zpow_natCast, ← zpow_add₀ (by norm_num)]
      exact (zpow_le_zpow_right₀ (by norm_num) (by omega)).trans hlow
  · rw [div_lt_iff₀ (two_zpow_pos _), ← zpow_natCast, ← zpow_add₀ (by norm_num)]
    exact hhigh.trans_le (zpow_le_zpow_right₀ (by norm_num) (by omega))

/-- A rational that is not less than the smallest double is rounded to something. -/
theorem exists_covers (h : 2 ^ (-1074 : ℤ) ≤ v) : ∃ b : Binary, b.Normalized ∧ b.Covers v := by
  obtain ⟨k, hk, hfull, hless⟩ := exists_unit ((two_zpow_pos _).trans_le h)
  have hone : 1 ≤ v / 2 ^ k := by
    rcases hfull with hfull | rfl
    · linarith
    · rwa [le_div_iff₀ (two_zpow_pos _), one_mul]
  obtain ⟨m, hnearest⟩ := exists_nearest (zero_le_one.trans hone)
  have hpos : 0 < m := by
    have : (0 : ℚ) < m := by linarith [hnearest.high]
    exact_mod_cast this
  have hupper : m ≤ 2 ^ 53 := by
    have : (m : ℚ) < 2 ^ 53 + 1 := by linarith [hnearest.low]
    exact Nat.lt_succ_iff.mp (by exact_mod_cast this)
  rcases hupper.lt_or_eq with hlt | rfl
  · have hrounds : RoundsTo ⟨m, k⟩ v := ⟨hnearest, hfull⟩
    refine ⟨_, ⟨hpos, hlt, hk, hfull.imp_left fun hfull => ?_⟩, hrounds.covers⟩
    have : (2 ^ 52 : ℚ) < m + 1 := by linarith [hnearest.high]
    exact Nat.lt_succ_iff.mp (by exact_mod_cast this)
  · have hrounds : RoundsUp ⟨2 ^ 52, k + 1⟩ v := by
      refine ⟨rfl, by simp only; omega, ?_, by rwa [Int.add_sub_cancel]⟩
      rw [zpow_add_one₀ (by norm_num), ← div_div]
      linarith
    exact ⟨_, ⟨by norm_num, by norm_num, by simp only; omega, .inl le_rfl⟩, hrounds.covers⟩

end Binary

/-- A positive whole number is read as a double that covers it. -/
theorem exists_ofScientific {n : Nat} (hn : 0 < n) :
    ∃ (b : Binary) (hb : b.Normalized),
      b.Covers n ∧ Float.ofScientific n false 0 = b.toFloat hb.pos := by
  have hone : (1 : ℚ) ≤ n := by exact_mod_cast hn
  have hsmall : (2 : ℚ) ^ (-1074 : ℤ) ≤ 1 := zpow_le_one_of_nonpos₀ (by norm_num) (by norm_num)
  obtain ⟨b, hb, hcovers⟩ := Binary.exists_covers (hsmall.trans hone)
  exact ⟨b, hb, hcovers, ofScientific_product hb hn (by norm_num) (by simpa using hcovers)⟩

end Slipbox.Decimal
