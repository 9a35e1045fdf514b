import Slipbox.Proofs.Decimal.ColumnText

/-! How much text the plain digits of a double are. The exponents of doubles are small, so a few
hundred digits and zeros are enough for each of them. -/

namespace Slipbox.Decimal

theorem Scaled.length_plainChars_le (s : Scaled) :
    s.plainChars.length ≤ (digitChars s.digits).length + s.exponent.natAbs + 2 := by
  unfold plainChars zeros
  dsimp only
  split
  · split
    · simp
    · rw [List.length_append, List.length_replicate]
      omega
  · split
    · rw [List.length_append, List.length_take, List.length_cons, List.length_drop]
      omega
    · rw [List.length_append, List.length_cons, List.length_cons, List.length_replicate]
      omega

/-- A double has few digits in front of its point. -/
theorem Binary.Canonical.high_lt {b : Binary} (hb : b.Canonical) : b.high < 10 ^ (310 : ℤ) := by
  have hmagnitude : b.magnitude ≤ 309 := by
    obtain ⟨-, hbits, hestimate, -⟩ := hb.bits_bounds
    omega
  have hone : (1 : ℚ) ≤ b.mantissa := by exact_mod_cast hb.pos
  have hunit : (2 : ℚ) ^ b.exponent ≤ b.value := le_mul_of_one_le_left (two_zpow_pos _).le hone
  calc b.high = b.value + 2 ^ b.exponent / 2 := b.high_eq
    _ ≤ 10 * b.value := by linarith [two_zpow_pos b.exponent]
    _ < 10 * 10 ^ b.magnitude := by linarith [hb.value_lt_ten]
    _ ≤ 10 * 10 ^ (309 : ℤ) := by
        have hten := zpow_le_zpow_right₀ (a := (10 : ℚ)) (by norm_num) hmagnitude
        linarith
    _ = 10 ^ (310 : ℤ) := (zpow_one_add₀ (by norm_num) _).symm

theorem Binary.Canonical.length_shortest_lt {b : Binary} (hb : b.Canonical) (tie : Tie) :
    (digitChars (b.shortest tie).digits).length + (b.shortest tie).exponent < 311 := by
  obtain ⟨hcovers, hpos, -⟩ := hb.shortest_covers tie
  generalize b.shortest tie = s at hcovers hpos
  have hdigits : (10 : ℚ) ^ (digitChars s.digits).length ≤ 10 * s.digits := by
    exact_mod_cast pow_length_le hpos
  have hscale : (0 : ℚ) < 10 ^ s.exponent := zpow_pos (by norm_num) _
  have hsize : (10 : ℚ) ^ ((digitChars s.digits).length + s.exponent) < 10 ^ (311 : ℤ) := by
    calc (10 : ℚ) ^ ((digitChars s.digits).length + s.exponent)
        = 10 ^ (digitChars s.digits).length * 10 ^ s.exponent := by
          rw [zpow_add₀ (by norm_num), zpow_natCast]
      _ ≤ 10 * s.digits * 10 ^ s.exponent := mul_le_mul_of_nonneg_right hdigits hscale.le
      _ = 10 * (s.digits * 10 ^ s.exponent) := mul_assoc ..
      _ ≤ 10 * b.high := by linarith [hcovers.high]
      _ < 10 * 10 ^ (310 : ℤ) := by linarith [hb.high_lt]
      _ = 10 ^ (311 : ℤ) := (zpow_one_add₀ (by norm_num) _).symm
  exact (zpow_lt_zpow_iff_right₀ (by norm_num)).mp hsize

/-- Every double is written with few characters. -/
theorem length_plain_le (x : Float) : (plain x).toList.length ≤ 1000 := by
  cases hx : classify x with
  | nan =>
      rw [plain, hx]
      decide
  | infinite negative =>
      rw [plain, hx]
      cases negative <;> decide +kernel
  | finite negative b =>
      have hchars : (b.shortest .up).plainChars.length ≤ 999 := by
        rcases Nat.eq_zero_or_pos b.mantissa with hzero | hpos
        · rw [Binary.shortest, if_pos hzero]
          decide
        · have hb := canonical_of_classify hx hpos
          have hlength := hb.length_shortest_lt .up
          obtain ⟨-, -, hexponent⟩ := hb.shortest_covers .up
          refine (Scaled.length_plainChars_le _).trans ?_
          omega
      have hsign : (minus negative).length ≤ 1 := by cases negative <;> decide
      rw [plain_toList hx, List.length_append]
      omega

end Slipbox.Decimal
