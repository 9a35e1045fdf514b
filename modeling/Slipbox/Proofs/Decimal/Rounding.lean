import Mathlib
import Slipbox.Proofs.Decimal.Interval

/-! How the arithmetic of doubles rounds. An operation computes a mantissa, an exponent, and where
the exact result stands behind that mantissa; then it cuts the mantissa to the bits of a double. The
result is the double that covers the exact one. -/

namespace Slipbox.Decimal

open Float.Model Float.Model.UnpackedFloat

/-- Where a rational stands between the whole number `m` and the next one. -/
def Placed (m : Nat) (x : ℚ) : Accuracy → Prop
  | .exact => x = m
  | .inexact .lt => m < x ∧ x < m + 1 / 2
  | .inexact .eq => x = m + 1 / 2
  | .inexact .gt => m + 1 / 2 < x ∧ x < m + 1

theorem Placed.bounds {m : Nat} {x : ℚ} {acc : Accuracy} (h : Placed m x acc) :
    m ≤ x ∧ x < m + 1 := by
  rcases acc with _ | _ | _ | _ <;> simp only [Placed] at h <;> constructor <;> linarith

theorem Placed.nearest {m : Nat} {x : ℚ} {acc : Accuracy} (h : Placed m x acc) :
    Nearest x (acc.roundToNearestEven m) := by
  rcases acc with _ | _ | _ | _ <;> simp only [Placed, Accuracy.roundToNearestEven] at h ⊢
  · exact ⟨by linarith, by linarith, by rintro (h' | h') <;> linarith⟩
  · exact ⟨by linarith, by linarith, by rintro (h' | h') <;> linarith⟩
  · rcases Nat.mod_two_eq_zero_or_one m with hm | hm
    · rw [hm]
      exact ⟨by push_cast; linarith, by push_cast; linarith, fun _ => hm⟩
    · rw [hm]
      exact ⟨by push_cast; linarith, by push_cast; linarith, fun _ => by omega⟩
  · exact ⟨by push_cast; linarith, by push_cast; linarith,
      by push_cast; rintro (h' | h') <;> linarith⟩

theorem placed_exact_zpow (m : Nat) (e : ℤ) : Placed m (m * 2 ^ e / 2 ^ e) .exact := by
  show (m * 2 ^ e / 2 ^ e : ℚ) = m
  rw [mul_div_cancel_right₀ _ (two_zpow_pos e).ne']

theorem placed_ofMantissaAndAccuracy {m : Nat} {x : ℚ} {acc : Accuracy} (h : Placed m x acc) :
    Placed (ExtendedMantissa.ofMantissaAndAccuracy m acc).mantissa x
      (ExtendedMantissa.ofMantissaAndAccuracy m acc).accuracy := by
  rcases acc with _ | _ | _ | _ <;> exact h

/-- The bit that falls out and the two bits behind it say where half of the rational stands. -/
theorem placed_shiftRightOne {em : ExtendedMantissa} {x : ℚ}
    (h : Placed em.mantissa x em.accuracy) :
    Placed em.shiftRightOne.mantissa (x / 2) em.shiftRightOne.accuracy := by
  obtain ⟨m, r, s⟩ := em
  have hm : (m : ℚ) = 2 * (m / 2 : Nat) + (m % 2 : Nat) := by
    exact_mod_cast (Nat.div_add_mod m 2).symm
  rcases Nat.mod_two_eq_zero_or_one m with hr | hr <;> rw [hr] at hm <;> push_cast at hm <;>
    cases r <;> cases s <;>
    simp only [ExtendedMantissa.shiftRightOne, ExtendedMantissa.accuracy, Placed, hr] at h ⊢
  all_goals first | (show _ = _; linarith) | (constructor <;> linarith)

theorem placed_shiftRight {em : ExtendedMantissa} {x : ℚ} (h : Placed em.mantissa x em.accuracy)
    (n : Nat) : Placed (em >>> n).mantissa (x / 2 ^ n) (em >>> n).accuracy := by
  show Placed (n.repeat ExtendedMantissa.shiftRightOne em).mantissa _
    (n.repeat ExtendedMantissa.shiftRightOne em).accuracy
  induction n with
  | zero => rwa [pow_zero, div_one]
  | succ n ih =>
      rw [pow_succ, ← div_div]
      exact placed_shiftRightOne ih

theorem targetExponent_eq (e : ℤ) : Format.binary64.targetExponent e = max (e - 53) (-1074) := rfl

/-- The double in the form that the operations of the model work on. -/
def Binary.unpacked (b : Binary) (h : 0 < b.mantissa) : UnpackedFloat :=
  .finite .positive b.mantissa b.exponent h

/-- A normalized mantissa is not shifted any further. -/
theorem shiftToTargetExponent_normalized {b : Binary} (hb : b.Normalized) :
    shiftToTargetExponent Format.binary64 b.mantissa b.exponent .exact =
      (⟨b.mantissa, false, false⟩, b.exponent) := by
  have htarget : Format.binary64.targetExponent (totalExponent b.mantissa b.exponent) =
      b.exponent := by
    have hlog : b.mantissa.log2 < 53 := (Nat.log2_lt hb.pos.ne').mpr hb.mantissa_lt
    have hge := hb.exponent_ge
    rw [targetExponent_eq, totalExponent]
    rcases hb.full with hfull | hmin
    · have := (Nat.le_log2 hb.pos.ne').mpr hfull
      omega
    · omega
  simp only [shiftToTargetExponent, shiftToExponent, htarget, Int.sub_self, Int.toNat_zero,
    Nat.cast_zero, add_zero]
  rfl

/-- A mantissa of one bit too many is shifted once. -/
theorem shiftToTargetExponent_overflow {e : ℤ} (he : -1074 ≤ e) :
    shiftToTargetExponent Format.binary64 (2 ^ 53) e .exact = (⟨2 ^ 52, false, false⟩, e + 1) := by
  have htarget : Format.binary64.targetExponent (totalExponent (2 ^ 53) e) = e + 1 := by
    rw [targetExponent_eq, totalExponent, Nat.log2_two_pow]
    omega
  have hone : (e + 1 - e).toNat = 1 := by omega
  simp only [shiftToTargetExponent, shiftToExponent, htarget, hone]
  rfl

section

variable {b : Binary} {v : ℚ} {m : Nat} {e : ℤ} {acc : Accuracy}

/-- The total exponent bounds the rational. -/
theorem Placed.total_bounds (h : Placed m (v / 2 ^ e) acc) :
    v < 2 ^ totalExponent m e ∧ (m ≠ 0 → (2 : ℚ) ^ (totalExponent m e - 1) ≤ v) := by
  obtain ⟨hle, hlt⟩ := h.bounds
  rw [le_div_iff₀ (two_zpow_pos e)] at hle
  rw [div_lt_iff₀ (two_zpow_pos e)] at hlt
  constructor
  · have hpow : (m + 1 : ℚ) ≤ 2 ^ (m.log2 + 1) := by exact_mod_cast (Nat.lt_log2_self (n := m))
    calc v < (m + 1) * 2 ^ e := hlt
      _ ≤ 2 ^ (m.log2 + 1) * 2 ^ e := mul_le_mul_of_nonneg_right hpow (two_zpow_pos e).le
      _ = 2 ^ totalExponent m e := by
        rw [totalExponent, zpow_add₀ (by norm_num)]
        rfl
  · intro hm
    have hpow : (2 : ℚ) ^ m.log2 ≤ m := by exact_mod_cast Nat.log2_self_le hm
    have hless : totalExponent m e - 1 = m.log2 + e := by
      rw [totalExponent]
      omega
    calc (2 : ℚ) ^ (totalExponent m e - 1) = 2 ^ m.log2 * 2 ^ e := by
          rw [hless, zpow_add₀ (by norm_num), zpow_natCast]
      _ ≤ m * 2 ^ e := mul_le_mul_of_nonneg_right hpow (two_zpow_pos e).le
      _ ≤ v := hle

theorem Placed.lt_total (h : Placed m (v / 2 ^ e) acc) {k : ℤ} (hk : (2 : ℚ) ^ k ≤ v) :
    k < totalExponent m e :=
  two_zpow_lt (hk.trans_lt h.total_bounds.1)

/-- The mantissa has enough bits for a double. -/
abbrev Enough (m : Nat) (e : ℤ) : Prop :=
  e ≤ Format.binary64.targetExponent (totalExponent m e)

theorem enough_of_full (h : 2 ^ 52 ≤ m) : Enough m e := by
  have hlog : 52 ≤ m.log2 := (Nat.le_log2 (by omega)).mpr h
  rw [Enough, targetExponent_eq, totalExponent]
  omega

theorem Placed.total_le (h : Placed m (v / 2 ^ e) acc) (henough : Enough m e) {k : ℤ}
    (hk : -1073 ≤ k) (hv : v < 2 ^ k) : totalExponent m e ≤ k := by
  by_cases hm : m = 0
  · subst hm
    simp only [Enough, targetExponent_eq, totalExponent, Nat.log2_zero] at henough ⊢
    omega
  · have := two_zpow_lt ((h.total_bounds.2 hm).trans_lt hv)
    omega

/-- A first shift leaves the rational in the units of the target exponent. -/
theorem Placed.shift (h : Placed m (v / 2 ^ e) acc) (henough : Enough m e) {t : ℤ}
    (ht : Format.binary64.targetExponent (totalExponent m e) = t) :
    ∃ em : ExtendedMantissa,
      shiftToTargetExponent Format.binary64 m e acc = (em, t) ∧
        Placed em.mantissa (v / 2 ^ t) em.accuracy := by
  have hle : e ≤ t := henough.trans ht.le
  obtain ⟨n, hn⟩ := Int.eq_ofNat_of_zero_le (Int.sub_nonneg_of_le hle)
  have htarget : t = e + n := by omega
  have hplaced := placed_shiftRight (placed_ofMantissaAndAccuracy h) n
  rw [div_div, ← zpow_natCast, ← zpow_add₀ (by norm_num), ← htarget] at hplaced
  refine ⟨_, ?_, hplaced⟩
  simp only [shiftToTargetExponent, shiftToExponent, ht, hn, Int.toNat_natCast]
  rw [← htarget]

theorem roundWithAccuracy_of_roundsTo (hb : b.Normalized) (hv : b.RoundsTo v)
    (hplaced : Placed m (v / 2 ^ e) acc) (henough : Enough m e) :
    roundWithAccuracy Format.binary64 .positive m e acc = b.unpacked hb.pos := by
  have hge := hb.exponent_ge
  have hv_lt : v < 2 ^ (53 + b.exponent) := by
    have hmantissa : (b.mantissa + 1 : ℚ) ≤ 2 ^ 53 := by exact_mod_cast hb.mantissa_lt
    have hhigh := hv.nearest.high
    rw [zpow_add₀ (by norm_num), ← div_lt_iff₀ (two_zpow_pos _)]
    norm_num at hmantissa ⊢
    linarith
  have htarget : Format.binary64.targetExponent (totalExponent m e) = b.exponent := by
    have hle := hplaced.total_le henough (by omega) hv_lt
    rw [targetExponent_eq]
    rcases hv.full with hfull | hsmallest
    · have hv_ge : (2 : ℚ) ^ (52 + b.exponent) ≤ v := by
        rw [zpow_add₀ (by norm_num), ← le_div_iff₀ (two_zpow_pos _)]
        exact_mod_cast hfull
      have hlt := hplaced.lt_total hv_ge
      omega
    · omega
  obtain ⟨em, hshift, hem⟩ := hplaced.shift henough htarget
  have hrounded : em.roundedMantissa = b.mantissa := hem.nearest.unique hv.nearest
  simp only [roundWithAccuracy, hshift, hrounded, shiftToTargetExponent_normalized hb]
  exact dif_neg hb.pos.ne'

theorem roundWithAccuracy_of_roundsUp (hb : b.Normalized) (hv : b.RoundsUp v)
    (hplaced : Placed m (v / 2 ^ e) acc) (henough : Enough m e) :
    roundWithAccuracy Format.binary64 .positive m e acc = b.unpacked hb.pos := by
  have hgt := hv.exponent_gt
  have hv_lt : v < 2 ^ (52 + b.exponent) := by
    rw [zpow_add₀ (by norm_num), ← div_lt_iff₀ (two_zpow_pos _)]
    exact_mod_cast hv.less
  have hv_ge : (2 : ℚ) ^ (52 + (b.exponent - 1)) ≤ v := by
    have hlow := hv.nearest.low
    rw [zpow_add₀ (by norm_num), ← le_div_iff₀ (two_zpow_pos _)]
    norm_num at hlow ⊢
    linarith
  have htarget : Format.binary64.targetExponent (totalExponent m e) = b.exponent - 1 := by
    have hle := hplaced.total_le henough (by omega) hv_lt
    have hlt := hplaced.lt_total hv_ge
    rw [targetExponent_eq]
    omega
  obtain ⟨em, hshift, hem⟩ := hplaced.shift henough htarget
  have hrounded : em.roundedMantissa = 2 ^ 53 := hem.nearest.unique hv.nearest
  have hagain : shiftToTargetExponent Format.binary64 (2 ^ 53) (b.exponent - 1) .exact =
      (⟨b.mantissa, false, false⟩, b.exponent) := by
    rw [shiftToTargetExponent_overflow (by omega), Int.sub_add_cancel, hv.mantissa_eq]
  simp only [roundWithAccuracy, hshift, hrounded, hagain]
  exact dif_neg hb.pos.ne'

/-- A rational that a double covers is rounded to it. -/
theorem roundWithAccuracy_of_covers (hb : b.Normalized) (hv : b.Covers v)
    (hplaced : Placed m (v / 2 ^ e) acc) (henough : Enough m e) :
    roundWithAccuracy Format.binary64 .positive m e acc = b.unpacked hb.pos := by
  rcases hv.rounds hb with hto | hup
  · exact roundWithAccuracy_of_roundsTo hb hto hplaced henough
  · exact roundWithAccuracy_of_roundsUp hb hup hplaced henough

end

theorem log2_shiftLeft {m : Nat} (hm : 0 < m) (n : Nat) : (m <<< n).log2 = m.log2 + n := by
  induction n with
  | zero => rfl
  | succ n ih =>
      have hpos : 0 < m <<< n := Nat.shiftLeft_eq m n ▸ Nat.mul_pos hm (by positivity)
      rw [Nat.shiftLeft_succ, Nat.log2_two_mul hpos.ne', ih, Nat.add_assoc]

/-- To be rounded a mantissa first gets the bits that it lacks. -/
theorem round_of_covers {b : Binary} (hb : b.Normalized) {m : Nat} {e : ℤ} (hm : 0 < m)
    (hv : b.Covers (m * 2 ^ e)) :
    UnpackedFloat.round Format.binary64 .positive m e = b.unpacked hb.pos := by
  generalize ht : Format.binary64.targetExponent (totalExponent m e) = t
  generalize hn : (e - t).toNat = n
  have henough : Enough (m <<< n) (e - n) := by
    have hsame : totalExponent (m <<< n) (e - n) = totalExponent m e := by
      rw [totalExponent, totalExponent, log2_shiftLeft hm]
      omega
    rw [Enough, hsame, ht]
    omega
  have hvalue : (m * 2 ^ e : ℚ) = (m <<< n : Nat) * 2 ^ (e - n) := by
    rw [Nat.shiftLeft_eq, zpow_sub₀ (by norm_num), zpow_natCast]
    push_cast
    field_simp
  rw [hvalue] at hv
  simp only [UnpackedFloat.round, decreaseExponent, ht, hn]
  exact roundWithAccuracy_of_covers hb hv (placed_exact_zpow _ _) henough

end Slipbox.Decimal
