import Slipbox.Proofs.Decimal.Rounding

/-! The sixty-four bits of a double. A canonical mantissa and exponent survive packing, and they are
what a positive double consists of. -/

namespace Slipbox.Decimal

open Float.Model Float.Model.UnpackedFloat

/-- The double itself. -/
def Binary.toFloat (b : Binary) (h : 0 < b.mantissa) : Float :=
  .ofModel (.pack (b.unpacked h))

theorem toNat_packComponents (exponent : BitVec 11) (mantissa : BitVec 52) :
    (packComponents Format.binary64 .positive exponent mantissa).toNat =
      exponent.toNat * 2 ^ 52 + mantissa.toNat := by
  show (0#1 ++ exponent ++ mantissa).toNat = _
  rw [BitVec.toNat_append, BitVec.toNat_append, ← Nat.shiftLeft_add_eq_or_of_lt mantissa.isLt]
  simp [Nat.shiftLeft_eq]

/-- The exponent field of a double is zero for the mantissas of fewer than fifty-three bits. -/
def Binary.biased (b : Binary) : Nat :=
  if 2 ^ 52 ≤ b.mantissa then (b.exponent + 1075).toNat else 0

theorem Binary.Canonical.biased_bounds {b : Binary} (hb : b.Canonical) :
    b.biased < 2047 ∧ (2 ^ 52 ≤ b.mantissa → (b.biased : ℤ) = b.exponent + 1075) ∧
      (b.mantissa < 2 ^ 52 → b.biased = 0) := by
  have hge := hb.exponent_ge
  have hle := hb.exponent_le
  unfold biased
  split <;> refine ⟨?_, ?_, ?_⟩ <;> omega

theorem Binary.Canonical.full_or_small {b : Binary} (hb : b.Canonical) :
    2 ^ 52 ≤ b.mantissa ∨ b.mantissa < 2 ^ 52 ∧ b.exponent = -1074 := by
  rcases Nat.lt_or_ge b.mantissa (2 ^ 52) with hsmall | hfull
  · exact Or.inr ⟨hsmall, hb.full.resolve_left (Nat.not_le.mpr hsmall)⟩
  · exact Or.inl hfull

theorem pack_eq {b : Binary} (hb : b.Canonical) :
    UnpackedFloat.pack Format.binary64 (b.unpacked hb.pos) =
      packComponents Format.binary64 .positive (BitVec.ofNat 11 b.biased)
        (BitVec.ofNat 52 b.mantissa) := by
  have hge := hb.exponent_ge
  have hle := hb.exponent_le
  have hbiased : (b.exponent + (Format.binary64.exponentBias : Nat) +
      (Format.binary64.mantissaBitsWithoutImplicit : Nat)).toNat = (b.exponent + 1075).toNat := by
    show (b.exponent + 1023 + 52).toNat = _
    omega
  have hfinite : ¬ 2 ^ 11 ≤ (b.exponent + 1075).toNat + 1 := by omega
  have hlog : (b.mantissa.log2 + 1 = Format.binary64.mantissaBits) ↔ 2 ^ 52 ≤ b.mantissa := by
    show b.mantissa.log2 + 1 = 53 ↔ _
    rw [← Nat.le_log2 hb.pos.ne']
    have := (Nat.log2_lt hb.pos.ne').mpr hb.mantissa_lt
    omega
  simp only [Binary.unpacked, UnpackedFloat.pack, hbiased, Binary.biased]
  rw [if_neg hfinite]
  simp only [hlog]
  split <;> rfl

/-- The fields of a canonical double, read as numbers. -/
theorem toNat_fields {b : Binary} (hb : b.Canonical) :
    (BitVec.ofNat 11 b.biased).toNat = b.biased ∧
      (BitVec.ofNat 52 b.mantissa).toNat =
        if 2 ^ 52 ≤ b.mantissa then b.mantissa - 2 ^ 52 else b.mantissa := by
  obtain ⟨hbiased, -, -⟩ := hb.biased_bounds
  have hlt := hb.mantissa_lt
  rw [BitVec.toNat_ofNat, BitVec.toNat_ofNat]
  refine ⟨by omega, ?_⟩
  split <;> omega

theorem finite_congr {s : Sign} {m m' : Nat} {e e' : ℤ} {h : 0 < m} {h' : 0 < m'} (hm : m = m')
    (he : e = e') : UnpackedFloat.finite s m e h = .finite s m' e' h' := by
  subst hm he
  rfl

theorem ofNat_ne_ofNat {w n k : Nat} (hn : n < 2 ^ w) (hk : k < 2 ^ w) (hne : n ≠ k) :
    BitVec.ofNat w n ≠ BitVec.ofNat w k := by
  intro h
  have hnat := congrArg BitVec.toNat h
  rw [BitVec.toNat_ofNat, BitVec.toNat_ofNat, Nat.mod_eq_of_lt hn, Nat.mod_eq_of_lt hk] at hnat
  exact hne hnat

theorem unpackSign_packComponents (exponent : BitVec 11) (mantissa : BitVec 52) :
    unpackSign (packComponents Format.binary64 .positive exponent mantissa) = 0#1 := by
  have hexponent := exponent.isLt
  have hmantissa := mantissa.isLt
  apply BitVec.eq_of_toNat_eq
  show ((packComponents Format.binary64 .positive exponent mantissa).toNat >>> 63) % 2 ^ 1 = 0
  rw [toNat_packComponents, Nat.shiftRight_eq_div_pow]
  omega

/-- Unpacking a double gives back what it was packed from. -/
theorem unpack_toFloat {b : Binary} (hb : b.Canonical) :
    (b.toFloat hb.pos).toModel.unpack = b.unpacked hb.pos := by
  obtain ⟨hbiased, hmantissa⟩ := toNat_fields hb
  obtain ⟨hlt, hfull, hsmall⟩ := hb.biased_bounds
  have hpos := hb.pos
  have hones : BitVec.ofNat 11 b.biased ≠ -1#11 :=
    ofNat_ne_ofNat (k := 2047) (by omega) (by norm_num) (by omega)
  show UnpackedFloat.unpack Format.binary64 (UnpackedFloat.pack Format.binary64 _) = _
  rw [pack_eq hb]
  simp only [UnpackedFloat.unpack, unpackMantissa_packComponents, unpackExponent_packComponents,
    unpackSign_packComponents]
  rw [if_neg hones]
  rcases hb.full_or_small with hnormal | ⟨hsubnormal, hmin⟩
  · have hexponent := hfull hnormal
    have hge := hb.exponent_ge
    have hzero : BitVec.ofNat 11 b.biased ≠ 0#11 :=
      ofNat_ne_ofNat (by omega) (by norm_num) (by omega)
    have happend : (1#1 ++ BitVec.ofNat 52 b.mantissa).toNat = b.mantissa := by
      rw [BitVec.toNat_append, ← Nat.shiftLeft_add_eq_or_of_lt (BitVec.isLt _), hmantissa,
        if_pos hnormal, Nat.shiftLeft_eq]
      show 1 * 2 ^ 52 + (b.mantissa - 2 ^ 52) = b.mantissa
      omega
    rw [if_neg hzero]
    refine finite_congr happend ?_
    rw [hbiased, hexponent]
    show b.exponent + 1075 - (1023 + 52 : Nat) = b.exponent
    omega
  · have hne : BitVec.ofNat 52 b.mantissa ≠ 0#52 :=
      ofNat_ne_ofNat (by omega) (by norm_num) (by omega)
    rw [if_pos (by rw [hsmall hsubnormal]), dif_neg hne]
    refine finite_congr (hmantissa.trans (if_neg (by omega))) ?_
    rw [hbiased, hsmall hsubnormal, hmin]
    rfl

theorem toNat_toBits {b : Binary} (hb : b.Canonical) :
    (b.toFloat hb.pos).toBits.toNat =
      b.biased * 2 ^ 52 + if 2 ^ 52 ≤ b.mantissa then b.mantissa - 2 ^ 52 else b.mantissa := by
  obtain ⟨hbiased, hmantissa⟩ := toNat_fields hb
  show (UnpackedFloat.pack Format.binary64 _).toNat = _
  rw [pack_eq hb, toNat_packComponents, hbiased, hmantissa]

theorem float_ext {x y : Float} (h : x.toBits.toNat = y.toBits.toNat) : x = y := by
  have hbits : x.toModel.toBits = y.toModel.toBits := UInt64.toNat_inj.mp h
  obtain ⟨⟨bits, hvalid⟩⟩ := x
  obtain ⟨⟨bits', hvalid'⟩⟩ := y
  simp only at hbits
  subst hbits
  rfl

/-- A finite double without a sign is the one that its parts are packed to. -/
theorem classify_finite {x : Float} {b : Binary} (hx : classify x = .finite false b)
    (hpos : 0 < b.mantissa) : ∃ hb : b.Canonical, x = b.toFloat hb.pos := by
  have hlt : x.toBits.toNat < 2 ^ 64 := x.toBits.toNat_lt
  have hdiv := Nat.div_add_mod x.toBits.toNat (2 ^ 52)
  simp only [classify, Nat.pow_eq] at hx
  split at hx
  · split at hx <;> cases hx
  · next hbiased =>
    split at hx
    · next hzero =>
      simp only [Class.finite.injEq, beq_eq_false_iff_ne] at hx
      obtain ⟨hsign, rfl⟩ := hx
      have hb : Binary.Canonical ⟨x.toBits.toNat % 2 ^ 52, -1074⟩ :=
        ⟨⟨hpos, by simp only; omega, by simp, Or.inr rfl⟩, by simp⟩
      obtain ⟨-, -, hsmall⟩ := hb.biased_bounds
      have hlow : x.toBits.toNat % 2 ^ 52 < 2 ^ 52 := Nat.mod_lt _ (by norm_num)
      refine ⟨hb, float_ext ?_⟩
      rw [toNat_toBits hb, hsmall hlow, if_neg (Nat.not_le.mpr hlow)]
      show _ = 0 * 2 ^ 52 + x.toBits.toNat % 2 ^ 52
      omega
    · next hnormal =>
      simp only [Class.finite.injEq, beq_eq_false_iff_ne] at hx
      obtain ⟨hsign, rfl⟩ := hx
      have hb : Binary.Canonical ⟨2 ^ 52 + x.toBits.toNat % 2 ^ 52,
          (x.toBits.toNat / 2 ^ 52 % 2 ^ 11 : Nat) - 1075⟩ :=
        ⟨⟨hpos, by simp only; omega, by simp only; omega, Or.inl (by simp only; omega)⟩,
          by simp only; omega⟩
      obtain ⟨-, hfull, -⟩ := hb.biased_bounds
      have hhigh : 2 ^ 52 ≤ 2 ^ 52 + x.toBits.toNat % 2 ^ 52 := Nat.le_add_right _ _
      have hexponent := hfull hhigh
      simp only at hexponent
      refine ⟨hb, float_ext ?_⟩
      rw [toNat_toBits hb, if_pos hhigh, Nat.add_sub_cancel_left]
      omega

/-- The fields of a double are parts of its bits. -/
theorem toNat_unpackExponent (bits : BitVec 64) :
    (@unpackExponent Format.binary64 bits).toNat = bits.toNat / 2 ^ 52 % 2 ^ 11 := by
  show (bits.toNat >>> 52) % 2 ^ 11 = _
  rw [Nat.shiftRight_eq_div_pow]

theorem toNat_unpackMantissa (bits : BitVec 64) :
    (@unpackMantissa Format.binary64 bits).toNat = bits.toNat % 2 ^ 52 := rfl

/-- What is not a number is classified as such. -/
theorem classify_of_isNaN {x : Float} (hx : x.isNaN = true) : classify x = .nan := by
  let exponent := @unpackExponent Format.binary64 x.toBits.toBitVec
  let mantissa := @unpackMantissa Format.binary64 x.toBits.toBitVec
  have hnan : (UnpackedFloat.unpack Format.binary64 x.toBits.toBitVec).isNaN = true := hx
  have hparts : exponent = -1#11 ∧ mantissa ≠ 0#52 := by
    unfold UnpackedFloat.unpack at hnan
    dsimp only at hnan
    split at hnan
    · next hones =>
      split at hnan
      · cases hnan
      · next hsome => exact ⟨hones, hsome⟩
    · split at hnan
      · split at hnan <;> cases hnan
      · cases hnan
  have hbiased : x.toBits.toNat / 2 ^ 52 % 2 ^ 11 = 2047 := by
    rw [← UInt64.toNat_toBitVec, ← toNat_unpackExponent, show unpackExponent _ = _ from hparts.1]
    rfl
  have hfraction : x.toBits.toNat % 2 ^ 52 ≠ 0 := fun hzero =>
    hparts.2 (BitVec.eq_of_toNat_eq ((toNat_unpackMantissa _).trans hzero))
  unfold classify
  dsimp only [Nat.pow_eq]
  rw [if_pos hbiased, if_neg hfraction]

/-- What a double says is in the form that a positive double has, but for a mantissa of zero. -/
theorem classify_form {x : Float} {negative : Bool} {b : Binary}
    (hx : classify x = .finite negative b) :
    b.mantissa < 2 ^ 53 ∧ (2 ^ 52 ≤ b.mantissa ∨ b.exponent = -1074) ∧
      -1074 ≤ b.exponent ∧ b.exponent ≤ 971 := by
  have hbiased : x.toBits.toNat / 2 ^ 52 % 2 ^ 11 < 2 ^ 11 := Nat.mod_lt _ (by norm_num)
  have hfraction : x.toBits.toNat % 2 ^ 52 < 2 ^ 52 := Nat.mod_lt _ (by norm_num)
  simp only [classify, Nat.pow_eq] at hx
  generalize x.toBits.toNat / 2 ^ 52 % 2 ^ 11 = biased at hx hbiased
  generalize x.toBits.toNat % 2 ^ 52 = fraction at hx hfraction
  split at hx
  · split at hx <;> cases hx
  · next hfinite =>
    split at hx
    · simp only [Class.finite.injEq] at hx
      obtain ⟨-, rfl⟩ := hx
      exact ⟨by simp only; omega, .inr rfl, le_rfl, by norm_num⟩
    · simp only [Class.finite.injEq] at hx
      obtain ⟨-, rfl⟩ := hx
      exact ⟨by simp only; omega, .inl (Nat.le_add_right _ _), by simp only; omega,
        by simp only; omega⟩

theorem canonical_of_classify {x : Float} {negative : Bool} {b : Binary}
    (hx : classify x = .finite negative b) (hpos : 0 < b.mantissa) : b.Canonical := by
  obtain ⟨hmantissa, hfull, hlow, hhigh⟩ := classify_form hx
  exact ⟨⟨hpos, hmantissa, hlow, hfull⟩, hhigh⟩

theorem classify_zero {x : Float} {b : Binary} (hx : classify x = .finite false b)
    (hzero : b.mantissa = 0) : x.toBits.toNat = 0 := by
  have hlt : x.toBits.toNat < 2 ^ 64 := x.toBits.toNat_lt
  simp only [classify, Nat.pow_eq] at hx
  split at hx
  · split at hx <;> cases hx
  · split at hx
    · simp only [Class.finite.injEq, beq_eq_false_iff_ne] at hx
      obtain ⟨hsign, rfl⟩ := hx
      simp only at hzero
      omega
    · simp only [Class.finite.injEq] at hx
      obtain ⟨-, rfl⟩ := hx
      simp only at hzero
      omega

namespace Binary

section Order

/-! Doubles compare as their values do. -/

variable {a b : Binary}

theorem compare_value (ha : a.Normalized) (hb : b.Normalized) :
    (compare a.exponent b.exponent).then (compare a.mantissa b.mantissa) =
      compare a.value b.value := by
  rcases lt_trichotomy a.exponent b.exponent with hlt | heq | hgt
  · rw [compare_lt_iff_lt.mpr hlt, compare_lt_iff_lt.mpr (value_lt_of_exponent ha hb hlt)]
    rfl
  · rw [compare_eq_iff_eq.mpr heq, Ordering.eq_then, value, value, heq]
    rcases lt_trichotomy a.mantissa b.mantissa with hlt | hsame | hgt
    · rw [compare_lt_iff_lt.mpr hlt, eq_comm, compare_lt_iff_lt]
      exact mul_lt_mul_of_pos_right (by exact_mod_cast hlt) (two_zpow_pos _)
    · rw [hsame, compare_eq_iff_eq.mpr rfl, compare_eq_iff_eq.mpr rfl]
    · rw [compare_gt_iff_gt.mpr hgt, eq_comm, compare_gt_iff_gt]
      exact mul_lt_mul_of_pos_right (by exact_mod_cast hgt) (two_zpow_pos _)
  · rw [compare_gt_iff_gt.mpr hgt, compare_gt_iff_gt.mpr (value_lt_of_exponent hb ha hgt)]
    rfl

theorem eq_of_value (ha : a.Normalized) (hb : b.Normalized) (h : a.value = b.value) : a = b := by
  have hsame := compare_value ha hb
  rw [compare_eq_iff_eq.mpr h, Ordering.then_eq_eq, compare_eq_iff_eq, compare_eq_iff_eq] at hsame
  obtain ⟨m, e⟩ := a
  obtain ⟨m', e'⟩ := b
  cases hsame.1
  cases hsame.2
  rfl

theorem compare_toFloat (ha : a.Canonical) (hb : b.Canonical) :
    (a.toFloat ha.pos).toModel.unpack.compare (b.toFloat hb.pos).toModel.unpack =
      some (compare a.value b.value) := by
  rw [unpack_toFloat ha, unpack_toFloat hb, ← compare_value ha.toNormalized hb.toNormalized]
  rfl

theorem toFloat_lt_iff (ha : a.Canonical) (hb : b.Canonical) :
    a.toFloat ha.pos < b.toFloat hb.pos ↔ a.value < b.value := by
  have hlt : a.toFloat ha.pos < b.toFloat hb.pos ↔
      ((a.toFloat ha.pos).toModel.unpack.compare (b.toFloat hb.pos).toModel.unpack ==
        some .lt) = true := decide_eq_true_iff
  rw [hlt, compare_toFloat ha hb, beq_iff_eq, Option.some.injEq, compare_lt_iff_lt]

theorem toFloat_le_iff (ha : a.Canonical) (hb : b.Canonical) :
    a.toFloat ha.pos ≤ b.toFloat hb.pos ↔ a.value ≤ b.value := by
  have hle : a.toFloat ha.pos ≤ b.toFloat hb.pos ↔
      ((a.toFloat ha.pos).toModel.unpack.compare (b.toFloat hb.pos).toModel.unpack).any
        (·.isLE) = true := decide_eq_true_iff
  rw [hle, compare_toFloat ha hb, Option.any_some, Ordering.isLE_iff_ne_gt, compare_gt_iff_gt,
    not_lt]

theorem toFloat_beq_iff (ha : a.Canonical) (hb : b.Canonical) :
    (a.toFloat ha.pos == b.toFloat hb.pos) = true ↔ a.value = b.value := by
  have hbeq : (a.toFloat ha.pos == b.toFloat hb.pos) =
      ((a.toFloat ha.pos).toModel.unpack.compare (b.toFloat hb.pos).toModel.unpack ==
        some .eq) := rfl
  rw [hbeq, compare_toFloat ha hb, beq_iff_eq, Option.some.injEq, compare_eq_iff_eq]

end Order

end Binary

end Slipbox.Decimal
