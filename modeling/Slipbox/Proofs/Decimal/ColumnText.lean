import Slipbox.Proofs.Decimal.Plain
import Slipbox.Proofs.Decimal.Rounded

/-! The text that a double becomes among a column's texts. It has the fifteen digits that the double
is rounded to, without the zeros at their end but always with a point. It is the plain decimal of
the double for just the fractions of at most fifteen digits that are not smaller than `10^-4`. -/

namespace Slipbox.Decimal

section Digits

variable {n : ℕ}

theorem digitChars_mul_pow (hpos : 0 < n) (j : ℕ) :
    digitChars (n * 10 ^ j) = digitChars n ++ zeros j := by
  induction j with
  | zero => simp [zeros]
  | succ j ih =>
      have hnext := Nat.toDigits_append_toDigits (b := 10) (n := n * 10 ^ j) (d := 0) (by norm_num)
        (by positivity) (by norm_num)
      rw [zeros, List.replicate_succ', ← List.append_assoc, ← zeros, ← ih, pow_succ', digitChars,
        mul_left_comm]
      exact hnext.symm

theorem trimZeros_append_zeros (ds : List Char) (j : ℕ) :
    trimZeros (ds ++ zeros j) = trimZeros ds := by
  rw [trimZeros, zeros, List.reverse_append, List.reverse_replicate,
    List.dropWhile_append_of_pos (by simp)]
  rfl

theorem trimZeros_digitChars (hdigit : n % 10 ≠ 0) : trimZeros (digitChars n) = digitChars n := by
  have hlast : (digitChars n).reverse.head? ≠ some '0' := by
    rw [digitChars, Nat.toDigits_eq_if (by norm_num)]
    split
    · simpa using (by omega : n ≠ 0)
    · simpa using hdigit
  rw [trimZeros, List.dropWhile_beq_eq_self_of_head?_ne hlast, List.reverse_reverse]

theorem lt_pow_length (n : ℕ) : n < 10 ^ (digitChars n).length :=
  (Nat.length_toDigits_le_iff (by norm_num) Nat.length_toDigits_pos).mp le_rfl

theorem pow_length_le (hpos : 0 < n) : 10 ^ (digitChars n).length ≤ 10 * n := by
  have hlength : 0 < (digitChars n).length := Nat.length_toDigits_pos
  generalize hk : (digitChars n).length = k at hlength
  obtain ⟨k, rfl⟩ := Nat.exists_eq_add_one_of_ne_zero hlength.ne'
  rcases Nat.eq_zero_or_pos k with rfl | hk_pos
  · omega
  · have hmore : ¬ n < 10 ^ k := fun hless => by
      have hle := (Nat.length_toDigits_le_iff (by norm_num) hk_pos).mpr hless
      rw [digitChars] at hk
      omega
    rw [pow_succ']
    omega

/-- A fraction is not smaller than `10^-4` where at most three zeros follow its point. -/
theorem pow_le_iff_places (hpos : 0 < n) {p : ℕ} :
    10 ^ p ≤ 10 ^ 4 * n ↔ p ≤ (digitChars n).length + 3 := by
  constructor
  · intro h
    have hmore : 10 ^ p < 10 ^ ((digitChars n).length + 4) := by
      have hless := lt_pow_length n
      rw [pow_add]
      omega
    exact Nat.lt_succ_iff.mp ((Nat.pow_lt_pow_iff_right (by norm_num)).mp hmore)
  · intro h
    have hlong := pow_length_le hpos
    calc 10 ^ p ≤ 10 ^ ((digitChars n).length + 3) := Nat.pow_le_pow_right (by norm_num) h
      _ = 10 ^ (digitChars n).length * 10 ^ 3 := pow_add ..
      _ ≤ 10 ^ 4 * n := by omega

/-- A number is its digits up to the last that is not zero, and zeros. -/
theorem exists_trimmed (hpos : 0 < n) : ∃ m j, n = m * 10 ^ j ∧ m % 10 ≠ 0 := by
  obtain ⟨j, m, hdigit, hn⟩ := Nat.exists_eq_pow_mul_and_not_dvd hpos.ne' 10 (by norm_num)
  exact ⟨m, j, by rw [hn, mul_comm], fun hzero => hdigit (Nat.dvd_of_mod_eq_zero hzero)⟩

end Digits

/-- The numeral of a decimal by the place of its point. -/
theorem Scaled.numeral_eq (s : Scaled) :
    let ds := digitChars s.digits
    let point : ℤ := ds.length + s.exponent
    s.numeral = if point ≤ 0 then ⟨['0'], zeros (-point).toNat ++ ds, 0⟩
      else ⟨ds.take point.toNat ++ zeros (point.toNat - ds.length), ds.drop point.toNat, 0⟩ := by
  have hlength : 0 < (digitChars s.digits).length := Nat.length_toDigits_pos
  unfold numeral
  dsimp only
  generalize digitChars s.digits = ds at hlength
  generalize hpoint : (ds.length + s.exponent : ℤ) = point
  split
  · have hall : ds.length ≤ point.toNat := by omega
    have hmore : point.toNat - ds.length = s.exponent.toNat := by omega
    rw [if_neg (by omega), List.take_of_length_le hall, List.drop_of_length_le hall, hmore]
  · split
    · next hplaces =>
      have hinside : ds.length - (-s.exponent).toNat = point.toNat := by omega
      have hnone : point.toNat - ds.length = 0 := by omega
      rw [if_neg (by omega), hinside, hnone, zeros, List.replicate_zero, List.append_nil]
    · next hplaces =>
      have hplaces : (-s.exponent).toNat - ds.length = (-point).toNat := by omega
      rw [if_pos (by omega), hplaces]

/-- The numeral with at least one digit behind its point. -/
def Numeral.pointed (n : Numeral) : Numeral :=
  if n.fraction.isEmpty then { n with fraction := ['0'] } else n

theorem Numeral.pointed_chars (n : Numeral) : n.pointed.chars =
    n.whole ++ '.' :: (if n.fraction.isEmpty then ['0'] else n.fraction) := by
  obtain ⟨whole, fraction, exponent⟩ := n
  cases fraction <;> rfl

theorem Numeral.Plain.pointed {n : Numeral} (hn : n.Plain) : n.pointed.Plain := by
  obtain ⟨whole, fraction, exponent⟩ := n
  cases fraction with
  | nil =>
      refine ⟨hn.nonempty, fun c hc => ?_, hn.exponent⟩
      rcases List.mem_append.mp hc with hc | hc
      · exact hn.digits c (List.mem_append_left _ hc)
      · rw [List.mem_singleton.mp hc]
        rfl
  | cons d ds => exact hn

theorem Numeral.pointed_eq_self {n : Numeral} (h : n.fraction ≠ []) : n.pointed = n :=
  if_neg (by simpa using h)

/-- A point or a digit, but no exponent mark. -/
theorem Numeral.Plain.no_mark {n : Numeral} (hn : n.Plain) : 'e' ∉ n.chars := by
  obtain ⟨whole, fraction, exponent⟩ := n
  have hdigit (ds : List Char) (hds : ∀ c ∈ ds, c ∈ whole ++ fraction) : 'e' ∉ ds :=
    fun hmem => absurd (hn.digits 'e' (hds _ hmem)) (by decide)
  cases fraction with
  | nil => exact hdigit whole fun _ => List.mem_append_left _
  | cons d ds =>
      have hwhole := hdigit whole fun _ => List.mem_append_left _
      have hfraction := hdigit (d :: ds) fun _ => List.mem_append_right _
      show 'e' ∉ whole ++ '.' :: d :: ds
      simp only [List.mem_append, List.mem_cons (b := '.'), not_or]
      exact ⟨hwhole, by decide, hfraction⟩

/-- A zero at the end of the fraction would be one of the digits. -/
theorem Scaled.fraction_ne_zero {s : Scaled} (hdigit : s.digits % 10 ≠ 0) :
    s.numeral.fraction ≠ ['0'] := by
  intro hzero
  have hlength := s.fraction_length
  have hvalue := s.numeral_value
  rw [hzero, List.length_singleton] at hlength
  have hexponent : s.exponent = -1 := by omega
  have hends (n : ℕ) : Nat.ofDigitChars 10 ['0'] n = 10 * n := rfl
  rw [hzero, digitsValue_append, hends, hexponent, List.length_singleton, pow_one,
    zpow_neg_one] at hvalue
  have hdigits : s.digits = 10 * digitsValue s.numeral.whole := by
    field_simp at hvalue
    exact_mod_cast hvalue.symm
  omega

/-- The pointed numeral of a decimal is that of one without a zero at the end only if both have
digits behind the point, and then they are equal. -/
theorem Scaled.value_eq_of_pointed {s s' : Scaled} (hdigit : s'.digits % 10 ≠ 0)
    (h : s'.numeral = s.numeral.pointed) :
    s.exponent < 0 ∧ (s.digits * 10 ^ s.exponent : ℚ) = s'.digits * 10 ^ s'.exponent := by
  have hfraction : s.numeral.fraction ≠ [] := fun hnone => by
    refine fraction_ne_zero hdigit ?_
    rw [h, Numeral.pointed, hnone]
    rfl
  have hlength : 0 < (-s.exponent).toNat :=
    s.fraction_length ▸ List.length_pos_iff.mpr hfraction
  refine ⟨by omega, ?_⟩
  rw [← s'.numeral_value, h, Numeral.pointed_eq_self hfraction, s.numeral_value]

/-- The decimal `d / 10^p` has a digit behind its point, at most fifteen digits in all, and is not
smaller than `10^-4`. -/
structure ShortDecimal (d p : ℕ) : Prop where
  places : 0 < p
  digit : d % 10 ≠ 0
  few : d < 10 ^ 15
  range : 10 ^ p ≤ 10 ^ 4 * d

theorem natCast_div_pow (d p : ℕ) : (d / 10 ^ p : ℚ) = d * 10 ^ (-p : ℤ) := by
  rw [zpow_neg, zpow_natCast, div_eq_mul_inv]

section Layout

variable {x : Float} {negative : Bool} {b : Binary} (hx : classify x = .finite negative b)

include hx

/-- The layout of the rounded digits, from which the zeros at the end are taken. -/
theorem columnText_toList (hpos : 0 < b.mantissa) {n j : ℕ} {e : ℤ}
    (hrounded : b.rounded = ⟨n * 10 ^ j, e⟩) (hdigit : n % 10 ≠ 0) :
    let point : ℤ := (digitChars n).length + (e + j)
    (-3 ≤ point ∧ point ≤ 15 → (columnText x).toList =
      minus negative ++ (Scaled.mk n (e + j)).numeral.pointed.chars) ∧
    (¬ (-3 ≤ point ∧ point ≤ 15) → 'e' ∈ (columnText x).toList) := by
  intro point
  have hn : 0 < n := Nat.pos_of_ne_zero fun hzero => hdigit (by rw [hzero])
  have hall : digitChars (n * 10 ^ j) = digitChars n ++ zeros j := digitChars_mul_pow hn j
  have htrim : trimZeros (digitChars (n * 10 ^ j)) = digitChars n := by
    rw [hall, trimZeros_append_zeros, trimZeros_digitChars hdigit]
  have hpoint : ((digitChars (n * 10 ^ j)).length + e : ℤ) = point := by
    rw [hall, List.length_append, zeros, List.length_replicate]
    push_cast
    ring
  have hinside : (-4 ≤ point - 1 ∧ point - 1 ≤ 14) ↔ (-3 ≤ point ∧ point ≤ 15) := by omega
  unfold columnText
  rw [hx]
  dsimp only
  rw [if_neg hpos.ne', show roundTo 15 b.interval.value b.interval.unit b.magnitude = _ from
    hrounded]
  dsimp only
  rw [hpoint, htrim, if_congr hinside rfl rfl]
  constructor
  · intro hin
    have hnumeral := (Scaled.mk n (e + j)).numeral_eq
    dsimp only at hnumeral
    rw [if_pos hin, Numeral.pointed_chars, hnumeral]
    split <;> cases negative <;> exact String.toList_ofList
  · intro hout
    rw [if_neg hout]
    have hmark (front back : List Char) : 'e' ∈ front ++ 'e' :: back :=
      List.mem_append_right _ List.mem_cons_self
    cases negative with
    | false =>
        show 'e' ∈ (String.ofList (_ ++ 'e' :: _)).toList
        exact String.toList_ofList ▸ hmark _ _
    | true =>
        show 'e' ∈ (String.ofList ('-' :: (_ ++ 'e' :: _))).toList
        exact String.toList_ofList ▸ List.mem_cons_of_mem _ (hmark _ _)

/-- Where the column's text is the plain decimal, it is that of a short one. -/
theorem exists_of_columnText_eq_plain (hpos : 0 < b.mantissa) (h : columnText x = plain x) :
    ∃ d p, ShortDecimal d p ∧ b.Covers (d / 10 ^ p) := by
  have hb := canonical_of_classify hx hpos
  obtain ⟨hcovers, hdigits, -⟩ := hb.shortest_covers .up
  obtain ⟨hleast, hmost⟩ := hb.roundedTo.digits_bounds
  obtain ⟨d, j, hd, hdigit⟩ := exists_trimmed (by omega : 0 < b.rounded.digits)
  obtain ⟨hinside, houtside⟩ := columnText_toList hx hpos (e := b.rounded.exponent)
    (by rw [← hd]) hdigit
  rw [h, plain_toList hx, Scaled.plainChars_eq hdigits] at hinside houtside
  generalize b.rounded.exponent + j = e at hinside houtside
  have hplain := (b.shortest .up).numeral_plain
  by_cases hin : -3 ≤ ((digitChars d).length + e : ℤ) ∧ ((digitChars d).length + e : ℤ) ≤ 15
  · have hsame : (b.shortest .up).numeral = (Scaled.mk d e).numeral.pointed :=
      hplain.eq_of_chars (Scaled.numeral_plain _).pointed (List.append_cancel_left (hinside hin))
    obtain ⟨hpart, hvalue⟩ := Scaled.value_eq_of_pointed (hb.shortest_digits .up) hsame
    obtain ⟨p, hp⟩ := Int.eq_ofNat_of_zero_le (show 0 ≤ -e by simp only at hpart; omega)
    obtain rfl : e = -p := by omega
    have hd_le : d ≤ b.rounded.digits := hd ▸ Nat.le_mul_of_pos_right d (by positivity)
    have hrange : 10 ^ p ≤ 10 ^ 4 * d := (pow_le_iff_places (by omega)).mpr (by omega)
    simp only at hpart hvalue
    refine ⟨d, p, ⟨by omega, hdigit, by omega, hrange⟩, ?_⟩
    rw [natCast_div_pow, hvalue]
    exact hcovers
  · rcases List.mem_append.mp (houtside hin) with hsign | hnumeral
    · cases negative <;> simp [minus] at hsign
    · exact absurd hnumeral hplain.no_mark

variable {d p : ℕ} (h : ShortDecimal d p) (hcovers : b.Covers (d / 10 ^ p))

include h hcovers

/-- What reads as a short decimal has all bits of a mantissa. -/
theorem ShortDecimal.full_of_covers : 2 ^ 52 ≤ b.mantissa := by
  obtain ⟨hmantissa, hfull, -⟩ := classify_form hx
  refine hfull.resolve_right fun hexponent => ?_
  have hm : (b.mantissa : ℚ) + 1 / 2 ≤ 2 ^ 53 := by
    have : (b.mantissa : ℚ) + 1 ≤ 2 ^ 53 := by exact_mod_cast hmantissa
    linarith
  have hlow : (1 : ℚ) / 10 ^ 4 ≤ d / 10 ^ p := by
    rw [div_le_div_iff₀ (by positivity) (by positivity), one_mul, mul_comm]
    exact_mod_cast h.range
  have hhigh : b.high ≤ 2 ^ 53 * 2 ^ (-1074 : ℤ) := by
    rw [Binary.high, hexponent]
    exact mul_le_mul_of_nonneg_right hm (two_zpow_pos _).le
  have hsmall : (2 : ℚ) ^ 53 * 2 ^ (-1074 : ℤ) < 1 / 10 ^ 4 := by
    calc (2 : ℚ) ^ 53 * 2 ^ (-1074 : ℤ) ≤ 2 ^ 53 * 2 ^ (-100 : ℤ) := by gcongr <;> norm_num
      _ < 1 / 10 ^ 4 := by norm_num
  linarith [hcovers.high]

theorem ShortDecimal.columnText_eq_plain : columnText x = plain x := by
  have hfull := h.full_of_covers hx hcovers
  have hpos : 0 < b.mantissa := by omega
  have hb := canonical_of_classify hx hpos
  obtain ⟨hplaces, hdigit, hfew, hrange⟩ := h
  rw [natCast_div_pow] at hcovers
  obtain ⟨j, hplace, hrounded⟩ := hb.roundedTo.eq_of_covers hfull hcovers hfew
  have hlength : (digitChars d).length ≤ 15 :=
    (Nat.length_toDigits_le_iff (by norm_num) (by norm_num)).mpr hfew
  have hzeros : p ≤ (digitChars d).length + 3 := (pow_le_iff_places (by omega)).mp hrange
  have hcolumn := (columnText_toList hx hpos (e := b.rounded.exponent) (by rw [← hrounded])
    hdigit).1 (by omega)
  have hfraction : (Scaled.mk d (-p)).numeral.fraction ≠ [] := by
    refine List.length_pos_iff.mp ?_
    rw [Scaled.fraction_length]
    simpa using hplaces
  rw [← hplace, Numeral.pointed_eq_self hfraction, ← Scaled.plainChars_eq (by simp only; omega),
    ← hb.shortest_eq .up hfull hcovers hfew hdigit, ← plain_toList hx] at hcolumn
  exact String.toList_inj.mp hcolumn

end Layout

/-- The double nearest to a short decimal, of either sign. -/
def ShortFraction (x : Float) : Prop :=
  ∃ negative b d p, classify x = .finite negative b ∧ ShortDecimal d p ∧ b.Covers (d / 10 ^ p)

theorem ShortFraction.not_isNaN {x : Float} (h : ShortFraction x) : x.isNaN = false := by
  obtain ⟨negative, b, d, p, hx, -⟩ := h
  refine Bool.eq_false_iff.mpr fun hnan => ?_
  rw [classify_of_isNaN hnan] at hx
  cases hx

/-- The text for a column is the plain decimal for these fractions alone: not for a whole number,
which gets a point, and not where the two have different digits or an exponent takes over. -/
theorem columnText_eq_plain_iff (x : Float) : columnText x = plain x ↔ ShortFraction x := by
  constructor
  · intro h
    cases hx : classify x with
    | nan =>
        unfold columnText plain at h
        rw [hx] at h
        exact absurd h (by decide +kernel)
    | infinite negative =>
        unfold columnText plain at h
        rw [hx] at h
        cases negative <;> exact absurd h (by decide +kernel)
    | finite negative b =>
        rcases Nat.eq_zero_or_pos b.mantissa with hzero | hpos
        · have hplain := plain_toList hx
          have hcolumn : columnText x = "0.0" := by
            unfold columnText
            rw [hx]
            exact if_pos hzero
          have hshortest : b.shortest .up = ⟨0, 0⟩ := if_pos hzero
          rw [← h, hcolumn, hshortest] at hplain
          cases negative <;> exact absurd hplain (by decide +kernel)
        · obtain ⟨d, p, hshort, hcovers⟩ := exists_of_columnText_eq_plain hx hpos h
          exact ⟨negative, b, d, p, hx, hshort, hcovers⟩
  · rintro ⟨negative, b, d, p, hx, hshort, hcovers⟩
    exact hshort.columnText_eq_plain hx hcovers

end Slipbox.Decimal
