import Slipbox.Decimal.Layout
import Slipbox.Proofs.Decimal.Shortest

/-! Plain decimals as text. The digits of a double without an exponent mark are a numeral, and
reading that numeral gives back the double. -/

namespace Slipbox.Decimal

/-- The numeral as text, without a point when nothing stands behind it. -/
def Numeral.chars (n : Numeral) : List Char :=
  match n.fraction with
  | [] => n.whole
  | ds => n.whole ++ '.' :: ds

/-- Digits only, at least one of them before the point. -/
structure Numeral.Plain (n : Numeral) : Prop where
  nonempty : n.whole ≠ []
  digits : ∀ c ∈ n.whole ++ n.fraction, c.isDigit = true
  exponent : n.exponent = 0

theorem Numeral.Plain.chars_eq_cons {n : Numeral} (hn : n.Plain) :
    ∃ c cs, n.chars = c :: cs ∧ c.isDigit = true := by
  obtain ⟨whole, fraction, exponent⟩ := n
  cases whole with
  | nil => exact absurd rfl hn.nonempty
  | cons c cs =>
      have hc : c.isDigit = true := hn.digits c List.mem_cons_self
      cases fraction with
      | nil => exact ⟨c, cs, rfl, hc⟩
      | cons d ds => exact ⟨c, cs ++ '.' :: d :: ds, rfl, hc⟩

/-- A plain numeral has a point exactly in front of a fraction. -/
theorem Numeral.Plain.isEmpty_fraction_iff {n : Numeral} (hn : n.Plain) :
    n.fraction.isEmpty = true ↔ '.' ∉ n.chars := by
  obtain ⟨whole, fraction, exponent⟩ := n
  cases fraction with
  | nil =>
      refine iff_of_true rfl fun hpoint => ?_
      exact absurd (hn.digits '.' (List.mem_append_left _ hpoint)) (by decide)
  | cons d ds => simp [chars]

/-- A plain numeral is read as a whole. -/
theorem Numeral.Plain.readNumeral_chars {n : Numeral} (hn : n.Plain) :
    readNumeral n.chars = some (n, []) := by
  obtain ⟨whole, fraction, exponent⟩ := n
  obtain ⟨hne, hdigits, rfl⟩ := hn
  rw [List.forall_mem_append] at hdigits
  obtain ⟨hwhole, hfraction⟩ := hdigits
  have hsome : whole.isEmpty = false := by simpa using hne
  cases fraction with
  | nil =>
      have htake : whole.takeWhile Char.isDigit = whole := List.takeWhile_eq_self_iff.mpr hwhole
      have hdrop : whole.dropWhile Char.isDigit = [] := List.dropWhile_eq_nil_iff.mpr hwhole
      simp only [chars, readNumeral, htake, hdrop, hsome]
      rfl
  | cons d ds =>
      have htake : (whole ++ '.' :: d :: ds).takeWhile Char.isDigit = whole := by
        rw [List.takeWhile_append_of_pos hwhole]
        exact List.append_nil whole
      have hdrop : (whole ++ '.' :: d :: ds).dropWhile Char.isDigit = '.' :: d :: ds :=
        List.dropWhile_append_of_pos hwhole
      simp only [chars, readNumeral, htake, hdrop, hsome, List.takeWhile_eq_self_iff.mpr hfraction,
        List.dropWhile_eq_nil_iff.mpr hfraction]
      rfl

theorem Numeral.Plain.eq_of_chars {n n' : Numeral} (hn : n.Plain) (hn' : n'.Plain)
    (h : n.chars = n'.chars) : n = n' := by
  have hread := hn'.readNumeral_chars
  rw [← h, hn.readNumeral_chars] at hread
  exact (Prod.mk.inj (Option.some.inj hread)).1

theorem digitsValue_append (ds ds' : List Char) :
    digitsValue (ds ++ ds') = Nat.ofDigitChars 10 ds' (digitsValue ds) :=
  Nat.ofDigitChars_append 0

theorem digitsValue_digitChars (n : Nat) : digitsValue (digitChars n) = n :=
  Nat.ofDigitChars_ten_toDigits

theorem digitsValue_zeros_append (n : Nat) (ds : List Char) :
    digitsValue (zeros n ++ ds) = digitsValue ds := by
  have hzeros : digitsValue (zeros n) = 0 := Nat.ofDigitChars_replicate_zero
  rw [digitsValue_append, hzeros]
  rfl

theorem isDigit_of_mem_digitChars {n : Nat} {c : Char} (h : c ∈ digitChars n) :
    c.isDigit = true :=
  Nat.isDigit_of_mem_toDigits (by norm_num) (by norm_num) h

theorem isDigit_of_mem_zeros {n : Nat} {c : Char} (h : c ∈ zeros n) : c.isDigit = true := by
  rw [List.eq_of_mem_replicate h]
  rfl

/-- The numeral of a decimal without an exponent mark. -/
def Scaled.numeral (s : Scaled) : Numeral :=
  let ds := digitChars s.digits
  let places := (-s.exponent).toNat
  if 0 ≤ s.exponent then ⟨ds ++ zeros s.exponent.toNat, [], 0⟩
  else if places < ds.length then ⟨ds.take (ds.length - places), ds.drop (ds.length - places), 0⟩
  else ⟨['0'], zeros (places - ds.length) ++ ds, 0⟩

theorem Scaled.fraction_length (s : Scaled) :
    s.numeral.fraction.length = (-s.exponent).toNat := by
  unfold numeral
  dsimp only
  split
  · simp only [List.length_nil]
    omega
  · split
    · rw [List.length_drop]
      omega
    · rw [List.length_append, zeros, List.length_replicate]
      omega

theorem Numeral.chars_eq {n : Numeral} (h : n.fraction ≠ []) :
    n.chars = n.whole ++ '.' :: n.fraction := by
  unfold chars
  split
  · next hnone => exact absurd hnone h
  · rfl

theorem Scaled.plainChars_eq {s : Scaled} (hpos : 0 < s.digits) :
    s.plainChars = s.numeral.chars := by
  by_cases hwhole : 0 ≤ s.exponent
  · simp only [plainChars, numeral, if_pos hwhole, if_neg hpos.ne']
    rfl
  · have hne : s.numeral.fraction ≠ [] := by
      intro hnone
      have hlength := s.fraction_length
      rw [hnone, List.length_nil] at hlength
      omega
    rw [Numeral.chars_eq hne]
    simp only [plainChars, numeral, if_neg hwhole]
    split <;> rfl

theorem Scaled.numeral_plain (s : Scaled) : s.numeral.Plain := by
  have hne : digitChars s.digits ≠ [] := Nat.toDigits_ne_nil
  unfold numeral
  dsimp only
  split
  · refine ⟨List.append_ne_nil_of_left_ne_nil hne _, fun c hc => ?_, rfl⟩
    rw [List.append_nil, List.mem_append] at hc
    exact hc.elim isDigit_of_mem_digitChars isDigit_of_mem_zeros
  · split
    · next hinside =>
      refine ⟨fun hnone => ?_, fun c hc => ?_, rfl⟩
      · have hlength := congrArg List.length hnone
        rw [List.length_take, List.length_nil] at hlength
        omega
      · rw [List.take_append_drop] at hc
        exact isDigit_of_mem_digitChars hc
    · refine ⟨List.cons_ne_nil _ _, fun c hc => ?_, rfl⟩
      rcases List.mem_append.mp hc with hc | hc
      · exact isDigit_of_mem_zeros (n := 1) hc
      · exact (List.mem_append.mp hc).elim isDigit_of_mem_zeros isDigit_of_mem_digitChars

/-- The digits of the numeral in the place where its point is. -/
theorem Scaled.numeral_value (s : Scaled) :
    (digitsValue (s.numeral.whole ++ s.numeral.fraction) / 10 ^ s.numeral.fraction.length : ℚ) =
      s.digits * 10 ^ s.exponent := by
  rw [s.fraction_length]
  by_cases hwhole : 0 ≤ s.exponent
  · obtain ⟨n, hn⟩ := Int.eq_ofNat_of_zero_le hwhole
    have hdigits : digitsValue (s.numeral.whole ++ s.numeral.fraction) = 10 ^ n * s.digits := by
      simp only [numeral, if_pos hwhole, List.append_nil]
      rw [digitsValue_append, digitsValue_digitChars, hn]
      exact Nat.ofDigitChars_replicate_zero
    have hnone : (-s.exponent).toNat = 0 := by omega
    rw [hdigits, hnone, hn, zpow_natCast]
    push_cast
    ring
  · obtain ⟨n, hn⟩ := Int.eq_ofNat_of_zero_le (show 0 ≤ -s.exponent by omega)
    have hdigits : digitsValue (s.numeral.whole ++ s.numeral.fraction) = s.digits := by
      unfold numeral
      dsimp only
      rw [if_neg hwhole]
      split
      · rw [List.take_append_drop]
        exact digitsValue_digitChars _
      · have hzero : digitsValue (zeros 1 ++ (zeros ((-s.exponent).toNat -
            (digitChars s.digits).length) ++ digitChars s.digits)) = s.digits := by
          rw [digitsValue_zeros_append, digitsValue_zeros_append, digitsValue_digitChars]
        exact hzero
    have hexponent : s.exponent = -n := by omega
    rw [hdigits, hn, Int.toNat_natCast, hexponent, zpow_neg, zpow_natCast]
    rfl

/-- The sign of a double in front of its digits. -/
def minus (negative : Bool) : List Char :=
  if negative then ['-'] else []

theorem plain_toList {x : Float} {negative : Bool} {b : Binary}
    (hx : classify x = .finite negative b) :
    (plain x).toList = minus negative ++ (b.shortest .up).plainChars := by
  unfold plain
  rw [hx]
  cases negative <;> exact String.toList_ofList

/-- The plain digits of a finite double without a sign are a numeral that reads as the double. -/
theorem plain_numeral {x : Float} {b : Binary} (hx : classify x = .finite false b) :
    ∃ n : Numeral, n.Plain ∧ (plain x).toList = n.chars ∧ n.value = x := by
  have hplain : (plain x).toList = (b.shortest .up).plainChars := plain_toList hx
  rw [hplain]
  rcases Nat.eq_zero_or_pos b.mantissa with hzero | hpos
  · have hshortest : b.shortest .up = ⟨0, 0⟩ := if_pos hzero
    refine ⟨⟨['0'], [], 0⟩, ⟨List.cons_ne_nil _ _, by simp, rfl⟩, by rw [hshortest]; rfl, ?_⟩
    refine float_ext (Eq.trans ?_ (classify_zero hx hzero).symm)
    decide +kernel
  · obtain ⟨hb, rfl⟩ := classify_finite hx hpos
    obtain ⟨hcovers, hdigits, hexponent⟩ := hb.shortest_covers .up
    have hnumeral := (b.shortest .up).numeral_plain
    have hlength : (b.shortest .up).numeral.fraction.length ≤ 2048 := by
      rw [Scaled.fraction_length]
      omega
    rw [← Scaled.numeral_value] at hcovers
    exact ⟨_, hnumeral, Scaled.plainChars_eq hdigits,
      Numeral.value_of_covers hb.toNormalized hnumeral.exponent hlength hcovers⟩

end Slipbox.Decimal
