import Slipbox.Proofs.Decimal.Plain
import Slipbox.Proofs.Text.Bytes
import Slipbox.Proofs.Time.Reading

/-! Times as they are written. Within the years of four digits every moment has a text of one
length, its larger units in front, so the texts compare as the moments do; and such a text is read
as the moment again. The text of a moment outside these years is none of the forms and is kept. -/

namespace Slipbox.Time

open Text (isBlank)

/-! Numbers of one width. -/

theorem digitsValue_cons (d : Char) (ds : List Char) : Decimal.digitsValue (d :: ds) =
    10 ^ ds.length * (d.toNat - '0'.toNat) + Decimal.digitsValue ds := by
  have hfold : Decimal.digitsValue (d :: ds) = Nat.ofDigitChars 10 ds (d.toNat - '0'.toNat) := by
    rw [← List.singleton_append, Decimal.digitsValue_append]
    simp [Decimal.digitsValue]
  rw [hfold, Nat.ofDigitChars_eq_ofDigitChars_zero]
  rfl

theorem Digits.value_lt {n : Nat} {ds : List Char} (h : Digits n ds) : n < 10 ^ ds.length := by
  obtain ⟨hdigit, rfl⟩ := h
  induction ds with
  | nil => simp [Decimal.digitsValue]
  | cons d ds ih =>
      rw [List.forall_mem_cons] at hdigit
      have hrest := ih hdigit.2
      have hd : d.toNat - '0'.toNat < 10 := by
        have hbound : d.toNat ≤ 57 := (Char.isDigit_iff_toNat.mp hdigit.1).2
        simp only [Char.reduceToNat]
        omega
      calc Decimal.digitsValue (d :: ds)
          = 10 ^ ds.length * (d.toNat - '0'.toNat) + Decimal.digitsValue ds := digitsValue_cons d ds
        _ < 10 ^ ds.length * (d.toNat - '0'.toNat) + 10 ^ ds.length := by omega
        _ = 10 ^ ds.length * (d.toNat - '0'.toNat + 1) := rfl
        _ ≤ 10 ^ ds.length * 10 := Nat.mul_le_mul_left _ hd
        _ = 10 ^ (d :: ds).length := rfl

/-- Numbers of one width compare as their digits do. -/
theorem Digits.lt_of_lt {m n : Nat} {ds es : List Char} (hds : Digits m ds) (hes : Digits n es)
    (hlength : ds.length = es.length) (hlt : m < n) : ds < es := by
  obtain ⟨hdigit, rfl⟩ := hds
  obtain ⟨hdigit', rfl⟩ := hes
  induction ds generalizing es with
  | nil =>
      rw [List.eq_nil_of_length_eq_zero hlength.symm] at hlt
      exact absurd hlt (Nat.lt_irrefl _)
  | cons d ds ih =>
      cases es with
      | nil => cases hlength
      | cons e es =>
          rw [List.forall_mem_cons] at hdigit hdigit'
          have hrests : ds.length = es.length := Nat.succ.inj hlength
          rw [digitsValue_cons, digitsValue_cons, hrests] at hlt
          rw [List.cons_lt_cons_iff]
          rcases lt_trichotomy d e with hde | rfl | hed
          · exact .inl hde
          · exact .inr ⟨rfl, ih hrests hdigit.2 hdigit'.2 (by omega)⟩
          · -- A larger first digit cannot be made up for by the digits behind it.
            have hrest := Digits.value_lt ⟨hdigit'.2, rfl⟩
            have hstep : e.toNat - '0'.toNat + 1 ≤ d.toNat - '0'.toNat := by
              have hbound : 48 ≤ e.toNat := (Char.isDigit_iff_toNat.mp hdigit'.1).1
              have hchars : e.toNat < d.toNat := hed
              simp only [Char.reduceToNat]
              omega
            have hmul := Nat.mul_le_mul_left (10 ^ es.length) hstep
            rw [Nat.mul_add] at hmul
            omega

theorem isDigit_of_mem_padded {width n : Nat} {c : Char} (hc : c ∈ padded width n) :
    c.isDigit = true := by
  rcases List.mem_append.mp hc with hc | hc
  · exact Decimal.isDigit_of_mem_zeros hc
  · exact Decimal.isDigit_of_mem_digitChars hc

theorem number_padded {width n : Nat} (hwidth : 0 < width) (hn : n < 10 ^ width) :
    Number width n (padded width n) := by
  have hlength : (Nat.toDigits 10 n).length ≤ width :=
    (Nat.length_toDigits_le_iff (by simp) hwidth).mpr hn
  have hvalue : Decimal.digitsValue (padded width n) = n :=
    (Decimal.digitsValue_zeros_append _ _).trans (Decimal.digitsValue_digitChars n)
  refine ⟨⟨fun c => isDigit_of_mem_padded, hvalue⟩, ?_⟩
  rw [padded, List.length_append, List.length_replicate]
  omega

/-- Of two texts with parts of one length in front these parts decide first. -/
theorem append_lt_append_of_lt {l l' : List Char} (hlength : l.length = l'.length) (h : l < l')
    (r r' : List Char) : l ++ r < l' ++ r' := by
  induction l generalizing l' with
  | nil =>
      rw [List.eq_nil_of_length_eq_zero hlength.symm] at h
      exact absurd h (List.lt_irrefl _)
  | cons c l ih =>
      cases l' with
      | nil => cases hlength
      | cons d l' =>
          rw [List.cons_append, List.cons_append, List.cons_lt_cons_iff]
          rw [List.cons_lt_cons_iff] at h
          exact h.imp_right fun ⟨hcd, h⟩ => ⟨hcd, ih (Nat.succ.inj hlength) h⟩

theorem padded_cons_lt {width m n : Nat} (hwidth : 0 < width) (hm : m < 10 ^ width)
    (hn : n < 10 ^ width) {r r' : List Char} (h : m < n ∨ m = n ∧ r < r') (c : Char) :
    padded width m ++ c :: r < padded width n ++ c :: r' := by
  rcases h with hlt | ⟨rfl, hr⟩
  · have hpadded := number_padded hwidth hm
    have hpadded' := number_padded hwidth hn
    have hlength := hpadded.length_eq.trans hpadded'.length_eq.symm
    exact append_lt_append_of_lt hlength (hpadded.lt_of_lt hpadded'.toDigits hlength hlt) _ _
  · exact List.append_left_lt (List.cons_lt_cons_iff.mpr (.inr ⟨rfl, hr⟩))

/-! Moments. -/

theorem daysInMonth_le (year : Int) (month : Nat) : daysInMonth year month ≤ 31 := by
  unfold daysInMonth
  repeat' split
  all_goals omega

namespace Moment

/-- The moment is there, in a year of four digits. -/
structure FourDigit (m : Moment) : Prop where
  proper : m.Proper
  year_nonneg : 0 ≤ m.date.year
  year_lt : m.date.year < 10000

variable {m n : Moment}

theorem FourDigit.toList_text (h : m.FourDigit) : m.text.toList =
    padded 4 m.date.year.toNat ++ '-' :: (padded 2 m.date.month ++ '-' :: (padded 2 m.date.day ++
      'T' :: (padded 2 m.clock.hour ++ ':' :: (padded 2 m.clock.minute ++
        ':' :: (padded 2 m.clock.second ++ ['Z']))))) := by
  have hyear : yearText m.date.year = padded 4 m.date.year.toNat :=
    if_pos ⟨h.year_nonneg, Int.lt_add_one_iff.mp h.year_lt⟩
  simp [text, hyear]

/-- The numbers of a moment fit into their widths. -/
theorem Proper.widths (h : m.Proper) : m.date.month < 10 ^ 2 ∧ m.date.day < 10 ^ 2 ∧
    m.clock.hour < 10 ^ 2 ∧ m.clock.minute < 10 ^ 2 ∧ m.clock.second < 10 ^ 2 := by
  obtain ⟨⟨-, hmonth, -, hday⟩, hhour, hminute, hsecond⟩ := h
  have hlast := daysInMonth_le m.date.year m.date.month
  omega

theorem FourDigit.year_width (h : m.FourDigit) : m.date.year.toNat < 10 ^ 4 := by
  have hyear := h.year_lt
  omega

/-- Moments compare as their numbers do, from the year to the second. -/
theorem FourDigit.numbers_lt (hm : m.FourDigit) (hn : n.FourDigit) (hlt : m < n) :
    m.date.year.toNat < n.date.year.toNat ∨ m.date.year.toNat = n.date.year.toNat ∧
      (m.date.month < n.date.month ∨ m.date.month = n.date.month ∧
        (m.date.day < n.date.day ∨ m.date.day = n.date.day ∧
          (m.clock.hour < n.clock.hour ∨ m.clock.hour = n.clock.hour ∧
            (m.clock.minute < n.clock.minute ∨ m.clock.minute = n.clock.minute ∧
              m.clock.second < n.clock.second)))) := by
  have hm' := hm.year_nonneg
  have hn' := hn.year_nonneg
  rcases lt_iff.mp hlt with hdate | ⟨hdate, hclock⟩
  · rw [Date.lt_iff] at hdate
    omega
  · rw [hdate]
    exact .inr ⟨rfl, .inr ⟨rfl, .inr ⟨rfl, Clock.lt_iff.mp hclock⟩⟩⟩

/-- The texts of moments come one after another as the moments do. -/
theorem text_strictMono : StrictMonoOn text {m | m.FourDigit} := by
  intro m hm n hn hlt
  obtain ⟨hmonth, hday, hhour, hminute, hsecond⟩ := hm.proper.widths
  obtain ⟨hmonth', hday', hhour', hminute', hsecond'⟩ := hn.proper.widths
  rw [String.lt_iff_toList_lt, hm.toList_text, hn.toList_text]
  -- A number decides unless both moments have the same; then the next smaller unit does.
  refine padded_cons_lt (by simp) hm.year_width hn.year_width
    ((hm.numbers_lt hn hlt).imp_right (.imp_right fun h => ?_)) '-'
  refine padded_cons_lt (by simp) hmonth hmonth' (h.imp_right (.imp_right fun h => ?_)) '-'
  refine padded_cons_lt (by simp) hday hday' (h.imp_right (.imp_right fun h => ?_)) 'T'
  refine padded_cons_lt (by simp) hhour hhour' (h.imp_right (.imp_right fun h => ?_)) ':'
  refine padded_cons_lt (by simp) hminute hminute' (h.imp_right (.imp_right fun h => ?_)) ':'
  exact padded_cons_lt (by simp) hsecond hsecond' (.inl h) 'Z'

end Moment

/-! Texts brought to the one form. -/

theorem Zone.ahead_mem {ahead : Int} {part : List Char} (h : Zone ahead part) :
    -1440 < ahead ∧ ahead < 1440 := by
  cases h with
  | utc => simp
  | shifted hsign hhours hminutes hday hhour => cases hsign <;> omega

theorem Spells.ahead_mem {form : Form} {text : List Char} {r : Reading} (h : Spells form text r) :
    -1440 < r.ahead ∧ r.ahead < 1440 := by
  cases h with
  | offset hdate ht hclock hfraction hzone => exact hzone.ahead_mem
  | letter => simp
  | space => simp
  | day => simp

/-- A reading that a text states is brought to UTC at its instant. -/
theorem States.utc {text : List Char} {r : Reading} (h : States text r) :
    r.utc.Proper ∧ r.utc.instant = r.instant := by
  obtain ⟨form, hspelled⟩ := h.spelled
  obtain ⟨hlow, hhigh⟩ := hspelled.ahead_mem
  exact h.valid.proper.toUtc hlow hhigh

theorem normalize_of_states {text : String} {r : Reading}
    (h : States (Text.trim text.toList) r) : normalize text = r.utc.text := by
  simp only [normalize, ofText?_eq_some.mpr ⟨r, h, rfl⟩]

theorem normalize_of_not_states {text : String}
    (h : ∀ r, ¬ States (Text.trim text.toList) r) :
    normalize text = String.ofList (Text.trim text.toList) := by
  have hnone : ofText? (Text.trim text.toList) = none := by
    rw [Option.eq_none_iff_forall_ne_some]
    intro m hm
    obtain ⟨r, hr, -⟩ := ofText?_eq_some.mp hm
    exact h r hr
  simp only [normalize, hnone]

/-- An instant in a year of four digits has such a moment in UTC. -/
theorem States.fourDigit {text : List Char} {r : Reading} (h : States text r)
    (hyears : r.instant ∈ Set.Ico (yearStart 0) (yearStart 10000)) : r.utc.FourDigit := by
  obtain ⟨hproper, hinstant⟩ := h.utc
  rw [← hinstant, Set.mem_Ico, ← not_lt, hproper.instant_lt_yearStart,
    hproper.instant_lt_yearStart] at hyears
  exact ⟨hproper, not_lt.mp hyears.1, hyears.2⟩

variable {s t : String} {a b : Reading}

/-- The texts of stated times compare as the times do, byte by byte, and times at one instant have
one text. -/
theorem normalize_compares (ha : States (Text.trim s.toList) a) (hb : States (Text.trim t.toList) b)
    (ha' : a.instant ∈ Set.Ico (yearStart 0) (yearStart 10000))
    (hb' : b.instant ∈ Set.Ico (yearStart 0) (yearStart 10000)) :
    (Text.bytes (normalize s) < Text.bytes (normalize t) ↔ a.instant < b.instant) ∧
      (normalize s = normalize t ↔ a.instant = b.instant) := by
  have hutc := ha.fourDigit ha'
  have hutc' := hb.fourDigit hb'
  rw [Text.bytes_lt_iff, normalize_of_states ha, normalize_of_states hb, ← ha.utc.2, ← hb.utc.2,
    Moment.text_strictMono.lt_iff_lt hutc hutc', Moment.text_strictMono.injOn.eq_iff hutc hutc',
    Moment.instant_strictMono.lt_iff_lt hutc.proper hutc'.proper,
    Moment.instant_strictMono.injOn.eq_iff hutc.proper hutc'.proper]
  exact ⟨Iff.rfl, Iff.rfl⟩

/-- A leap second, as clocks behind UTC show it in the evening before, against the start of its
minute. -/
theorem normalize_compares_leap_second :
    Text.bytes (normalize " 2024-3-1T0:30 ") <
      Text.bytes (normalize "2024-02-29T23:00:60.25-01:30") := by
  have hfield {most n : Nat} (ds : List Char)
      (h : Digits n ds ∧ 1 ≤ ds.length ∧ ds.length ≤ most) : Field 1 most n ds :=
    .mk (List.forall_mem_nil _) h.1 h.2.1 h.2.2
  have hminute : States (Text.trim " 2024-3-1T0:30 ".toList) ⟨⟨⟨2024, 3, 1⟩, ⟨0, 30, 0⟩⟩, 0⟩ := by
    have hyear : Year (2024 : Nat) "2024".toList := .bare (hfield _ (by decide))
    have hdate : DateText 1 ⟨2024, 3, 1⟩ "2024-3-1".toList :=
      .mk hyear (hfield ['3'] (by decide)) (hfield ['1'] (by decide))
    have hclock : ClockText false ⟨0, 30, 0⟩ "0:30".toList :=
      .short (hfield ['0'] (by decide)) (hfield ['3', '0'] (by decide))
    exact ⟨⟨_, .letter hdate hclock⟩, by decide⟩
  have hleap : States (Text.trim "2024-02-29T23:00:60.25-01:30".toList)
      ⟨⟨⟨2024, 2, 29⟩, ⟨23, 0, 60⟩⟩, -90⟩ := by
    have hdate : FullDate ⟨2024, 2, 29⟩ "2024-02-29".toList :=
      .mk (show Number 4 2024 ['2', '0', '2', '4'] by decide) (show Number 2 2 ['0', '2'] by decide)
        (show Number 2 29 ['2', '9'] by decide)
    have hclock : FullClock ⟨23, 0, 60⟩ "23:00:60".toList :=
      .mk (show Number 2 23 ['2', '3'] by decide) (show Number 2 0 ['0', '0'] by decide)
        (show Number 2 60 ['6', '0'] by decide)
    have hfraction : Fraction ".25".toList := .point (show Digits 25 ['2', '5'] by decide) (by simp)
    have hzone : Zone (-90) "-01:30".toList :=
      .shifted .hyphen (show Number 2 1 ['0', '1'] by decide)
        (show Number 2 30 ['3', '0'] by decide) (by simp) (by simp)
    exact ⟨⟨_, .offset hdate (.inl rfl) hclock hfraction hzone⟩, by decide⟩
  exact (normalize_compares hminute hleap (by decide) (by decide)).1.mpr (by decide)

/-! Texts in the one form. -/

/-- A text with an offset begins with the year. -/
theorem Spells.head {text : List Char} {r : Reading} (h : Spells .offset text r) :
    ∃ c ∈ text.head?, c.isDigit = true := by
  cases h with
  | offset hdate =>
      obtain @⟨y, m, d, year, month, day, hyear, hmonth, hday⟩ := hdate
      cases year with
      | nil => cases hyear.length_eq
      | cons c year => exact ⟨c, rfl, hyear.digit c List.mem_cons_self⟩

namespace Moment

variable {m : Moment}

theorem text_no_blank : ∀ c ∈ m.text.toList, isBlank c = false := by
  have hnumber (width n : Nat) : ∀ c ∈ padded width n, isBlank c = false :=
    fun c hc => isBlank_of_isDigit (isDigit_of_mem_padded hc)
  have hyear : ∀ c ∈ yearText m.date.year, isBlank c = false := by
    unfold yearText
    split
    · exact hnumber _ _
    · rw [List.forall_mem_cons]
      exact ⟨by split <;> decide, hnumber _ _⟩
  simp only [text, String.toList_ofList, List.forall_mem_append, List.forall_mem_cons]
  exact ⟨⟨⟨⟨⟨⟨hyear, rfl, hnumber 2 _⟩, rfl, hnumber 2 _⟩, rfl, hnumber 2 _⟩, rfl, hnumber 2 _⟩,
    rfl, hnumber 2 _⟩, rfl, by simp⟩

theorem getLast?_text (m : Moment) : m.text.toList.getLast? = some 'Z' := by
  rw [text, String.toList_ofList]
  exact List.getLast?_concat

/-- The text of a year of four digits is a date and time with an offset of zero. -/
theorem FourDigit.states_text (h : m.FourDigit) : States m.text.toList ⟨m, 0⟩ := by
  obtain ⟨hmonth, hday, hhour, hminute, hsecond⟩ := h.proper.widths
  have hyear : (m.date.year.toNat : Int) = m.date.year := Int.toNat_of_nonneg h.year_nonneg
  have hdate : FullDate m.date (padded 4 m.date.year.toNat ++ '-' :: padded 2 m.date.month ++
      '-' :: padded 2 m.date.day) := by
    have hfull := FullDate.mk (number_padded (by simp) h.year_width)
      (number_padded (by simp) hmonth) (number_padded (by simp) hday)
    rwa [hyear] at hfull
  have hclock : FullClock m.clock (padded 2 m.clock.hour ++ ':' :: padded 2 m.clock.minute ++
      ':' :: padded 2 m.clock.second) :=
    .mk (number_padded (by simp) hhour) (number_padded (by simp) hminute)
      (number_padded (by simp) hsecond)
  have hspelled := Spells.offset hdate (.inl rfl) hclock .absent (.utc (.inl rfl))
  refine ⟨⟨.offset, ?_⟩, h.proper, ?_, ?_⟩
  · rw [h.toList_text]
    simpa using hspelled
  · exact le_trans (by decide) h.year_nonneg
  · exact h.year_lt.le.trans (by decide)

/-- The text of any other year is in none of the forms: the offset at its end is not a number, and
what has an offset begins with a digit and not with a sign. -/
theorem not_states_text (h : ¬ (0 ≤ m.date.year ∧ m.date.year ≤ 9999)) {r : Reading} :
    ¬ States m.text.toList r := by
  rintro ⟨⟨form, hspelled⟩, -⟩
  by_cases hform : form = .offset
  · subst hform
    obtain ⟨c, hc, hdigit⟩ := hspelled.head
    rw [text, yearText, if_neg h, String.toList_ofList] at hc
    cases hc
    split at hdigit <;> simp at hdigit
  · obtain ⟨c, hc, hdigit⟩ := hspelled.endsInDigit hform
    rw [getLast?_text] at hc
    cases hc
    simp at hdigit

end Moment

/-- The text of a moment is kept. -/
theorem Moment.Proper.normalize_text {m : Moment} (h : m.Proper) : normalize m.text = m.text := by
  have htrim : Text.trim m.text.toList = m.text.toList :=
    Text.trim_of_no_blank Moment.text_no_blank
  by_cases hyear : 0 ≤ m.date.year ∧ m.date.year ≤ 9999
  · have hfour : m.FourDigit := ⟨h, hyear.1, Int.lt_add_one_iff.mpr hyear.2⟩
    have hstates : States (Text.trim m.text.toList) ⟨m, 0⟩ := by
      rw [htrim]
      exact hfour.states_text
    rw [normalize_of_states hstates, Reading.utc, h.toUtc_zero]
  · have hnone (r : Reading) : ¬ States (Text.trim m.text.toList) r := by
      rw [htrim]
      exact Moment.not_states_text hyear
    rw [normalize_of_not_states hnone, htrim, String.ofList_toList]

/-- What is brought to the one form, or kept, stays as it is. -/
theorem normalize_idempotent (text : String) : normalize (normalize text) = normalize text := by
  by_cases h : ∃ r, States (Text.trim text.toList) r
  · obtain ⟨r, hr⟩ := h
    rw [normalize_of_states hr]
    exact hr.utc.1.normalize_text
  · have hnone := not_exists.mp h
    rw [normalize_of_not_states hnone, normalize_of_not_states, String.toList_ofList,
      Text.trim_trim]
    rwa [String.toList_ofList, Text.trim_trim]

end Slipbox.Time
