import Slipbox.Proofs.Text.Trimming
import Slipbox.Proofs.Time.Calendar

/-! The forms in which texts state times, as a grammar: which numbers, signs and white space a text
of each form is made of, and which reading of clocks it states. The colons, the last character and
the letter between date and time show the form, so that no text has two of them. -/

namespace Slipbox.Time

open Text (isBlank)

/-- The digits write the number, with zeros in front of it or without. -/
structure Digits (n : Nat) (ds : List Char) : Prop where
  digit : ∀ d ∈ ds, d.isDigit = true
  value : Decimal.digitsValue ds = n

/-- The digits write the number, and there are `width` of them. -/
structure Number (width n : Nat) (ds : List Char) : Prop extends Digits n ds where
  length_eq : ds.length = width

instance (n : Nat) (ds : List Char) : Decidable (Digits n ds) :=
  decidable_of_iff (ds.all Char.isDigit = true ∧ Decimal.digitsValue ds = n)
    ⟨fun h => ⟨List.all_eq_true.mp h.1, h.2⟩, fun h => ⟨List.all_eq_true.mpr h.digit, h.value⟩⟩

instance (width n : Nat) (ds : List Char) : Decidable (Number width n ds) :=
  decidable_of_iff (Digits n ds ∧ ds.length = width)
    ⟨fun h => ⟨h.1, h.2⟩, fun h => ⟨h.toDigits, h.length_eq⟩⟩

/-- A number of `least` to `most` digits behind white space. -/
inductive Field (least most n : Nat) : List Char → Prop
  | mk {blanks ds : List Char} (hblanks : ∀ c ∈ blanks, isBlank c = true) (hds : Digits n ds)
      (hleast : least ≤ ds.length) (hmost : ds.length ≤ most) : Field least most n (blanks ++ ds)

/-- A year behind white space; one with a sign has any number of digits. -/
inductive Year : Int → List Char → Prop
  | bare {n : Nat} {part : List Char} (h : Field 1 4 n part) : Year n part
  | positive {n : Nat} {blanks ds : List Char} (hblanks : ∀ c ∈ blanks, isBlank c = true)
      (hds : Digits n ds) (hne : ds ≠ []) : Year n (blanks ++ '+' :: ds)
  | negative {n : Nat} {blanks ds : List Char} (hblanks : ∀ c ∈ blanks, isBlank c = true)
      (hds : Digits n ds) (hne : ds ≠ []) : Year (-n) (blanks ++ '-' :: ds)

/-- A date, whose day has at least `least` digits. -/
inductive DateText (least : Nat) : Date → List Char → Prop
  | mk {y : Int} {m d : Nat} {year month day : List Char} (hyear : Year y year)
      (hmonth : Field 1 2 m month) (hday : Field least 2 d day) :
      DateText least ⟨y, m, d⟩ (year ++ '-' :: month ++ '-' :: day)

/-- A time of day, with its seconds or without. -/
inductive ClockText : Bool → Clock → List Char → Prop
  | full {h m s : Nat} {hour minute second : List Char} (hhour : Field 1 2 h hour)
      (hminute : Field 1 2 m minute) (hsecond : Field 1 2 s second) :
      ClockText true ⟨h, m, s⟩ (hour ++ ':' :: minute ++ ':' :: second)
  | short {h m : Nat} {hour minute : List Char} (hhour : Field 1 2 h hour)
      (hminute : Field 1 2 m minute) : ClockText false ⟨h, m, 0⟩ (hour ++ ':' :: minute)

/-- A date in full width. -/
inductive FullDate : Date → List Char → Prop
  | mk {y m d : Nat} {year month day : List Char} (hyear : Number 4 y year)
      (hmonth : Number 2 m month) (hday : Number 2 d day) :
      FullDate ⟨y, m, d⟩ (year ++ '-' :: month ++ '-' :: day)

/-- A time of day in full width. -/
inductive FullClock : Clock → List Char → Prop
  | mk {h m s : Nat} {hour minute second : List Char} (hhour : Number 2 h hour)
      (hminute : Number 2 m minute) (hsecond : Number 2 s second) :
      FullClock ⟨h, m, s⟩ (hour ++ ':' :: minute ++ ':' :: second)

/-- A fraction of a second. -/
inductive Fraction : List Char → Prop
  | absent : Fraction []
  | point {n : Nat} {ds : List Char} (hds : Digits n ds) (hne : ds ≠ []) : Fraction ('.' :: ds)

/-- The signs that offsets begin with. -/
inductive Sign : Char → Int → Prop
  | plus : Sign '+' 1
  | hyphen : Sign '-' (-1)
  | minus : Sign '\u2212' (-1)

/-- By how many minutes clocks are ahead of UTC. -/
inductive Zone : Int → List Char → Prop
  | utc {c : Char} (hc : c = 'Z' ∨ c = 'z') : Zone 0 [c]
  | shifted {c : Char} {sign : Int} {h m : Nat} {hours minutes : List Char} (hsign : Sign c sign)
      (hhours : Number 2 h hours) (hminutes : Number 2 m minutes) (hday : h < 24)
      (hhour : m < 60) : Zone (sign * (60 * h + m)) (c :: hours ++ ':' :: minutes)

/-- What a text states: what clocks show, in whole seconds, and by how many minutes they are ahead
of UTC. -/
structure Reading where
  shown : Moment
  ahead : Int
  deriving DecidableEq, Repr

namespace Reading

def utc (r : Reading) : Moment :=
  r.shown.toUtc r.ahead

/-- The instant at which clocks show that. -/
def instant (r : Reading) : Instant :=
  toLex (r.shown.minutes - r.ahead, r.shown.clock.second)

end Reading

/-- The forms in which texts state times. -/
inductive Form where
  | offset
  | naive (separator : Separator) (seconds : Bool)
  | day
  deriving DecidableEq, Repr

/-- A text spells a reading in a form. Between a date and a time without an offset there may be no
white space if the day has two digits. -/
inductive Spells : Form → List Char → Reading → Prop
  | offset {date : Date} {clock : Clock} {ahead : Int} {t : Char}
      {dateText clockText fraction zone : List Char} (hdate : FullDate date dateText)
      (ht : t = 'T' ∨ t = 't' ∨ t = ' ') (hclock : FullClock clock clockText)
      (hfraction : Fraction fraction) (hzone : Zone ahead zone) :
      Spells .offset (dateText ++ t :: clockText ++ fraction ++ zone) ⟨⟨date, clock⟩, ahead⟩
  | letter {seconds : Bool} {date : Date} {clock : Clock} {dateText clockText : List Char}
      (hdate : DateText 1 date dateText) (hclock : ClockText seconds clock clockText) :
      Spells (.naive .letter seconds) (dateText ++ 'T' :: clockText) ⟨⟨date, clock⟩, 0⟩
  | space {seconds : Bool} {date : Date} {clock : Clock} {dateText clockText : List Char}
      (hdate : DateText 1 date dateText) (hclock : ClockText seconds clock clockText)
      (hparted : DateText 2 date dateText ∨ ∀ c ∈ clockText.head?, c.isDigit = false) :
      Spells (.naive .space seconds) (dateText ++ clockText) ⟨⟨date, clock⟩, 0⟩
  | day {date : Date} {dateText : List Char} (hdate : DateText 1 date dateText) :
      Spells .day dateText ⟨⟨date, ⟨0, 0, 0⟩⟩, 0⟩

/-- The calendar and the clock have the moment, and its year is one that dates may have. -/
structure Moment.Valid (m : Moment) : Prop where
  proper : m.Proper
  first_le : firstYear ≤ m.date.year
  le_last : m.date.year ≤ lastYear

/-- A text states a reading in one of the forms. -/
structure States (text : List Char) (r : Reading) : Prop where
  spelled : ∃ form, Spells form text r
  valid : r.shown.Valid

/-! No text has two forms. -/

/-- A character of a date without an offset, or of one of its numbers. -/
def IsPlain (c : Char) : Prop :=
  isBlank c = true ∨ c.isDigit = true ∨ c = '+' ∨ c = '-'

theorem IsPlain.ne {c : Char} (h : IsPlain c) : c ≠ ':' ∧ c ≠ 'T' := by
  constructor <;>
  · rintro rfl
    exact absurd h (by simp [IsPlain]; decide)

theorem Field.isPlain {least most n : Nat} {part : List Char} (h : Field least most n part) :
    ∀ c ∈ part, IsPlain c := by
  obtain ⟨hblanks, hds, -, -⟩ := h
  rw [List.forall_mem_append]
  exact ⟨fun c hc => .inl (hblanks c hc), fun c hc => .inr (.inl (hds.digit c hc))⟩

theorem Year.isPlain {y : Int} {part : List Char} (h : Year y part) : ∀ c ∈ part, IsPlain c := by
  have hsigned {n : Nat} {blanks ds : List Char} {c : Char} (hc : c = '+' ∨ c = '-')
      (hblanks : ∀ c ∈ blanks, isBlank c = true) (hds : Digits n ds) :
      ∀ d ∈ blanks ++ c :: ds, IsPlain d := by
    rw [List.forall_mem_append, List.forall_mem_cons]
    exact ⟨fun d hd => .inl (hblanks d hd), .inr (.inr hc),
      fun d hd => .inr (.inl (hds.digit d hd))⟩
  cases h with
  | bare hpart => exact hpart.isPlain
  | positive hblanks hds => exact hsigned (.inl rfl) hblanks hds
  | negative hblanks hds => exact hsigned (.inr rfl) hblanks hds

theorem DateText.isPlain {least : Nat} {date : Date} {part : List Char}
    (h : DateText least date part) : ∀ c ∈ part, IsPlain c := by
  obtain ⟨hyear, hmonth, hday⟩ := h
  have hdash : IsPlain '-' := .inr (.inr (.inr rfl))
  simp only [List.forall_mem_append, List.forall_mem_cons]
  exact ⟨⟨hyear.isPlain, hdash, hmonth.isPlain⟩, hdash, hday.isPlain⟩

theorem Digits.isPlain {n : Nat} {ds : List Char} (h : Digits n ds) : ∀ c ∈ ds, IsPlain c :=
  fun c hc => .inr (.inl (h.digit c hc))

theorem count_colon_of_isPlain {part : List Char} (h : ∀ c ∈ part, IsPlain c) :
    part.count ':' = 0 :=
  List.count_eq_zero.mpr fun hc => (h _ hc).ne.1 rfl

theorem FullDate.count_colon {date : Date} {part : List Char} (h : FullDate date part) :
    part.count ':' = 0 := by
  obtain ⟨hyear, hmonth, hday⟩ := h
  simp [count_colon_of_isPlain hyear.isPlain, count_colon_of_isPlain hmonth.isPlain,
    count_colon_of_isPlain hday.isPlain]

theorem FullClock.count_colon {clock : Clock} {part : List Char} (h : FullClock clock part) :
    part.count ':' = 2 := by
  obtain ⟨hhour, hminute, hsecond⟩ := h
  simp [count_colon_of_isPlain hhour.isPlain, count_colon_of_isPlain hminute.isPlain,
    count_colon_of_isPlain hsecond.isPlain]

theorem Fraction.count_colon {part : List Char} (h : Fraction part) : part.count ':' = 0 := by
  cases h with
  | absent => rfl
  | point hds => simp [count_colon_of_isPlain hds.isPlain]

theorem ClockText.count_colon {seconds : Bool} {clock : Clock} {part : List Char}
    (h : ClockText seconds clock part) : part.count ':' = if seconds then 2 else 1 := by
  cases h with
  | full hhour hminute hsecond =>
      simp [count_colon_of_isPlain hhour.isPlain, count_colon_of_isPlain hminute.isPlain,
        count_colon_of_isPlain hsecond.isPlain]
  | short hhour hminute =>
      simp [count_colon_of_isPlain hhour.isPlain, count_colon_of_isPlain hminute.isPlain]

theorem ClockText.letter_not_mem {seconds : Bool} {clock : Clock} {part : List Char}
    (h : ClockText seconds clock part) : 'T' ∉ part := by
  have hnumber {n : Nat} {part : List Char} (h : Field 1 2 n part) : 'T' ∉ part :=
    fun hc => (h.isPlain _ hc).ne.2 rfl
  cases h with
  | full hhour hminute hsecond => simp [hnumber hhour, hnumber hminute, hnumber hsecond]
  | short hhour hminute => simp [hnumber hhour, hnumber hminute]

def EndsInDigit (text : List Char) : Prop :=
  ∃ c ∈ text.getLast?, c.isDigit = true

theorem EndsInDigit.behind {text : List Char} (h : EndsInDigit text) (front : List Char) :
    EndsInDigit (front ++ text) := by
  obtain ⟨c, hc, hdigit⟩ := h
  exact ⟨c, by rw [List.getLast?_append, hc]; rfl, hdigit⟩

theorem Field.endsInDigit {least most n : Nat} {part : List Char} (h : Field least most n part)
    (hleast : 1 ≤ least) : EndsInDigit part := by
  obtain ⟨hblanks, hds, hlength, -⟩ := h
  have hne : _ ≠ [] := List.length_pos_iff.mp (hleast.trans hlength)
  refine EndsInDigit.behind ⟨_, List.getLast?_eq_some_getLast hne, ?_⟩ _
  exact hds.digit _ (List.getLast_mem hne)

theorem ClockText.endsInDigit {seconds : Bool} {clock : Clock} {part : List Char}
    (h : ClockText seconds clock part) : EndsInDigit part := by
  cases h with
  | full hhour hminute hsecond => exact ((hsecond.endsInDigit le_rfl).behind [':']).behind _
  | short hhour hminute => exact ((hminute.endsInDigit le_rfl).behind [':']).behind _

theorem DateText.endsInDigit {least : Nat} {date : Date} {part : List Char}
    (h : DateText least date part) (hleast : 1 ≤ least) : EndsInDigit part := by
  obtain ⟨hyear, hmonth, hday⟩ := h
  exact ((hday.endsInDigit hleast).behind ['-']).behind _

/-- Only an offset stands at the end of a text without being a number. -/
theorem Spells.endsInDigit {form : Form} {text : List Char} {r : Reading} (h : Spells form text r)
    (hform : form ≠ .offset) : EndsInDigit text := by
  cases h with
  | offset => exact absurd rfl hform
  | letter hdate hclock => exact (hclock.endsInDigit.behind ['T']).behind _
  | space hdate hclock hparted => exact hclock.endsInDigit.behind _
  | day hdate => exact hdate.endsInDigit le_rfl

/-- What the text of a form shows of the form. -/
def Form.Marks (text : List Char) : Form → Prop
  | .offset => text.count ':' = 3 ∨ text.count ':' = 2 ∧ ¬ EndsInDigit text
  | .naive separator seconds => (text.count ':' = if seconds then 2 else 1) ∧ EndsInDigit text ∧
      ('T' ∈ text ↔ separator = .letter)
  | .day => text.count ':' = 0

theorem Spells.marks {form : Form} {text : List Char} {r : Reading} (h : Spells form text r) :
    form.Marks text := by
  have hends := h.endsInDigit
  have hdateColon {date : Date} {part : List Char} (h : DateText 1 date part) :
      part.count ':' = 0 := count_colon_of_isPlain h.isPlain
  have hdateLetter {date : Date} {part : List Char} (h : DateText 1 date part) : 'T' ∉ part :=
    fun hc => (h.isPlain _ hc).ne.2 rfl
  cases h with
  | @offset date clock ahead t dateText clockText fraction zone hdate ht hclock hfraction hzone =>
      have ht' : t ≠ ':' := by rcases ht with rfl | rfl | rfl <;> decide
      have hcount : (dateText ++ t :: clockText ++ fraction ++ zone).count ':' =
          2 + zone.count ':' := by
        simp [hdate.count_colon, hclock.count_colon, hfraction.count_colon, ht']
      rw [Form.Marks, hcount]
      cases hzone with
      | @utc sign hsign =>
          have hsign' : [sign].count ':' = 0 ∧ sign.isDigit = false := by
            rcases hsign with rfl | rfl <;> exact ⟨rfl, rfl⟩
          refine .inr ⟨by rw [hsign'.1], ?_⟩
          rintro ⟨c, hc, hdigit⟩
          rw [List.getLast?_concat] at hc
          cases hc
          simp [hsign'.2] at hdigit
      | shifted hsign hhours hminutes =>
          refine .inl ?_
          cases hsign <;> simp [count_colon_of_isPlain hhours.isPlain,
            count_colon_of_isPlain hminutes.isPlain]
  | letter hdate hclock =>
      refine ⟨?_, hends (by simp), by simp⟩
      simp [hdateColon hdate, hclock.count_colon]
  | space hdate hclock hparted =>
      refine ⟨?_, hends (by simp), ?_⟩
      · simp [hdateColon hdate, hclock.count_colon]
      · simp [hdateLetter hdate, hclock.letter_not_mem]
  | day hdate => exact hdateColon hdate

theorem Form.Marks.unique {text : List Char} {form form' : Form} (h : form.Marks text)
    (h' : form'.Marks text) : form = form' := by
  cases form with
  | offset =>
      cases form' with
      | offset => rfl
      | naive separator seconds =>
          obtain ⟨hcount, hends, -⟩ := h'
          rcases h with h | ⟨-, hno⟩
          · split at hcount <;> omega
          · exact absurd hends hno
      | day => rcases h with h | ⟨h, -⟩ <;> simp only [Marks] at h' <;> omega
  | naive separator seconds =>
      obtain ⟨hcount, hends, hletter⟩ := h
      cases form' with
      | offset =>
          rcases h' with h | ⟨-, hno⟩
          · split at hcount <;> omega
          · exact absurd hends hno
      | naive separator' seconds' =>
          obtain ⟨hcount', -, hletter'⟩ := h'
          have hseconds : seconds = seconds' := by
            cases seconds <;> cases seconds' <;> simp_all
          have hseparator : separator = .letter ↔ separator' = .letter :=
            hletter.symm.trans hletter'
          cases separator <;> cases separator' <;> simp_all
      | day =>
          simp only [Marks] at h'
          split at hcount <;> omega
  | day =>
      cases form' with
      | offset => rcases h' with h' | ⟨h', -⟩ <;> simp only [Marks] at h <;> omega
      | naive separator seconds =>
          obtain ⟨hcount, -⟩ := h'
          simp only [Marks] at h
          split at hcount <;> omega
      | day => rfl

/-- No text has two forms. -/
theorem Spells.form_unique {form form' : Form} {text : List Char} {r r' : Reading}
    (h : Spells form text r) (h' : Spells form' text r') : form = form' :=
  h.marks.unique h'.marks

end Slipbox.Time
