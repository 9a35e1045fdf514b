import Mathlib
import Slipbox.Time

/-! The calendar as a count of days. Days are numbered in a row through months, years and leap
years, so that dates follow one another as their numbers do and neighbouring days have neighbouring
numbers. An instant is a minute of UTC and a second in it. What clocks ahead of UTC show is brought
to UTC at the same instant. -/

namespace Slipbox.Time

/-- The days of the months of a year before `month`. -/
def daysBeforeMonth (year : Int) (month : Nat) : Nat :=
  ∑ k ∈ Finset.Ico 1 month, daysInMonth year k

theorem daysInMonth_pos (year : Int) (month : Nat) : 1 ≤ daysInMonth year month := by
  unfold daysInMonth
  repeat' split
  all_goals omega

theorem daysBeforeMonth_succ (year : Int) {month : Nat} (h : 1 ≤ month) :
    daysBeforeMonth year (month + 1) = daysBeforeMonth year month + daysInMonth year month :=
  Finset.sum_Ico_succ_top h _

theorem daysBeforeMonth_mono (year : Int) : Monotone (daysBeforeMonth year) :=
  fun _ _ h => Finset.sum_le_sum_of_subset (Finset.Ico_subset_Ico_right h)

/-- The months make up a year, which has a day more in a leap year. -/
theorem daysBeforeMonth_thirteen (year : Int) :
    daysBeforeMonth year 13 = if isLeap year then 366 else 365 := by
  simp only [daysBeforeMonth, Finset.sum_Ico_succ_top, daysInMonth, Nat.reduceLeDiff]
  split <;> rfl

/-- The days of the years before `year`, counted from the start of the year 1. Every fourth of these
years is a leap year, but of the hundreds only every fourth. -/
def daysBefore (year : Int) : Int :=
  365 * (year - 1) + (year - 1) / 4 - (year - 1) / 100 + (year - 1) / 400

theorem daysBefore_succ (year : Int) :
    daysBefore (year + 1) = daysBefore year + daysBeforeMonth year 13 := by
  rw [daysBeforeMonth_thirteen]
  unfold daysBefore isLeap
  split <;> simp_all <;> omega

theorem daysBefore_mono : Monotone daysBefore := by
  refine monotone_int_of_le_succ fun year => ?_
  rw [daysBefore_succ]
  omega

namespace Date

def key (d : Date) : ℤ ×ₗ ℕ ×ₗ ℕ := toLex (d.year, toLex (d.month, d.day))

theorem key_injective : Function.Injective key := by
  intro d e h
  cases d; cases e
  simpa [key] using h

instance : LinearOrder Date := LinearOrder.lift' key key_injective

theorem lt_iff {d e : Date} : d < e ↔ d.year < e.year ∨
    d.year = e.year ∧ (d.month < e.month ∨ d.month = e.month ∧ d.day < e.day) := by
  change key d < key e ↔ _
  simp [key, Prod.Lex.toLex_lt_toLex]

/-- The month and the day are there in the calendar. -/
structure Proper (d : Date) : Prop where
  month_pos : 1 ≤ d.month
  month_le : d.month ≤ 12
  day_pos : 1 ≤ d.day
  day_le : d.day ≤ daysInMonth d.year d.month

/-- The number of a day; 1 January of the year 1 is day 0. -/
def number (d : Date) : Int :=
  daysBefore d.year + daysBeforeMonth d.year d.month + (d.day - 1)

variable {d e : Date}

theorem Proper.number_lt_month (h : d.Proper) :
    d.number < daysBefore d.year + daysBeforeMonth d.year (d.month + 1) := by
  rw [number, daysBeforeMonth_succ d.year h.month_pos]
  have hday := h.day_le
  omega

theorem Proper.month_le_number (h : d.Proper) :
    daysBefore d.year + daysBeforeMonth d.year d.month ≤ d.number := by
  rw [number]
  have hday := h.day_pos
  omega

/-- A day lies in its year. -/
theorem Proper.number_mem (h : d.Proper) :
    daysBefore d.year ≤ d.number ∧ d.number < daysBefore (d.year + 1) := by
  have hlow := h.month_le_number
  have hhigh := h.number_lt_month
  have hmonths : daysBeforeMonth d.year (d.month + 1) ≤ daysBeforeMonth d.year 13 :=
    daysBeforeMonth_mono d.year (Nat.succ_le_succ h.month_le)
  rw [daysBefore_succ]
  omega

/-- Days are numbered in their order. -/
theorem number_strictMono : StrictMonoOn number {d | d.Proper} := by
  intro d hd e he hlt
  rcases lt_iff.mp hlt with hyear | ⟨hyear, hmonth | ⟨hmonth, hday⟩⟩
  · calc d.number < daysBefore (d.year + 1) := hd.number_mem.2
      _ ≤ daysBefore e.year := daysBefore_mono hyear
      _ ≤ e.number := he.number_mem.1
  · have hbelow := hd.number_lt_month
    have habove := he.month_le_number
    have hmonths : daysBeforeMonth d.year (d.month + 1) ≤ daysBeforeMonth d.year e.month :=
      daysBeforeMonth_mono d.year hmonth
    rw [← hyear] at habove
    omega
  · rw [number, number, hyear, hmonth]
    omega

theorem Proper.next (h : d.Proper) : d.next.Proper ∧ d.next.number = d.number + 1 := by
  obtain ⟨hmonth, hlast, hday, hend⟩ := h
  unfold Date.next
  split
  · next hinside => exact ⟨⟨hmonth, hlast, by simp, hinside⟩, by simp only [number]; omega⟩
  split
  · next hinside hyear =>
    refine ⟨⟨by simp, hyear, le_rfl, daysInMonth_pos _ _⟩, ?_⟩
    simp only [number, daysBeforeMonth_succ d.year hmonth]
    omega
  · next hinside hyear =>
    have hdecember : d.month = 12 := by omega
    refine ⟨⟨le_rfl, by simp, le_rfl, by simp [daysInMonth]⟩, ?_⟩
    have hnone : daysBeforeMonth (d.year + 1) 1 = 0 := by simp [daysBeforeMonth]
    have hyears := daysBefore_succ d.year
    rw [daysBeforeMonth_succ d.year (show 1 ≤ 12 by simp)] at hyears
    rw [hdecember] at hend hinside
    simp only [number, hyears, hdecember, hnone]
    omega

theorem Proper.prev (h : d.Proper) : d.prev.Proper ∧ d.prev.number = d.number - 1 := by
  obtain ⟨hmonth, hlast, hday, hend⟩ := h
  unfold Date.prev
  split
  · next hinside =>
    refine ⟨⟨hmonth, hlast, ?_, ?_⟩, ?_⟩ <;> simp only [number] <;> omega
  split
  · next hinside hyear =>
    have hmonths := daysBeforeMonth_succ d.year (show 1 ≤ d.month - 1 by omega)
    have hlength := daysInMonth_pos d.year (d.month - 1)
    rw [Nat.sub_add_cancel hmonth] at hmonths
    refine ⟨⟨?_, ?_, hlength, le_rfl⟩, ?_⟩ <;> simp only [number] <;> omega
  · next hinside hyear =>
    have hjanuary : d.month = 1 := by omega
    refine ⟨⟨by simp, le_rfl, by simp, by simp [daysInMonth]⟩, ?_⟩
    have hnone : daysBeforeMonth d.year 1 = 0 := by simp [daysBeforeMonth]
    have hyears := daysBefore_succ (d.year - 1)
    rw [daysBeforeMonth_succ _ (show 1 ≤ 12 by simp), Int.sub_add_cancel] at hyears
    simp only [number, hyears, hjanuary, hnone, daysInMonth]
    omega

end Date

namespace Clock

def key (c : Clock) : ℕ ×ₗ ℕ ×ₗ ℕ := toLex (c.hour, toLex (c.minute, c.second))

theorem key_injective : Function.Injective key := by
  intro c d h
  cases c; cases d
  simpa [key] using h

instance : LinearOrder Clock := LinearOrder.lift' key key_injective

theorem lt_iff {c d : Clock} : c < d ↔ c.hour < d.hour ∨
    c.hour = d.hour ∧ (c.minute < d.minute ∨ c.minute = d.minute ∧ c.second < d.second) := by
  change key c < key d ↔ _
  simp [key, Prod.Lex.toLex_lt_toLex]

end Clock

/-- A minute of UTC, counted from the start of the year 1, and a second in it. A leap second is the
one behind the sixty others of its minute and before the next minute. -/
abbrev Instant := ℤ ×ₗ ℕ

namespace Moment

def key (m : Moment) : Date ×ₗ Clock := toLex (m.date, m.clock)

theorem key_injective : Function.Injective key := by
  intro m n h
  cases m; cases n
  simpa [key] using h

instance : LinearOrder Moment := LinearOrder.lift' key key_injective

theorem lt_iff {m n : Moment} : m < n ↔ m.date < n.date ∨ m.date = n.date ∧ m.clock < n.clock := by
  change key m < key n ↔ _
  simp [key, Prod.Lex.toLex_lt_toLex]

/-- The day is there in the calendar and the time on the clock. -/
structure Proper (m : Moment) : Prop where
  date : m.date.Proper
  hour_lt : m.clock.hour < 24
  minute_lt : m.clock.minute < 60
  second_le : m.clock.second ≤ 60

/-- The minutes from the start of the year 1. -/
def minutes (m : Moment) : Int :=
  1440 * m.date.number + 60 * m.clock.hour + m.clock.minute

/-- The instant at which clocks in UTC show the moment. -/
def instant (m : Moment) : Instant :=
  toLex (m.minutes, m.clock.second)

variable {m : Moment}

/-- What clocks in UTC show goes on as time does. -/
theorem instant_strictMono : StrictMonoOn instant {m | m.Proper} := by
  intro m hm n hn hlt
  have hhour := hm.hour_lt
  have hminute := hm.minute_lt
  rw [instant, instant, Prod.Lex.toLex_lt_toLex]
  dsimp only [minutes]
  rcases lt_iff.mp hlt with hdate | ⟨hdate, hclock⟩
  · have hnumber := Date.number_strictMono hm.date hn.date hdate
    omega
  · rw [hdate]
    rcases Clock.lt_iff.mp hclock with h | ⟨h, h' | ⟨h', h''⟩⟩ <;> omega

/-- Clocks that are ahead of UTC, or behind it, show UTC of another instant. -/
theorem Proper.toUtc (h : m.Proper) {ahead : Int} (hlow : -1440 < ahead) (hhigh : ahead < 1440) :
    (m.toUtc ahead).Proper ∧
      (m.toUtc ahead).instant = toLex (m.minutes - ahead, m.clock.second) := by
  have hhour := h.hour_lt
  have hminute := h.minute_lt
  obtain ⟨hnext, hnextNumber⟩ := h.date.next
  obtain ⟨hprev, hprevNumber⟩ := h.date.prev
  simp only [Moment.toUtc]
  generalize htotal : (60 * m.clock.hour + m.clock.minute : Int) - ahead = total
  generalize hdate : (if total < 0 then m.date.prev else if total < 1440 then m.date
    else m.date.next) = date
  have hrest : total.emod 1440 = total % 1440 := rfl
  have hday : date.Proper ∧ 1440 * date.number + total % 1440 = 1440 * m.date.number + total := by
    rw [← hdate]
    split
    · exact ⟨hprev, by omega⟩
    split
    · exact ⟨h.date, by omega⟩
    · exact ⟨hnext, by omega⟩
  obtain ⟨hproper, hnumber⟩ := hday
  rw [hrest]
  refine ⟨⟨hproper, ?_, ?_, h.second_le⟩, ?_⟩
  · dsimp only
    omega
  · dsimp only
    omega
  · simp only [instant, minutes]
    congr 2
    omega

theorem Proper.toUtc_zero (h : m.Proper) : m.toUtc 0 = m := by
  obtain ⟨hproper, hinstant⟩ := h.toUtc (show -1440 < (0 : Int) by simp) (by simp)
  rw [Int.sub_zero] at hinstant
  exact instant_strictMono.injOn hproper h hinstant

end Moment

/-- The instant at which a year starts. -/
def yearStart (year : Int) : Instant :=
  Moment.instant ⟨⟨year, 1, 1⟩, ⟨0, 0, 0⟩⟩

theorem Moment.Proper.instant_lt_yearStart {m : Moment} (h : m.Proper) {year : Int} :
    m.instant < yearStart year ↔ m.date.year < year := by
  have hstart : Proper ⟨⟨year, 1, 1⟩, ⟨0, 0, 0⟩⟩ :=
    ⟨⟨le_rfl, by simp, le_rfl, daysInMonth_pos _ _⟩, by simp, by simp, by simp⟩
  constructor
  · intro hbefore
    by_contra hyear
    have hlt := (instant_strictMono.lt_iff_lt h hstart).mp hbefore
    rw [lt_iff, Date.lt_iff, Clock.lt_iff] at hlt
    have hmonth := h.date.month_pos
    have hday := h.date.day_pos
    dsimp only at hlt
    omega
  · intro hyear
    exact instant_strictMono h hstart (lt_iff.mpr (.inl (Date.lt_iff.mpr (.inl hyear))))

end Slipbox.Time
