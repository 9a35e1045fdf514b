import Slipbox.Proofs.Time.Forms

/-! Reading a time off a text. Each reader takes what the grammar has for it and leaves what
follows, and the forms are read just where they are spelled. So a text is read just if it states a
reading, in whatever form, and what is read is the moment of that reading in UTC. -/

namespace Slipbox.Time

open Text (isBlank)

/-! Reading numbers. -/

theorem isBlank_of_isDigit {c : Char} (h : c.isDigit = true) : isBlank c = false := by
  have hbounds : 48 ≤ c.toNat ∧ c.toNat ≤ 57 := Char.isDigit_iff_toNat.mp h
  simp [isBlank]
  omega

/-- The run of at most `most` members at the start of a list. -/
theorem takeWhile_take_eq_iff {α : Type} {p : α → Bool} {most : Nat} {l run : List α} :
    (l.take most).takeWhile p = run ↔ ∃ rest, l = run ++ rest ∧ (∀ a ∈ run, p a = true) ∧
      run.length ≤ most ∧ (run.length = most ∨ ∀ a ∈ rest.head?, p a = false) := by
  constructor
  · rintro rfl
    refine ⟨(l.take most).dropWhile p ++ l.drop most, ?_, fun a => List.mem_takeWhile_imp, ?_, ?_⟩
    · rw [← List.append_assoc, List.takeWhile_append_dropWhile, List.take_append_drop]
    · exact (List.takeWhile_sublist p).length_le.trans (List.length_take_le most l)
    · cases hstop : (l.take most).dropWhile p with
      | nil =>
          rw [List.takeWhile_eq_self_iff.mpr (List.dropWhile_eq_nil_iff.mp hstop)]
          rcases Nat.le_total most l.length with hle | hle
          · exact .inl (by simp [hle])
          · exact .inr (by simp [List.drop_eq_nil_of_le hle])
      | cons a rest =>
          refine .inr fun b hb => of_mem_head?_dropWhile (l := l.take most) ?_
          rw [hstop]
          exact hb
  · rintro ⟨rest, rfl, hrun, hlength, hend⟩
    rw [List.take_append, List.take_of_length_le hlength]
    refine (takeWhile_run hrun fun a ha => ?_).1
    rcases hend with hfull | hend
    · simp [hfull] at ha
    · rw [List.head?_take] at ha
      split at ha
      · cases ha
      · exact hend a ha

theorem exactly?_eq_some {count n : Nat} {cs rest : List Char} :
    exactly? count cs = some (n, rest) ↔ ∃ ds, Number count n ds ∧ cs = ds ++ rest := by
  constructor
  · intro h
    unfold exactly? at h
    generalize hrun : (cs.take count).takeWhile Char.isDigit = ds at h
    dsimp only at h
    obtain ⟨more, rfl, hdigit, -⟩ := takeWhile_take_eq_iff.mp hrun
    split at h
    · next hlength =>
      subst hlength
      simp only [List.drop_left, Option.some.injEq, Prod.mk.injEq] at h
      obtain ⟨hvalue, rfl⟩ := h
      exact ⟨ds, ⟨⟨hdigit, hvalue⟩, rfl⟩, rfl⟩
    · cases h
  · rintro ⟨ds, ⟨⟨hdigit, rfl⟩, rfl⟩, rfl⟩
    have hrun : ((ds ++ rest).take ds.length).takeWhile Char.isDigit = ds :=
      takeWhile_take_eq_iff.mpr ⟨rest, rfl, hdigit, le_rfl, .inl rfl⟩
    simp only [exactly?, hrun, if_pos, List.drop_left]

theorem digits?_eq_some {most n : Nat} {cs rest : List Char} :
    digits? most cs = some (n, rest) ↔ ∃ ds, Digits n ds ∧ ds ≠ [] ∧ cs = ds ++ rest ∧
      ds.length ≤ most ∧ (ds.length = most ∨ ∀ c ∈ rest.head?, c.isDigit = false) := by
  constructor
  · intro h
    unfold digits? at h
    generalize hrun : (cs.take most).takeWhile Char.isDigit = ds at h
    dsimp only at h
    obtain ⟨more, rfl, hdigit, hlength, hend⟩ := takeWhile_take_eq_iff.mp hrun
    split at h
    · cases h
    · next hne =>
      simp only [List.drop_left, Option.some.injEq, Prod.mk.injEq] at h
      obtain ⟨hvalue, rfl⟩ := h
      exact ⟨ds, ⟨hdigit, hvalue⟩, by simpa using hne, rfl, hlength, hend⟩
  · rintro ⟨ds, ⟨hdigit, rfl⟩, hne, rfl, hlength, hend⟩
    have hrun : ((ds ++ rest).take most).takeWhile Char.isDigit = ds :=
      takeWhile_take_eq_iff.mpr ⟨rest, rfl, hdigit, hlength, hend⟩
    have hfull : ds.isEmpty = false := by simpa using hne
    simp only [digits?, hrun, hfull, List.drop_left]
    rfl

/-- White space in front of a number is skipped. -/
theorem trimStart_append {blanks ds rest : List Char} (hblanks : ∀ c ∈ blanks, isBlank c = true)
    (hstop : ∀ c ∈ (ds ++ rest).head?, isBlank c = false) :
    Text.trimStart (blanks ++ ds ++ rest) = ds ++ rest := by
  rw [List.append_assoc]
  exact (takeWhile_run hblanks hstop).2

theorem Digits.head?_append {n : Nat} {ds : List Char} (h : Digits n ds) (hne : ds ≠ [])
    (rest : List Char) : ∀ c ∈ (ds ++ rest).head?, c.isDigit = true := by
  cases ds with
  | nil => exact absurd rfl hne
  | cons d ds =>
      intro c hc
      cases hc
      exact h.digit d List.mem_cons_self

theorem Field.weaken {least least' most n : Nat} {part : List Char} (h : Field least most n part)
    (hle : least' ≤ least) : Field least' most n part := by
  obtain ⟨hblanks, hds, hleast, hmost⟩ := h
  exact .mk hblanks hds (hle.trans hleast) hmost

theorem field?_eq_some {most n : Nat} (hmost : 1 ≤ most) {cs rest : List Char} :
    field? most cs = some (n, rest) ↔ ∃ part, Field 1 most n part ∧ cs = part ++ rest ∧
      (Field most most n part ∨ ∀ c ∈ rest.head?, c.isDigit = false) := by
  rw [field?, digits?_eq_some]
  constructor
  · rintro ⟨ds, hds, hne, hrest, hlength, hend⟩
    have hblanks : ∀ c ∈ cs.takeWhile isBlank, isBlank c = true := fun c => List.mem_takeWhile_imp
    refine ⟨cs.takeWhile isBlank ++ ds, .mk hblanks hds (List.length_pos_iff.mpr hne) hlength, ?_,
      hend.imp_left fun hfull => .mk hblanks hds hfull.ge hfull.le⟩
    rw [List.append_assoc, ← hrest]
    exact List.takeWhile_append_dropWhile.symm
  · have hskip {blanks ds : List Char} (hblanks : ∀ c ∈ blanks, isBlank c = true)
        (hds : Digits n ds) (hne : ds ≠ []) : Text.trimStart (blanks ++ ds ++ rest) = ds ++ rest :=
      trimStart_append hblanks fun c hc => isBlank_of_isDigit (hds.head?_append hne rest c hc)
    rintro ⟨part, hpart, rfl, hfull | hend⟩
    · obtain ⟨hblanks, hds, hleast, hlength⟩ := hfull
      have hne : _ ≠ [] := List.length_pos_iff.mp (hmost.trans hleast)
      exact ⟨_, hds, hne, hskip hblanks hds hne, hlength, .inl (hlength.antisymm hleast)⟩
    · obtain ⟨hblanks, hds, hleast, hlength⟩ := hpart
      have hne : _ ≠ [] := List.length_pos_iff.mp hleast
      exact ⟨_, hds, hne, hskip hblanks hds hne, hlength, .inr hend⟩

theorem char?_eq_some {c : Char} {cs rest : List Char} :
    char? c cs = some rest ↔ cs = c :: rest := by
  cases cs with
  | nil => simp [char?]
  | cons d cs =>
      rw [char?, List.cons.injEq]
      split <;> simp_all

/-! Reading dates and times. -/

/-- Behind a sign a year has all the digits that there are. -/
theorem exists_signed {c : Char} {n : Nat} {cs digits rest : List Char}
    (hsign : Text.trimStart cs = c :: digits) (h : digits? digits.length digits = some (n, rest)) :
    ∃ blanks ds, (∀ c ∈ blanks, isBlank c = true) ∧ Digits n ds ∧ ds ≠ [] ∧
      cs = blanks ++ c :: ds ++ rest := by
  obtain ⟨ds, hds, hne, rfl, -⟩ := digits?_eq_some.mp h
  refine ⟨cs.takeWhile isBlank, ds, fun c => List.mem_takeWhile_imp, hds, hne, ?_⟩
  rw [List.append_assoc, List.cons_append, ← hsign]
  exact List.takeWhile_append_dropWhile.symm

theorem not_isDigit_of_head {c : Char} (hc : c.isDigit = false) {rest : List Char} :
    ∀ d ∈ (c :: rest).head?, d.isDigit = false := by
  intro d hd
  cases hd
  exact hc

/-- In front of a dash every form of a year is read as a whole. -/
theorem year?_eq_some {y : Int} {cs rest : List Char} :
    year? cs = some (y, '-' :: rest) ↔ ∃ part, Year y part ∧ cs = part ++ '-' :: rest := by
  constructor
  · intro h
    unfold year? at h
    split at h
    all_goals
      obtain ⟨⟨n, rest⟩, hdigits, hpair⟩ := Option.map_eq_some_iff.mp h
      cases hpair
    · next hsign =>
      obtain ⟨blanks, ds, hblanks, hds, hne, hcs⟩ := exists_signed hsign hdigits
      exact ⟨_, .negative hblanks hds hne, hcs⟩
    · next hsign =>
      obtain ⟨blanks, ds, hblanks, hds, hne, hcs⟩ := exists_signed hsign hdigits
      exact ⟨_, .positive hblanks hds hne, hcs⟩
    · obtain ⟨part, hpart, hcs, -⟩ := (field?_eq_some (by simp)).mp hdigits
      exact ⟨part, .bare hpart, hcs⟩
  · rintro ⟨part, hyear, rfl⟩
    have hend : ∀ c ∈ ('-' :: rest).head?, c.isDigit = false := not_isDigit_of_head rfl
    have hsigned {n : Nat} {ds : List Char} (hds : Digits n ds) (hne : ds ≠ []) :
        digits? (ds ++ '-' :: rest).length (ds ++ '-' :: rest) = some (n, '-' :: rest) :=
      digits?_eq_some.mpr ⟨ds, hds, hne, rfl, by simp, .inr hend⟩
    cases hyear with
    | @bare n _ hpart =>
        have hread : field? 4 (part ++ '-' :: rest) = some (n, '-' :: rest) :=
          (field?_eq_some (by simp)).mpr ⟨part, hpart, rfl, .inr hend⟩
        obtain ⟨hblanks, hds, hleast, -⟩ := hpart
        have hfirst := hds.head?_append (List.length_pos_iff.mp hleast) ('-' :: rest)
        have hskip := trimStart_append hblanks fun c hc => isBlank_of_isDigit (hfirst c hc)
        unfold year?
        rw [field?] at hread
        split
        · next hsign =>
          rw [← hskip, hsign] at hfirst
          exact absurd (hfirst '-' rfl) (by decide)
        · next hsign =>
          rw [← hskip, hsign] at hfirst
          exact absurd (hfirst '+' rfl) (by decide)
        · rw [hread]
          rfl
    | positive hblanks hds hne =>
        rw [year?, trimStart_append hblanks (by simp; decide)]
        exact Option.map_eq_some_iff.mpr ⟨_, hsigned hds hne, rfl⟩
    | negative hblanks hds hne =>
        rw [year?, trimStart_append hblanks (by simp; decide)]
        exact Option.map_eq_some_iff.mpr ⟨_, hsigned hds hne, rfl⟩

theorem DateText.read {least : Nat} {date : Date} {part rest : List Char}
    (h : DateText least date part) (hleast : 1 ≤ least)
    (hend : least = 2 ∨ ∀ c ∈ rest.head?, c.isDigit = false) :
    date? (part ++ rest) = some (date, rest) := by
  obtain @⟨y, m, d, year, month, day, hyear, hmonth, hday⟩ := h
  have hdash (r : List Char) : ∀ c ∈ ('-' :: r).head?, c.isDigit = false :=
    not_isDigit_of_head rfl
  have hfull : Field 2 2 d day ∨ ∀ c ∈ rest.head?, c.isDigit = false := by
    rcases hend with rfl | hend
    · exact .inl hday
    · exact .inr hend
  have hreadDay : field? 2 (day ++ rest) = some (d, rest) :=
    (field?_eq_some (by simp)).mpr ⟨day, hday.weaken hleast, rfl, hfull⟩
  have hreadMonth : field? 2 (month ++ '-' :: (day ++ rest)) = some (m, '-' :: (day ++ rest)) :=
    (field?_eq_some (by simp)).mpr ⟨month, hmonth, rfl, .inr (hdash _)⟩
  have hreadYear : year? (year ++ '-' :: (month ++ '-' :: (day ++ rest))) =
      some (y, '-' :: (month ++ '-' :: (day ++ rest))) :=
    year?_eq_some.mpr ⟨year, hyear, rfl⟩
  simp only [date?, bind, Option.bind, List.append_assoc, List.cons_append, hreadYear, char?,
    if_pos, hreadMonth, hreadDay]

/-- A date is read as far as its day has digits. -/
theorem date?_eq_some {date : Date} {cs rest : List Char} :
    date? cs = some (date, rest) ↔ ∃ part, DateText 1 date part ∧ cs = part ++ rest ∧
      (DateText 2 date part ∨ ∀ c ∈ rest.head?, c.isDigit = false) := by
  constructor
  · intro h
    unfold date? at h
    simp only [bind, Option.bind_eq_some_iff, Prod.exists, char?_eq_some, Option.some.injEq,
      Prod.mk.injEq] at h
    obtain ⟨y, _, hy, _, rfl, m, _, hm, _, rfl, d, _, hd, rfl, rfl⟩ := h
    obtain ⟨day, hday, rfl, hend⟩ := (field?_eq_some (by simp)).mp hd
    obtain ⟨month, hmonth, rfl, -⟩ := (field?_eq_some (by simp)).mp hm
    obtain ⟨year, hyear, rfl⟩ := year?_eq_some.mp hy
    exact ⟨_, .mk hyear hmonth hday, by simp, hend.imp_left fun htwo => .mk hyear hmonth htwo⟩
  · rintro ⟨part, hdate, rfl, htwo | hend⟩
    · exact htwo.read (by simp) (.inl rfl)
    · exact hdate.read le_rfl (.inr hend)

/-- A time of day whose numbers need not have their full width. -/
def clock? (seconds : Bool) (cs : List Char) : Option (Clock × List Char) := do
  let (hour, cs) ← field? 2 cs
  let (minute, cs) ← field? 2 (← char? ':' cs)
  let (second, cs) ← if seconds then (char? ':' cs).bind (field? 2) else some (0, cs)
  some (⟨hour, minute, second⟩, cs)

theorem naive?_eq (separator : Separator) (seconds : Bool) (cs : List Char) :
    naive? separator seconds cs =
      (date? cs).bind fun (date, cs) => (separator.skip? cs).bind fun cs =>
        (clock? seconds cs).bind fun (clock, cs) => (moment? date clock).bind fun m =>
          if cs.isEmpty then some m else none := by
  cases seconds <;> simp [naive?, clock?, Option.bind_assoc]

theorem ClockText.read {seconds : Bool} {clock : Clock} {text : List Char}
    (h : ClockText seconds clock text) : clock? seconds text = some (clock, []) := by
  have hcolon (r : List Char) : ∀ c ∈ (':' :: r).head?, c.isDigit = false :=
    not_isDigit_of_head rfl
  have hnumber {n : Nat} {part : List Char} (h : Field 1 2 n part) (r : List Char) :
      field? 2 (part ++ ':' :: r) = some (n, ':' :: r) :=
    (field?_eq_some (by simp)).mpr ⟨part, h, rfl, .inr (hcolon r)⟩
  have hlast {n : Nat} {part : List Char} (h : Field 1 2 n part) : field? 2 part = some (n, []) :=
    (field?_eq_some (by simp)).mpr ⟨part, h, (List.append_nil part).symm, .inr (by simp)⟩
  cases h with
  | full hhour hminute hsecond =>
      simp only [clock?, bind, Option.bind, List.append_assoc, List.cons_append, hnumber hhour,
        char?, if_pos, hnumber hminute, hlast hsecond]
  | short hhour hminute =>
      simp [clock?, hnumber hhour, char?, hlast hminute]

theorem clock?_eq_some {seconds : Bool} {clock : Clock} {text : List Char} :
    clock? seconds text = some (clock, []) ↔ ClockText seconds clock text := by
  refine ⟨fun h => ?_, ClockText.read⟩
  unfold clock? at h
  cases seconds <;>
    simp only [bind, Option.bind_eq_some_iff, Prod.exists, char?_eq_some, Option.some.injEq,
      Prod.mk.injEq, if_true, Bool.false_eq_true, if_false] at h
  case true =>
    obtain ⟨h, _, hh, _, rfl, m, _, hm, s, _, ⟨_, rfl, hs⟩, rfl, rfl⟩ := h
    obtain ⟨second, hsecond, rfl, -⟩ := (field?_eq_some (by simp)).mp hs
    obtain ⟨minute, hminute, rfl, -⟩ := (field?_eq_some (by simp)).mp hm
    obtain ⟨hour, hhour, rfl, -⟩ := (field?_eq_some (by simp)).mp hh
    have htext := ClockText.full hhour hminute hsecond
    simpa using htext
  case false =>
    obtain ⟨h, _, hh, _, rfl, m, _, hm, _, _, ⟨rfl, rfl⟩, rfl, rfl⟩ := h
    obtain ⟨minute, hminute, rfl, -⟩ := (field?_eq_some (by simp)).mp hm
    obtain ⟨hour, hhour, rfl, -⟩ := (field?_eq_some (by simp)).mp hh
    have htext := ClockText.short hhour hminute
    simpa using htext

theorem clock?_trimStart (seconds : Bool) (cs : List Char) :
    clock? seconds (Text.trimStart cs) = clock? seconds cs := by
  have hskip : Text.trimStart (Text.trimStart cs) = Text.trimStart cs :=
    List.dropWhile_idempotent isBlank cs
  simp only [clock?, field?, hskip]

theorem moment?_eq_some {date : Date} {clock : Clock} {m : Moment} :
    moment? date clock = some m ↔ m = ⟨date, clock⟩ ∧ m.Valid := by
  unfold moment?
  split
  · next hvalid =>
    simp only [Date.isValid, Clock.isValid, Bool.and_eq_true, decide_eq_true_eq] at hvalid
    constructor
    · intro h
      cases h
      obtain ⟨⟨⟨⟨⟨⟨hfirst, hlast⟩, hmonth⟩, hmonth'⟩, hday⟩, hday'⟩, ⟨hhour, hminute⟩, hsecond⟩ :=
        hvalid
      exact ⟨rfl, ⟨⟨hmonth, hmonth', hday, hday'⟩, hhour, hminute, hsecond⟩, hfirst, hlast⟩
    · rintro ⟨rfl, -⟩
      rfl
  · next hinvalid =>
    refine iff_of_false (by simp) ?_
    rintro ⟨rfl, ⟨⟨hmonth, hmonth', hday, hday'⟩, hhour, hminute, hsecond⟩, hfirst, hlast⟩
    apply hinvalid
    simp only [Date.isValid, Clock.isValid, Bool.and_eq_true, decide_eq_true_eq]
    exact ⟨⟨⟨⟨⟨⟨hfirst, hlast⟩, hmonth⟩, hmonth'⟩, hday⟩, hday'⟩, ⟨hhour, hminute⟩, hsecond⟩

instance (m : Moment) : Decidable m.Valid :=
  decidable_of_iff (moment? m.date m.clock = some m)
    ⟨fun h => (moment?_eq_some.mp h).2, fun h => moment?_eq_some.mpr ⟨rfl, h⟩⟩

/-- A date in full width. -/
def fullDate? (cs : List Char) : Option (Date × List Char) := do
  let (year, cs) ← exactly? 4 cs
  let (month, cs) ← exactly? 2 (← char? '-' cs)
  let (day, cs) ← exactly? 2 (← char? '-' cs)
  some (⟨year, month, day⟩, cs)

/-- What follows the sign between a date and a time with an offset. -/
def skipDivider? : List Char → Option (List Char)
  | 'T' :: cs | 't' :: cs | ' ' :: cs => some cs
  | _ => none

/-- A time of day in full width. -/
def fullClock? (cs : List Char) : Option (Clock × List Char) := do
  let (hour, cs) ← exactly? 2 cs
  let (minute, cs) ← exactly? 2 (← char? ':' cs)
  let (second, cs) ← exactly? 2 (← char? ':' cs)
  some (⟨hour, minute, second⟩, cs)

theorem withOffset?_eq (cs : List Char) :
    withOffset? cs =
      (fullDate? cs).bind fun (date, cs) => (skipDivider? cs).bind fun cs =>
        (fullClock? cs).bind fun (clock, cs) => (skipFraction? cs).bind fun cs =>
          (offset? cs).bind fun (ahead, cs) => (moment? date clock).bind fun m =>
            if cs.isEmpty then some (m.toUtc ahead) else none := by
  unfold withOffset? fullDate?
  conv_rhs => simp only [bind, Option.bind_assoc, Option.bind_some]
  iterate 4 refine Option.bind_congr fun _ _ => ?_
  refine Option.bind_congr fun ⟨day, cs⟩ _ => ?_
  dsimp only
  split
  case h_4 =>
    have hnone : skipDivider? cs = none := by
      unfold skipDivider?
      split <;> simp_all
    rw [hnone]
    rfl
  all_goals simp only [skipDivider?, fullClock?, bind, Option.bind_assoc, Option.bind_some]

theorem fullDate?_eq_some {date : Date} {cs rest : List Char} :
    fullDate? cs = some (date, rest) ↔ ∃ part, FullDate date part ∧ cs = part ++ rest := by
  simp only [fullDate?, bind, Option.bind_eq_some_iff, Prod.exists, char?_eq_some,
    exactly?_eq_some, Option.some.injEq, Prod.mk.injEq]
  constructor
  · rintro ⟨y, _, ⟨year, hyear, rfl⟩, _, rfl, m, _, ⟨month, hmonth, rfl⟩, _, rfl, d, _,
      ⟨day, hday, rfl⟩, rfl, rfl⟩
    exact ⟨_, .mk hyear hmonth hday, by simp⟩
  · rintro ⟨_, ⟨hyear, hmonth, hday⟩, rfl⟩
    exact ⟨_, _, ⟨_, hyear, by simp⟩, _, rfl, _, _, ⟨_, hmonth, rfl⟩, _, rfl, _, _,
      ⟨_, hday, rfl⟩, rfl, rfl⟩

theorem fullClock?_eq_some {clock : Clock} {cs rest : List Char} :
    fullClock? cs = some (clock, rest) ↔ ∃ part, FullClock clock part ∧ cs = part ++ rest := by
  simp only [fullClock?, bind, Option.bind_eq_some_iff, Prod.exists, char?_eq_some,
    exactly?_eq_some, Option.some.injEq, Prod.mk.injEq]
  constructor
  · rintro ⟨h, _, ⟨hour, hhour, rfl⟩, _, rfl, m, _, ⟨minute, hminute, rfl⟩, _, rfl, s, _,
      ⟨second, hsecond, rfl⟩, rfl, rfl⟩
    exact ⟨_, .mk hhour hminute hsecond, by simp⟩
  · rintro ⟨_, ⟨hhour, hminute, hsecond⟩, rfl⟩
    exact ⟨_, _, ⟨_, hhour, by simp⟩, _, rfl, _, _, ⟨_, hminute, rfl⟩, _, rfl, _, _,
      ⟨_, hsecond, rfl⟩, rfl, rfl⟩

theorem skipDivider?_eq_some {cs rest : List Char} : skipDivider? cs = some rest ↔
    ∃ t, (t = 'T' ∨ t = 't' ∨ t = ' ') ∧ cs = t :: rest := by
  unfold skipDivider?
  constructor
  · intro h
    split at h <;> cases h <;> simp
  · rintro ⟨t, rfl | rfl | rfl, rfl⟩ <;> rfl

/-- A fraction is skipped as far as it has digits. -/
theorem skipFraction?_eq_some {cs rest : List Char} : skipFraction? cs = some rest ↔
    ∃ part, Fraction part ∧ cs = part ++ rest ∧
      ∀ c ∈ rest.head?, if part = [] then c ≠ '.' else c.isDigit = false := by
  constructor
  · intro h
    unfold skipFraction? at h
    split at h
    · next cs =>
      split at h
      · cases h
      · next hne =>
        cases h
        have hdigits : Digits _ (cs.takeWhile Char.isDigit) :=
          ⟨fun d => List.mem_takeWhile_imp, rfl⟩
        refine ⟨_, .point hdigits (by simpa using hne), ?_, fun c hc => ?_⟩
        · rw [List.cons_append, List.takeWhile_append_dropWhile]
        · rw [if_neg (List.cons_ne_nil _ _)]
          exact of_mem_head?_dropWhile hc
    · next hpoint =>
      cases h
      refine ⟨[], .absent, rfl, fun c hc => ?_⟩
      rw [if_pos rfl]
      rintro rfl
      cases cs with
      | nil => cases hc
      | cons d cs =>
          cases hc
          exact hpoint _ rfl
  · rintro ⟨_, hpart, rfl, hend⟩
    cases hpart with
    | absent =>
        simp only [if_pos] at hend
        unfold skipFraction?
        split
        · next hcs =>
          rw [List.nil_append] at hcs
          rw [hcs] at hend
          exact absurd rfl (hend '.' rfl)
        · rfl
    | point hds hne =>
        simp only [if_neg (List.cons_ne_nil _ _)] at hend
        obtain ⟨htake, hdrop⟩ := takeWhile_run hds.digit hend
        rw [List.cons_append, skipFraction?, htake, hdrop, if_neg (by simpa using hne)]

theorem offset?_sign {c : Char} {sign : Int} (h : Sign c sign) {ahead : Int}
    {cs rest : List Char} : offset? (c :: cs) = some (ahead, rest) ↔
      ∃ h m hours minutes, Number 2 h hours ∧ Number 2 m minutes ∧ h < 24 ∧ m < 60 ∧
        ahead = sign * (60 * h + m) ∧ cs = hours ++ ':' :: minutes ++ rest := by
  have hread : offset? (c :: cs) = some (ahead, rest) ↔
      ∃ h cs', (∃ ds, Number 2 h ds ∧ cs = ds ++ cs') ∧
        ∃ cs'', cs' = ':' :: cs'' ∧ ∃ m cs', (∃ ds, Number 2 m ds ∧ cs'' = ds ++ cs') ∧
          (if h < 24 ∧ m < 60 then some (sign * (60 * h + m), cs') else none) =
            some (ahead, rest) := by
    cases h <;> simp [offset?, bind, Option.bind_eq_some_iff, exactly?_eq_some, char?_eq_some]
  rw [hread]
  constructor
  · rintro ⟨h, _, ⟨hours, hhours, rfl⟩, _, rfl, m, cs', ⟨minutes, hminutes, rfl⟩, hif⟩
    split at hif
    · next hbounds =>
      cases hif
      exact ⟨h, m, hours, minutes, hhours, hminutes, hbounds.1, hbounds.2, rfl, by simp⟩
    · cases hif
  · rintro ⟨h, m, hours, minutes, hhours, hminutes, hday, hhour, rfl, rfl⟩
    exact ⟨h, _, ⟨hours, hhours, by simp⟩, _, rfl, m, rest, ⟨minutes, hminutes, rfl⟩,
      if_pos ⟨hday, hhour⟩⟩

theorem offset?_eq_some {ahead : Int} {cs rest : List Char} :
    offset? cs = some (ahead, rest) ↔ ∃ part, Zone ahead part ∧ cs = part ++ rest := by
  constructor
  · intro h
    cases cs with
    | nil => cases h
    | cons c cs =>
        by_cases hsigned : ∃ sign, Sign c sign
        · obtain ⟨sign, hsign⟩ := hsigned
          obtain ⟨_, _, _, _, hhours, hminutes, hday, hhour, rfl, rfl⟩ := (offset?_sign hsign).mp h
          exact ⟨_, .shifted hsign hhours hminutes hday hhour, by simp⟩
        · have hplus : c ≠ '+' := fun hc => hsigned ⟨1, hc ▸ .plus⟩
          have hhyphen : c ≠ '-' := fun hc => hsigned ⟨-1, hc ▸ .hyphen⟩
          have hminus : c ≠ '\u2212' := fun hc => hsigned ⟨-1, hc ▸ .minus⟩
          unfold offset? at h
          split at h
          · next hcs =>
            cases hcs
            cases h
            exact ⟨_, .utc (.inl rfl), rfl⟩
          · next hcs =>
            cases hcs
            cases h
            exact ⟨_, .utc (.inr rfl), rfl⟩
          · next hcs =>
            cases hcs
            simp [hplus, hhyphen, hminus] at h
          · cases h
  · rintro ⟨_, hpart, rfl⟩
    cases hpart with
    | utc hc => rcases hc with rfl | rfl <;> rfl
    | shifted hsign hhours hminutes hday hhour =>
        exact (offset?_sign hsign).mpr ⟨_, _, _, _, hhours, hminutes, hday, hhour, rfl, rfl⟩

/-- An offset does not go on with a fraction in front of it. -/
theorem Zone.head {ahead : Int} {part : List Char} (h : Zone ahead part) :
    ∀ c ∈ part.head?, c ≠ '.' ∧ c.isDigit = false := by
  intro c hc
  cases h with
  | utc hsign =>
      cases hc
      rcases hsign with rfl | rfl <;> decide
  | shifted hsign =>
      cases hc
      cases hsign <;> decide

/-! Reading the forms. -/

namespace Form

def read? : Form → List Char → Option Moment
  | .offset => withOffset?
  | .naive separator seconds => naive? separator seconds
  | .day => dateOnly?

/-- The forms in the order in which they are tried. -/
def all : List Form :=
  [.offset, .naive .letter true, .naive .space true, .naive .letter false, .naive .space false,
    .day]

theorem mem_all (form : Form) : form ∈ all := by
  rcases form with _ | ⟨_ | _, _ | _⟩ | _ <;> decide

theorem read?_day {cs : List Char} {m : Moment} :
    read? .day cs = some m ↔ ∃ r, Spells .day cs r ∧ r.shown.Valid ∧ r.utc = m := by
  simp only [read?, dateOnly?, bind, Option.bind_eq_some_iff, Prod.exists, moment?_eq_some,
    date?_eq_some]
  constructor
  · rintro ⟨date, rest, ⟨part, hdate, rfl, -⟩, _, ⟨rfl, hvalid⟩, h⟩
    split at h
    · next hend =>
      obtain rfl : rest = [] := by simpa using hend
      cases h
      rw [List.append_nil]
      exact ⟨_, .day hdate, hvalid, hvalid.proper.toUtc_zero⟩
    · cases h
  · rintro ⟨r, hspelled, hvalid, rfl⟩
    cases hspelled with
    | day hdate =>
        exact ⟨_, [], ⟨_, hdate, (List.append_nil cs).symm, .inr (by simp)⟩, _, ⟨rfl, hvalid⟩,
          congrArg some hvalid.proper.toUtc_zero.symm⟩

theorem read?_naive {separator : Separator} {seconds : Bool} {cs : List Char} {m : Moment} :
    read? (.naive separator seconds) cs = some m ↔
      ∃ r, Spells (.naive separator seconds) cs r ∧ r.shown.Valid ∧ r.utc = m := by
  rw [read?, naive?_eq]
  simp only [Option.bind_eq_some_iff, Prod.exists, moment?_eq_some]
  constructor
  · rintro ⟨date, rest, hdate, rest', hskip, clock, last, hclock, _, ⟨rfl, hvalid⟩, h⟩
    split at h
    · next hend =>
      obtain rfl : last = [] := by simpa using hend
      cases h
      refine ⟨⟨⟨date, clock⟩, 0⟩, ?_, hvalid, hvalid.proper.toUtc_zero⟩
      obtain ⟨part, hpart, rfl, hparted⟩ := date?_eq_some.mp hdate
      cases separator with
      | letter =>
          obtain rfl := char?_eq_some.mp hskip
          exact .letter hpart (clock?_eq_some.mp hclock)
      | space =>
          cases hskip
          rw [clock?_trimStart] at hclock
          exact .space hpart (clock?_eq_some.mp hclock) hparted
    · cases h
  · rintro ⟨r, hspelled, hvalid, rfl⟩
    cases hspelled with
    | letter hdate hclock =>
        exact ⟨_, _, date?_eq_some.mpr ⟨_, hdate, rfl, .inr (not_isDigit_of_head rfl)⟩, _,
          (char?_eq_some (c := 'T')).mpr rfl, _, [], hclock.read, _, ⟨rfl, hvalid⟩,
          congrArg some hvalid.proper.toUtc_zero.symm⟩
    | space hdate hclock hparted =>
        exact ⟨_, _, date?_eq_some.mpr ⟨_, hdate, rfl, hparted⟩, _, rfl, _, [],
          (clock?_trimStart _ _).trans hclock.read, _, ⟨rfl, hvalid⟩,
          congrArg some hvalid.proper.toUtc_zero.symm⟩

theorem read?_offset {cs : List Char} {m : Moment} :
    read? .offset cs = some m ↔ ∃ r, Spells .offset cs r ∧ r.shown.Valid ∧ r.utc = m := by
  rw [read?, withOffset?_eq]
  simp only [Option.bind_eq_some_iff, Prod.exists, moment?_eq_some, fullDate?_eq_some,
    skipDivider?_eq_some, fullClock?_eq_some, skipFraction?_eq_some, offset?_eq_some]
  constructor
  · rintro ⟨date, _, ⟨dateText, hdate, rfl⟩, _, ⟨t, ht, rfl⟩, clock, _, ⟨clockText, hclock, rfl⟩, _,
      ⟨fraction, hfraction, rfl, -⟩, ahead, last, ⟨zone, hzone, rfl⟩, _, ⟨rfl, hvalid⟩, h⟩
    split at h
    · next hend =>
      obtain rfl : last = [] := by simpa using hend
      cases h
      have hspelled := Spells.offset hdate ht hclock hfraction hzone
      refine ⟨⟨⟨date, clock⟩, ahead⟩, ?_, hvalid, rfl⟩
      simpa only [List.append_assoc, List.cons_append, List.append_nil] using hspelled
    · cases h
  · rintro ⟨r, hspelled, hvalid, rfl⟩
    cases hspelled with
    | @offset date clock ahead t dateText clockText fraction zone hdate ht hclock hfraction hzone =>
        refine ⟨date, t :: (clockText ++ (fraction ++ zone)), ⟨dateText, hdate, by simp⟩,
          clockText ++ (fraction ++ zone), ⟨t, ht, rfl⟩, clock, fraction ++ zone,
          ⟨clockText, hclock, rfl⟩, zone, ⟨fraction, hfraction, rfl, ?_⟩, ahead, [],
          ⟨zone, hzone, (List.append_nil zone).symm⟩, ⟨date, clock⟩, ⟨rfl, hvalid⟩, rfl⟩
        intro c hc
        obtain ⟨hpoint, hdigit⟩ := hzone.head c hc
        split <;> assumption

/-- A form is read where it is spelled. -/
theorem read?_eq_some {form : Form} {cs : List Char} {m : Moment} :
    form.read? cs = some m ↔ ∃ r, Spells form cs r ∧ r.shown.Valid ∧ r.utc = m := by
  cases form with
  | offset => exact read?_offset
  | naive separator seconds => exact read?_naive
  | day => exact read?_day

end Form

/-- The order in which the forms are tried does not matter. -/
theorem ofText?_eq_some_iff_read? {text : List Char} {m : Moment} :
    ofText? text = some m ↔ ∃ form : Form, form.read? text = some m := by
  have htried : ofText? text = Form.all.findSome? (·.read? text) := by
    have hcons (form : Form) (forms : List Form) : (form :: forms).findSome? (·.read? text) =
        (form.read? text).or (forms.findSome? (·.read? text)) := by
      rw [List.findSome?_cons]
      cases form.read? text <;> rfl
    simp only [Form.all, hcons, List.findSome?_nil, Option.or_none]
    rfl
  rw [htried, List.findSome?_eq_some_iff]
  constructor
  · rintro ⟨_, form, _, -, hform, -⟩
    exact ⟨form, hform⟩
  · rintro ⟨form, hform⟩
    obtain ⟨earlier, later, hall⟩ := List.mem_iff_append.mp form.mem_all
    refine ⟨earlier, form, later, hall, hform, fun form' hearlier => ?_⟩
    rw [Option.eq_none_iff_forall_ne_some]
    intro m' hform'
    obtain ⟨_, hspelled, -⟩ := Form.read?_eq_some.mp hform
    obtain ⟨_, hspelled', -⟩ := Form.read?_eq_some.mp hform'
    have hnodup : Form.all.Nodup := by decide
    rw [hall, hspelled.form_unique hspelled', List.nodup_append] at hnodup
    exact hnodup.2.2 form' hearlier form' List.mem_cons_self rfl

/-- A text is read as the reading that it states in UTC, and only if it states one. -/
theorem ofText?_eq_some {text : List Char} {m : Moment} :
    ofText? text = some m ↔ ∃ r, States text r ∧ r.utc = m := by
  rw [ofText?_eq_some_iff_read?]
  constructor
  · rintro ⟨form, hform⟩
    obtain ⟨r, hspelled, hvalid, hutc⟩ := Form.read?_eq_some.mp hform
    exact ⟨r, ⟨⟨form, hspelled⟩, hvalid⟩, hutc⟩
  · rintro ⟨r, ⟨⟨form, hspelled⟩, hvalid⟩, hutc⟩
    exact ⟨form, Form.read?_eq_some.mpr ⟨r, hspelled, hvalid, hutc⟩⟩

end Slipbox.Time
