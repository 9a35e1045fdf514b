import Slipbox.Decimal.Numeral
import Slipbox.Text.Blank

/-! Points in time as notes state them. A stated time is brought to UTC and written in one form, so
that the texts of two times compare as the times do; a text that states no time is kept. -/

namespace Slipbox.Time

/-- A day of the Gregorian calendar, which is extended to all years. -/
structure Date where
  year : Int
  month : Nat
  day : Nat
  deriving DecidableEq, Repr

/-- A time of day; second sixty is a leap second. -/
structure Clock where
  hour : Nat
  minute : Nat
  second : Nat
  deriving DecidableEq, Repr

structure Moment where
  date : Date
  clock : Clock
  deriving DecidableEq, Repr

def isLeap (year : Int) : Bool :=
  year % 4 == 0 && (year % 100 != 0 || year % 400 == 0)

def daysInMonth (year : Int) : Nat → Nat
  | 2 => if isLeap year then 29 else 28
  | 4 | 6 | 9 | 11 => 30
  | _ => 31

/-- The years that a date may have. -/
def firstYear : Int := -262143

def lastYear : Int := 262142

namespace Date

def isValid (d : Date) : Bool :=
  firstYear ≤ d.year && d.year ≤ lastYear && 1 ≤ d.month && d.month ≤ 12 && 1 ≤ d.day &&
    d.day ≤ daysInMonth d.year d.month

/-- The day after. -/
def next (d : Date) : Date :=
  if d.day < daysInMonth d.year d.month then { d with day := d.day + 1 }
  else if d.month < 12 then ⟨d.year, d.month + 1, 1⟩
  else ⟨d.year + 1, 1, 1⟩

/-- The day before. -/
def prev (d : Date) : Date :=
  if 1 < d.day then { d with day := d.day - 1 }
  else if 1 < d.month then ⟨d.year, d.month - 1, daysInMonth d.year (d.month - 1)⟩
  else ⟨d.year - 1, 12, 31⟩

/-- The date that lies `days` after the first of the month. -/
def inYear (year : Int) : (month : Nat) → (months : Nat) → (days : Nat) → Date
  | month, 0, days => ⟨year, month, days + 1⟩
  | month, n + 1, days =>
    if days < daysInMonth year month then ⟨year, month, days + 1⟩
    else inYear year (month + 1) n (days - daysInMonth year month)

/-- The date that lies `days` after 1 January 1970. Four hundred years have 146097 days, and the
longer ones of the spans that make them up come last. -/
def ofUnixDays (days : Int) : Date :=
  let fromEra := days + 719162
  let era := fromEra.fdiv 146097
  let inEra := (fromEra.fmod 146097).toNat
  let century := min (inEra / 36524) 3
  let inCentury := inEra - 36524 * century
  let four := inCentury / 1461
  let inFour := inCentury - 1461 * four
  let one := min (inFour / 365) 3
  inYear (400 * era + 100 * century + 4 * four + one + 1) 1 11 (inFour - 365 * one)

end Date

namespace Moment

/-- The moment that lies `seconds` after the start of 1970 in UTC. -/
def ofUnix (seconds : Int) : Moment :=
  let s := (seconds.fmod 86400).toNat
  ⟨.ofUnixDays (seconds.fdiv 86400), ⟨s / 3600, s / 60 % 60, s % 60⟩⟩

/-- The moment in UTC at which clocks that are `minutes` ahead show `m`; less than a day ahead or
behind. -/
def toUtc (m : Moment) (minutes : Int) : Moment :=
  let total := (60 * m.clock.hour + m.clock.minute : Int) - minutes
  let date := if total < 0 then m.date.prev else if total < 1440 then m.date else m.date.next
  let inDay := (total.emod 1440).toNat
  ⟨date, { m.clock with hour := inDay / 60, minute := inDay % 60 }⟩

end Moment

/-! Writing. -/

def padded (width n : Nat) : List Char :=
  let ds := Nat.toDigits 10 n
  List.replicate (width - ds.length) '0' ++ ds

/-- Four digits, and a sign for the years that do not have just four. -/
def yearText (year : Int) : List Char :=
  if 0 ≤ year ∧ year ≤ 9999 then padded 4 year.toNat
  else (if year < 0 then '-' else '+') :: padded 4 year.natAbs

/-- The one form in which moments are written, in whole seconds of UTC. -/
def Moment.text (m : Moment) : String :=
  String.ofList <|
    yearText m.date.year ++ '-' :: padded 2 m.date.month ++ '-' :: padded 2 m.date.day ++
    'T' :: padded 2 m.clock.hour ++ ':' :: padded 2 m.clock.minute ++
    ':' :: padded 2 m.clock.second ++ ['Z']

/-! Reading. -/

/-- At least one and at most `most` digits. -/
def digits? (most : Nat) (cs : List Char) : Option (Nat × List Char) :=
  let ds := (cs.take most).takeWhile Char.isDigit
  if ds.isEmpty then none else some (Decimal.digitsValue ds, cs.drop ds.length)

/-- Just `count` digits. -/
def exactly? (count : Nat) (cs : List Char) : Option (Nat × List Char) :=
  let ds := (cs.take count).takeWhile Char.isDigit
  if ds.length = count then some (Decimal.digitsValue ds, cs.drop count) else none

def char? (c : Char) : List Char → Option (List Char)
  | d :: cs => if d = c then some cs else none
  | [] => none

def Clock.isValid (c : Clock) : Bool :=
  c.hour < 24 && c.minute < 60 && c.second ≤ 60

def moment? (date : Date) (clock : Clock) : Option Moment :=
  if date.isValid && clock.isValid then some ⟨date, clock⟩ else none

/-- The minutes by which an offset is ahead of UTC: `Z`, or a sign, hours and minutes. -/
def offset? : List Char → Option (Int × List Char)
  | 'Z' :: cs | 'z' :: cs => some (0, cs)
  | c :: cs => do
    let sign : Int ← if c = '+' then some 1 else if c = '-' ∨ c = '\u2212' then some (-1) else none
    let (hours, cs) ← exactly? 2 cs
    let cs ← char? ':' cs
    let (minutes, cs) ← exactly? 2 cs
    if hours < 24 ∧ minutes < 60 then some (sign * (60 * hours + minutes), cs) else none
  | [] => none

/-- What follows a fraction of a second, which does not count. -/
def skipFraction? : List Char → Option (List Char)
  | '.' :: cs =>
    if (cs.takeWhile Char.isDigit).isEmpty then none else some (cs.dropWhile Char.isDigit)
  | cs => some cs

/-- A date and time with an offset, all numbers in full width. -/
def withOffset? (cs : List Char) : Option Moment := do
  let (year, cs) ← exactly? 4 cs
  let (month, cs) ← exactly? 2 (← char? '-' cs)
  let (day, cs) ← exactly? 2 (← char? '-' cs)
  let cs ← match cs with
    | 'T' :: cs | 't' :: cs | ' ' :: cs => some cs
    | _ => none
  let (hour, cs) ← exactly? 2 cs
  let (minute, cs) ← exactly? 2 (← char? ':' cs)
  let (second, cs) ← exactly? 2 (← char? ':' cs)
  let (minutes, cs) ← offset? (← skipFraction? cs)
  let m ← moment? ⟨year, month, day⟩ ⟨hour, minute, second⟩
  if cs.isEmpty then some (m.toUtc minutes) else none

/-- A number of at most `most` digits behind white space. -/
def field? (most : Nat) (cs : List Char) : Option (Nat × List Char) :=
  digits? most (Text.trimStart cs)

/-- A year behind white space: up to four digits, or a sign and any number of them. -/
def year? (cs : List Char) : Option (Int × List Char) :=
  match Text.trimStart cs with
  | '-' :: cs => (digits? cs.length cs).map fun (n, rest) => (-(n : Int), rest)
  | '+' :: cs => (digits? cs.length cs).map fun (n, rest) => ((n : Int), rest)
  | cs => (digits? 4 cs).map fun (n, rest) => ((n : Int), rest)

/-- A date whose numbers need not have their full width. -/
def date? (cs : List Char) : Option (Date × List Char) := do
  let (year, cs) ← year? cs
  let (month, cs) ← field? 2 (← char? '-' cs)
  let (day, cs) ← field? 2 (← char? '-' cs)
  some (⟨year, month, day⟩, cs)

/-- What stands between a date and a time: a `T`, or white space of any length. -/
inductive Separator where
  | letter | space
  deriving DecidableEq, Repr

def Separator.skip? : Separator → List Char → Option (List Char)
  | .letter, cs => char? 'T' cs
  | .space, cs => some (Text.trimStart cs)

/-- A date and time without an offset, taken as UTC. -/
def naive? (separator : Separator) (seconds : Bool) (cs : List Char) : Option Moment := do
  let (date, cs) ← date? cs
  let (hour, cs) ← field? 2 (← separator.skip? cs)
  let (minute, cs) ← field? 2 (← char? ':' cs)
  let (second, cs) ← if seconds then (char? ':' cs).bind (field? 2) else some (0, cs)
  let m ← moment? date ⟨hour, minute, second⟩
  if cs.isEmpty then some m else none

/-- A date alone stands for its start. -/
def dateOnly? (cs : List Char) : Option Moment := do
  let (date, cs) ← date? cs
  let m ← moment? date ⟨0, 0, 0⟩
  if cs.isEmpty then some m else none

/-- The moment that a text states in the first form that it fits. -/
def ofText? (cs : List Char) : Option Moment :=
  (withOffset? cs).or <| (naive? .letter true cs).or <| (naive? .space true cs).or <|
    (naive? .letter false cs).or <| (naive? .space false cs).or (dateOnly? cs)

/-- The text of the moment that a text states; a text that states none, without its outer white
space. -/
def normalize (text : String) : String :=
  let cs := Text.trim text.toList
  match ofText? cs with
  | some m => m.text
  | none => String.ofList cs

end Slipbox.Time
