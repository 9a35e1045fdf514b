/-! The shortest decimal that reads back as a given double. A finite double is `m · 2^q`; the reals
that round to it form an interval around it, and the decimal sought is the point of the coarsest
grid `10^k` that lies in this interval, the nearest one to the double if two do. Which one it is
when they are equally near depends on the form that is written. -/

namespace Slipbox.Decimal

/-- A finite double without its sign: `mantissa · 2^exponent`. -/
structure Binary where
  mantissa : Nat
  exponent : Int

/-- What the sixty-four bits of a double say. -/
inductive Class where
  | nan
  | infinite (negative : Bool)
  | finite (negative : Bool) (value : Binary)

/-- The parts of a double. -/
def classify (x : Float) : Class :=
  let bits : Nat := x.toBits.toNat
  let negative := bits / Nat.pow 2 63 == 1
  let biased : Nat := bits / Nat.pow 2 52 % Nat.pow 2 11
  let fraction : Nat := bits % Nat.pow 2 52
  if biased = 2047 then
    if fraction = 0 then .infinite negative else .nan
  else if biased = 0 then .finite negative ⟨fraction, -1074⟩
  else .finite negative ⟨Nat.pow 2 52 + fraction, (biased : Int) - 1075⟩

/-- `digits · 10^exponent`. -/
structure Scaled where
  digits : Nat
  exponent : Int
  deriving DecidableEq, Repr

/-- A double and the ends of its interval as fractions over one denominator. -/
structure Interval where
  low : Nat
  value : Nat
  high : Nat
  unit : Nat
  closed : Bool

/-- The reals that round to `b`. Just above a power of two the lower neighbour is half as far. -/
def Binary.interval (b : Binary) : Interval :=
  let below := if b.mantissa = Nat.pow 2 52 ∧ -1074 < b.exponent then 1 else 2
  let up := Nat.pow 2 (b.exponent - 2).toNat
  { low := (4 * b.mantissa - below) * up
    value := 4 * b.mantissa * up
    high := (4 * b.mantissa + 2) * up
    unit := Nat.pow 2 (2 - b.exponent).toNat
    closed := b.mantissa % 2 == 0 }

/-- The interval with `10^k` as its unit of length. -/
def Interval.rescale (i : Interval) (k : Int) : Interval :=
  let up := Nat.pow 10 (-k).toNat
  { i with
    low := i.low * up
    value := i.value * up
    high := i.high * up
    unit := i.unit * Nat.pow 10 k.toNat }

/-- Whether the whole number `n` lies in the interval. -/
def Interval.contains (i : Interval) (n : Nat) : Bool :=
  if i.closed then i.low ≤ n * i.unit && n * i.unit ≤ i.high
  else i.low < n * i.unit && n * i.unit < i.high

/-- Which of two equally near decimals stands for a double: the larger one, or the one with an even
last digit. -/
inductive Tie where
  | up | even
  deriving DecidableEq, Repr

/-- The whole number of the interval that is nearest to its value, if it has one: one of the value's
two neighbours. -/
def Interval.nearest? (i : Interval) (tie : Tie) : Option Nat :=
  let down := i.value / i.unit
  let up := down + 1
  match i.contains down, i.contains up with
  | true, true =>
    let toDown := i.value - down * i.unit
    let toUp := up * i.unit - i.value
    some (if toDown < toUp ∨ toDown = toUp ∧ tie = .even ∧ down % 2 = 0 then down else up)
  | true, false => some down
  | false, true => some up
  | false, false => none

/-- The first of the grids `10^k`, `10^(k-1)`, … with a point in the interval. -/
def Interval.search (i : Interval) (tie : Tie) : (grids : Nat) → (k : Int) → Option Scaled
  | 0, _ => none
  | n + 1, k =>
    match (i.rescale k).nearest? tie with
    | some d => some ⟨d, k⟩
    | none => i.search tie n (k - 1)

/-- An upper bound on the number of digits before the point; negative for small doubles. -/
def Binary.magnitude (b : Binary) : Int :=
  (((b.mantissa.log2 : Int) + 1 + b.exponent) * 30103).fdiv 100000 + 1

/-- The shortest decimal of a finite double. -/
def Binary.shortest (b : Binary) (tie : Tie) : Scaled :=
  if b.mantissa = 0 then ⟨0, 0⟩
  else (b.interval.search tie 20 b.magnitude).getD ⟨b.mantissa, 0⟩

/-- The digits of a number, from the highest. -/
def digitChars (n : Nat) : List Char :=
  Nat.toDigits 10 n

end Slipbox.Decimal
