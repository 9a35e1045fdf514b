import Slipbox.Decimal.Layout
import Slipbox.Decimal.Numeral

/-! Stored values and how they compare. A value that meets a column in a comparison first takes on
the column's affinity; then null comes before numbers and numbers before text, numbers compare by
magnitude and texts by their bytes or, on request, without regard to ASCII letter case. A text may
hold null characters; not all that is done with it goes on behind the first of them. -/

namespace Slipbox.Sql

inductive Value where
  | null
  | integer (n : Int)
  | real (x : Float)
  | text (s : String)

/-- The type that a column prefers for what it is compared with. -/
inductive Affinity where
  | none | text | integer | real
  deriving DecidableEq, Repr

inductive Collation where
  | binary | nocase
  deriving DecidableEq, Repr

/-- The white space that may surround a number in a text. -/
def isNumberSpace (c : Char) : Bool :=
  c == ' ' || (9 ≤ c.toNat && c.toNat ≤ 13)

private def signed? : List Char → Bool × List Char
  | '-' :: cs => (true, cs)
  | '+' :: cs => (false, cs)
  | cs => (false, cs)

/-- The number that a whole text spells: an integer of sixty-four bits where it can be one, and
otherwise the nearest double. The store computes with a little more than the precision of a double
only, so its last bit may differ from this where a text is near the middle of two doubles, as
`0.93256` is. -/
def number? (s : String) : Option Value :=
  let (negative, cs) := signed? (s.toList.dropWhile isNumberSpace)
  match Decimal.readNumeral cs with
  | none => none
  | some (n, rest) =>
    if rest.all isNumberSpace then
      let size : Int := Decimal.digitsValue n.whole
      let whole := if negative then -size else size
      let bare := rest.length + n.whole.length == cs.length
      if bare ∧ -(Nat.pow 2 63 : Int) ≤ whole ∧ whole < Nat.pow 2 63 then some (.integer whole)
      else some (.real (if negative then -n.value else n.value))
    else none

namespace Value

/-- The text of a value that is not null. -/
def text? : Value → Option String
  | .null => none
  | .integer n => some (toString n)
  | .real x => some (Decimal.columnText x)
  | .text s => some s

/-- The number of bytes of a text. -/
def size : Value → Nat
  | .text s => s.utf8ByteSize
  | _ => 0

/-- The value as a placeholder takes it: a double that is not a number counts as null. -/
def bound : Value → Value
  | .real x => if x.isNaN then .null else .real x
  | v => v

/-- The value as a column of the given affinity takes it. -/
def coerce : Affinity → Value → Value
  | .text, v =>
    match v.text? with
    | some s => .text s
    | none => .null
  | .integer, .text s | .real, .text s => (number? s).getD (.text s)
  | _, v => v

end Value

/-- A whole number against a double, by their exact values. -/
def compareWithReal (n : Int) (x : Float) : Ordering :=
  match Decimal.classify x with
  | .nan => .gt
  | .infinite negative => if negative then .gt else .lt
  | .finite negative b =>
    let m : Int := if negative then -(b.mantissa : Int) else b.mantissa
    compare (n * Nat.pow 2 (-b.exponent).toNat) (m * Nat.pow 2 b.exponent.toNat)

def compareReals (x y : Float) : Ordering :=
  if x < y then .lt else if y < x then .gt else .eq

/-- The characters of a text before the first null character. -/
def beforeNull (s : String) : List Char :=
  s.toList.takeWhile (· != '\x00')

/-- The order of texts. Without regard to letter case it is that of the parts before the first null
character and, where these are alike, that of the numbers of all bytes. -/
def Collation.order : Collation → String → String → Ordering
  | .binary, s, t => compare s t
  | .nocase, s, t =>
    (compare ((beforeNull s).map Char.toLower) ((beforeNull t).map Char.toLower)).then
      (compare s.utf8ByteSize t.utf8ByteSize)

namespace Value

/-- The order of stored values. -/
def order (c : Collation) : Value → Value → Ordering
  | .null, .null => .eq
  | .null, _ => .lt
  | _, .null => .gt
  | .integer m, .integer n => compare m n
  | .integer m, .real y => compareWithReal m y
  | .real x, .integer n => (compareWithReal n x).swap
  | .real x, .real y => compareReals x y
  | .text s, .text t => c.order s t
  | .text _, _ => .gt
  | _, .text _ => .lt

end Value

end Slipbox.Sql
