/-! Reading decimals. A numeral is digits with an optional point and an optional power of ten; its
value is the double nearest to it. -/

namespace Slipbox.Decimal

/-- An unsigned decimal as written. -/
structure Numeral where
  whole : List Char
  fraction : List Char
  exponent : Int

def digitsValue (ds : List Char) : Nat :=
  ds.foldl (fun n c => 10 * n + (c.toNat - '0'.toNat)) 0

/-- The double nearest to the numeral, a tie going to the even one. No double has a larger power of
ten than 400 or, with `k` digits, a smaller one than `-(k + 400)`: beyond them all numerals are
infinite or zero. -/
def Numeral.value (n : Numeral) : Float :=
  let ds := n.whole ++ n.fraction
  let m := digitsValue ds
  let e := max (-(ds.length + 400 : Int)) (min 400 (n.exponent - n.fraction.length))
  if 0 ≤ e then Float.ofScientific m false e.toNat else Float.ofScientific m true (-e).toNat

/-- The power of ten after `e` or `E`, and what follows it. -/
def readExponent : List Char → Option (Int × List Char)
  | c :: cs =>
    if c = 'e' ∨ c = 'E' then
      let (negative, ds) := match cs with
        | '-' :: r => (true, r)
        | '+' :: r => (false, r)
        | r => (false, r)
      let size := ds.takeWhile Char.isDigit
      if size.isEmpty then none
      else
        let n : Int := digitsValue size
        some (if negative then -n else n, ds.dropWhile Char.isDigit)
    else some (0, c :: cs)
  | [] => some (0, [])

/-- The longest numeral at the head of a text, and what follows it. Either side of the point may be
empty, but not both. -/
def readNumeral (cs : List Char) : Option (Numeral × List Char) :=
  let whole := cs.takeWhile Char.isDigit
  let rest := cs.dropWhile Char.isDigit
  let (fraction, rest) := match rest with
    | '.' :: r => (r.takeWhile Char.isDigit, r.dropWhile Char.isDigit)
    | r => ([], r)
  if whole.isEmpty && fraction.isEmpty then none
  else (readExponent rest).map fun (e, r) => (⟨whole, fraction, e⟩, r)

private def unsigned? (cs : List Char) : Option Float :=
  match readNumeral cs with
  | some (n, []) => some n.value
  | _ =>
    let word := cs.map Char.toLower
    if word = "inf".toList ∨ word = "infinity".toList then some (1.0 / 0.0)
    else if word = "nan".toList then some (0.0 / 0.0)
    else none

/-- The double that a whole text spells: a sign, then a numeral or one of the words `inf`,
`infinity` and `nan`. -/
def parse? : List Char → Option Float
  | '-' :: cs => (unsigned? cs).map fun x => -x
  | '+' :: cs => unsigned? cs
  | cs => unsigned? cs

end Slipbox.Decimal
