import Slipbox.Decimal.Shortest

/-! The written forms of a double: plain digits, the form of JSON, and the fifteen digits that a
text column compares with. -/

namespace Slipbox.Decimal

def zeros (n : Nat) : List Char :=
  List.replicate n '0'

private def signed (negative : Bool) (cs : List Char) : String :=
  String.ofList (if negative then '-' :: cs else cs)

/-- `digits · 10^exponent` without an exponent mark, and without a point for a whole number. -/
def Scaled.plainChars (s : Scaled) : List Char :=
  let ds := digitChars s.digits
  if 0 ≤ s.exponent then
    if s.digits = 0 then ['0'] else ds ++ zeros s.exponent.toNat
  else
    let places := (-s.exponent).toNat
    if places < ds.length then ds.take (ds.length - places) ++ '.' :: ds.drop (ds.length - places)
    else '0' :: '.' :: zeros (places - ds.length) ++ ds

/-- The shortest digits that read back, never with an exponent. -/
def plain (x : Float) : String :=
  match classify x with
  | .nan => "NaN"
  | .infinite negative => signed negative "inf".toList
  | .finite negative b => signed negative (b.shortest .up).plainChars

/-- The digits as JSON writes them: a whole number keeps `.0`, and beyond sixteen digits before the
point or five zeros after it an exponent takes over. -/
def Scaled.jsonChars (s : Scaled) : List Char :=
  let ds := digitChars s.digits
  let point : Int := ds.length + s.exponent
  if s.digits = 0 then "0.0".toList
  else if 0 ≤ s.exponent ∧ point ≤ 16 then ds ++ zeros s.exponent.toNat ++ ['.', '0']
  else if -5 < point ∧ point ≤ 16 then s.plainChars
  else
    let mark := 'e' :: (toString (point - 1)).toList
    match ds with
    | [] => []
    | [d] => d :: mark
    | d :: more => d :: '.' :: more ++ mark

/-- A finite double as a JSON number; `none` for the values that JSON does not have. -/
def json? (x : Float) : Option String :=
  match classify x with
  | .finite negative b => some (signed negative (b.shortest .even).jsonChars)
  | _ => none

/-- A fraction rounded to `places` significant digits, a half away from zero. It has `magnitude`
digits before the point, or one fewer. -/
def roundTo (places : Nat) (num den : Nat) (magnitude : Int) : Scaled :=
  let scaled (k : Int) : Nat × Nat := (num * Nat.pow 10 (-k).toNat, den * Nat.pow 10 k.toNat)
  let fills (k : Int) : Bool := Nat.pow 10 (places - 1) * (scaled k).2 ≤ (scaled k).1
  let k := if fills (magnitude - places) then magnitude - places else magnitude - places - 1
  let (n, d) := scaled k
  ⟨(2 * n + d) / (2 * d), k⟩

/-- Digits without the zeros at their end. -/
def trimZeros (ds : List Char) : List Char :=
  (ds.reverse.dropWhile (· == '0')).reverse

/-- Fifteen significant digits, always with a point; an exponent of at least two digits takes over
below `10^-4` and from `10^15` on. Zero has no sign. A half in the digit behind them goes away from
zero; the store computes with a little more than the precision of a double only, so its last digit
may differ from this where the double is near such a half, as `6.714433892395685` is. -/
def columnText (x : Float) : String :=
  match classify x with
  | .nan => ""
  | .infinite negative => signed negative "Inf".toList
  | .finite negative b =>
    if b.mantissa = 0 then "0.0"
    else
      let i := b.interval
      let s := roundTo 15 i.value i.unit b.magnitude
      let all := digitChars s.digits
      let point : Int := all.length + s.exponent
      let ds := trimZeros all
      let withPoint (whole part : List Char) : List Char :=
        whole ++ '.' :: (if part.isEmpty then ['0'] else part)
      if -4 ≤ point - 1 ∧ point - 1 ≤ 14 then
        if point ≤ 0 then signed negative (withPoint ['0'] (zeros (-point).toNat ++ ds))
        else
          let n := point.toNat
          signed negative (withPoint (ds.take n ++ zeros (n - ds.length)) (ds.drop n))
      else
        let e := point - 1
        let size := digitChars e.natAbs
        let mark := 'e' :: (if e < 0 then '-' else '+') :: (zeros (2 - size.length) ++ size)
        signed negative (withPoint (ds.take 1) (ds.drop 1) ++ mark)

end Slipbox.Decimal
