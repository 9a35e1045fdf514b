import Slipbox.Decimal.Numeral
import Slipbox.Text.Blank
import Slipbox.Toml.Token

/-! The values and lines of a TOML text. Keys may have several parts with points between them, which
lead into tables within tables. -/

namespace Slipbox.Toml

inductive Value where
  | string (s : String)
  | integer (n : Int)
  | boolean (b : Bool)
  /-- A number that is not whole. -/
  | float
  | date
  | array (items : List Value)
  | table (members : List (String × Value))
  /-- A table that dotted keys have made; further dotted keys may add to it. -/
  | dotted (members : List (String × Value))
  deriving Inhabited

abbrev Members := List (String × Value)

inductive Line where
  | header (path : List String) (array : Bool)
  | pair (path : List String) (value : Value)

/-! Numbers. -/

/-- The digits at the head of a word, after a sign if one is allowed, and the rest of it. Single
underscores may stand between digits. -/
def wholePart? (sign leadingZeros : Bool) (isDigit : Char → Bool) (w : List Char) :
    Option (List Char × List Char) :=
  let (lead, cs) := match w with
    | c :: cs => if sign ∧ (c = '-' ∨ c = '+') then ([c], cs) else ([], w)
    | [] => ([], w)
  let part := cs.takeWhile fun c => isDigit c || c == '_'
  let ds := part.filter (· != '_')
  if (Text.pieces (· == '_') part).any List.isEmpty then none
  else if !leadingZeros ∧ ds.head? = some '0' ∧ 1 < ds.length then none
  else some (lead ++ ds, cs.drop part.length)

private def digitValue (c : Char) : Nat :=
  if c.isDigit then c.toNat - '0'.toNat else c.toLower.toNat - 'a'.toNat + 10

private def isDigitOf (base : Nat) (c : Char) : Bool :=
  (c.isDigit || ('a' ≤ c.toLower && c.toLower ≤ 'f')) && digitValue c < base

/-- A whole number of sixty-four bits. -/
def integer? (base : Nat) (w : List Char) : Option Value := do
  let (digits, rest) ← wholePart? (base == 10) (base != 10) (isDigitOf base) w
  if rest.isEmpty then
    let (negative, ds) := match digits with
      | '-' :: ds => (true, ds)
      | '+' :: ds => (false, ds)
      | ds => (false, ds)
    let n : Int := ds.foldl (fun n c => base * n + digitValue c) 0
    let n := if negative then -n else n
    if -(Nat.pow 2 63 : Int) ≤ n ∧ n < Nat.pow 2 63 then some (.integer n) else none
  else none

abbrev Parsed (α : Type) := α × List Token

/-- Whether a number of some digits and a power of ten is too large for a double. -/
private def overflows (digits fraction exponent : List Char) : Bool :=
  let size : Int := Decimal.digitsValue (exponent.filter Char.isDigit)
  let n : Decimal.Numeral :=
    { whole := digits.filter Char.isDigit
      fraction := fraction.filter Char.isDigit
      exponent := if exponent.head? == some '-' then -size else size }
  !n.value.isFinite

/-- A number with an exponent or, with the part after it given, a point. -/
def float? (w : List Char) (after : Option (List Char)) (ts : List Token) :
    Option (Parsed Value) := do
  let (digits, rest) ← wholePart? true false Char.isDigit w
  let (fraction, rest) ← match after with
    | none => some ([], rest)
    | some after => if rest.isEmpty then wholePart? false true Char.isDigit after else none
  let (exponent, ts) ← match rest with
    | [] => some ([], ts)
    | c :: more =>
      if c = 'e' ∨ c = 'E' then
        if more.isEmpty then
          let ts := match ts with
            | .plus :: ts => ts
            | ts => ts
          match ts with
          | .word w :: ts =>
            match wholePart? false true Char.isDigit w with
            | some (a, []) => some (a, ts)
            | _ => none
          | _ => none
        else
          match wholePart? true true Char.isDigit more with
          | some (a, []) => some (a, ts)
          | _ => none
      else none
  if overflows digits fraction exponent then none else some (.float, ts)

def number? (w : List Char) (ts : List Token) : Option (Parsed Value) :=
  match w with
  | '0' :: 'x' :: ds => (integer? 16 ds).map fun v => (v, ts)
  | '0' :: 'o' :: ds => (integer? 8 ds).map fun v => (v, ts)
  | '0' :: 'b' :: ds => (integer? 2 ds).map fun v => (v, ts)
  | _ =>
    if 'e' ∈ w ∨ 'E' ∈ w then float? w none ts
    else
      match ts with
      | .period :: .word after :: ts => float? w (some after) ts
      | .period :: _ => none
      | _ =>
        if w ∈ ["inf".toList, "-inf".toList, "nan".toList, "-nan".toList] then some (.float, ts)
        else (integer? 10 w).map fun v => (v, ts)

/-! Dates. Only their outline is read, since no property is a date. -/

private def word? : List Token → Option (List Token)
  | .word _ :: ts => some ts
  | _ => none

private def optional (t : Token) (ts : List Token) : Option (List Token) :=
  match ts with
  | u :: rest => if u = t then word? rest else some ts
  | [] => some ts

/-- The rest of a date or time behind its first word, or behind the colon after that. -/
def date? (colon : Bool) (ts : List Token) : Option (Parsed Value) := do
  let ts := match ts with
    | .space 1 true :: .word _ :: rest => rest
    | ts => ts
  let (timed, ts) := match ts with
    | .colon :: rest => if colon then (true, ts) else (true, rest)
    | ts => (colon, ts)
  if timed then
    let ts ← word? ts
    let ts ← match ts with
      | .colon :: ts => word? ts
      | _ => none
    let ts ← optional .period ts
    let ts ← optional .plus ts
    let ts ← optional .colon ts
    some (.date, ts)
  else some (.date, ts)

/-- Whether a `-` stands somewhere behind an `e`, as in a power of ten. -/
private def hasNegativePower : List Char → Bool
  | c :: d :: cs => ((c == 'e' || c == 'E') && d == '-') || hasNegativePower (d :: cs)
  | _ => false

/-- A value that starts with a word. -/
def wordValue? (w : List Char) (ts : List Token) : Option (Parsed Value) :=
  if w = "true".toList then some (.boolean true, ts)
  else if w = "false".toList then some (.boolean false, ts)
  else if w ≠ "inf".toList ∧ w ≠ "nan".toList ∧ !(w.head?.any fun c => c == '-' || c.isDigit) then
    none
  else if 'T' ∈ w ∨ 't' ∈ w ∨ ('-' ∈ w.drop 1 ∧ !hasNegativePower w) then
    date? false ts
  else
    match ts with
    | .colon :: ts => date? true ts
    | ts => number? w ts

/-! Keys and values. -/

def skipSpace : List Token → List Token
  | .space _ _ :: ts => ts
  | ts => ts

/-- A part of a key: a word or a string of one line. -/
def keyPart? : List Token → Option (Parsed String)
  | .word w :: ts => some (String.ofList w, ts)
  | .string s false :: ts => some (s, ts)
  | _ => none

/-- The further parts of a key, each behind a point. -/
def moreKey? : (fuel : Nat) → List Token → Option (Parsed (List String))
  | 0, ts => some ([], ts)
  | n + 1, ts =>
    match skipSpace ts with
    | .period :: ts => do
      let (part, ts) ← keyPart? (skipSpace ts)
      let (more, ts) ← moreKey? n ts
      some (part :: more, ts)
    | ts => some ([], ts)

def key? (ts : List Token) : Option (Parsed (List String)) := do
  let (first, ts) ← keyPart? ts
  let (more, ts) ← moreKey? ts.length ts
  some (first :: more, ts)

/-- Enters a value under a key. Only a table that dotted keys have made takes in more. -/
def enter? (value : Value) : (path : List String) → Members → Option Members
  | [], _ => none
  | [name], members => some (members ++ [(name, value)])
  | name :: path, members =>
    match members.findIdx? fun m => m.1 == name with
    | none => (enter? value path []).map fun inner => members ++ [(name, .dotted inner)]
    | some i =>
      match members[i]? with
      | some (_, .dotted inner) =>
        (enter? value path inner).map fun inner => members.set i (name, .dotted inner)
      | _ => none

/-- Passes white space, line ends and comments within an array. -/
def skipLines? : (fuel : Nat) → List Token → Option (List Token)
  | 0, ts => some ts
  | n + 1, ts =>
    match skipSpace ts with
    | .newline :: ts => skipLines? n ts
    | .comment :: .newline :: ts => skipLines? n ts
    | .comment :: [] => some []
    | .comment :: _ => none
    | ts => some ts

mutual

def value? : (fuel : Nat) → List Token → Option (Parsed Value)
  | 0, _ => none
  | n + 1, ts =>
    match ts with
    | .string s _ :: ts => some (.string s, ts)
    | .word w :: ts => wordValue? w ts
    | .plus :: .word w :: ts => number? w ts
    | .lbrace :: ts =>
      match skipSpace ts with
      | .rbrace :: ts => some (.table [], ts)
      | ts => (members? n [] ts).map fun (members, ts) => (.table members, ts)
    | .lbracket :: ts => (items? n ts).map fun (items, ts) => (.array items, ts)
    | _ => none

/-- The items of an array up to its end. -/
def items? : (fuel : Nat) → List Token → Option (Parsed (List Value))
  | 0, _ => none
  | n + 1, ts => do
    match ← skipLines? ts.length ts with
    | .rbracket :: ts => some ([], ts)
    | ts =>
      let (item, ts) ← value? n ts
      match ← skipLines? ts.length ts with
      | .comma :: ts =>
        let (items, ts) ← items? n ts
        some (item :: items, ts)
      | .rbracket :: ts => some ([item], ts)
      | _ => none

/-- The members of a table in braces up to its end. -/
def members? : (fuel : Nat) → Members → List Token → Option (Parsed Members)
  | 0, _, _ => none
  | n + 1, members, ts => do
    let (path, ts) ← key? ts
    match skipSpace ts with
    | .equals :: ts =>
      let (v, ts) ← value? n (skipSpace ts)
      let members ← enter? v path members
      match skipSpace ts with
      | .rbrace :: ts => some (members, ts)
      | .comma :: ts => members? n members (skipSpace ts)
      | _ => none
    | _ => none

end

/-- Passes the end of a line, before which only a comment may stand. -/
def lineEnd? (ts : List Token) : Option (List Token) :=
  let ts := match skipSpace ts with
    | .comment :: ts => ts
    | ts => ts
  match ts with
  | [] => some []
  | .newline :: ts => some ts
  | _ => none

/-- The header of a table behind its first bracket. -/
def header? (ts : List Token) : Option (Parsed Line) := do
  let (array, ts) := match ts with
    | .lbracket :: ts => (true, ts)
    | ts => (false, ts)
  let (path, ts) ← key? (skipSpace ts)
  match array, skipSpace ts with
  | true, .rbracket :: .rbracket :: ts => some (.header path true, ← lineEnd? ts)
  | false, .rbracket :: ts => some (.header path false, ← lineEnd? ts)
  | _, _ => none

/-- A key and its value. -/
def pair? (ts : List Token) : Option (Parsed Line) := do
  let (path, ts) ← key? ts
  match skipSpace ts with
  | .equals :: ts =>
    let (v, ts) ← value? (ts.length + 1) (skipSpace ts)
    some (.pair path v, ← lineEnd? ts)
  | _ => none

def linesFrom? : (fuel : Nat) → List Token → Option (List Line)
  | 0, ts => if ts.isEmpty then some [] else none
  | n + 1, ts =>
    match skipSpace ts with
    | [] => some []
    | .newline :: ts => linesFrom? n ts
    | .comment :: ts => do linesFrom? n (← lineEnd? ts)
    | .lbracket :: ts => do
      let (line, ts) ← header? ts
      some (line :: (← linesFrom? n ts))
    | ts => do
      let (line, ts) ← pair? ts
      some (line :: (← linesFrom? n ts))

/-- The lines of a text. Each takes at least one token, so their number is fuel enough. -/
def lines? (text : List Char) : Option (List Line) := do
  let ts ← tokens? text
  linesFrom? (ts.length + 1) ts

end Slipbox.Toml
