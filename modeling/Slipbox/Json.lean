import Slipbox.Decimal.Layout

/-! JSON values and their indented text. Whole numbers and doubles are kept apart: a double is
always written with a point or an exponent. The members of an object keep their order. -/

namespace Slipbox

inductive Json where
  | null
  | bool (b : Bool)
  | int (n : Int)
  | double (x : Float)
  | string (s : String)
  | array (items : List Json)
  | object (members : List (String × Json))
  deriving Inhabited

namespace Json

/-- A double; JSON has no infinite ones, and null stands for what is no number. -/
def ofFloat (x : Float) : Json :=
  if x.isFinite then .double x else .null

def ofOption (s : Option String) : Json :=
  match s with
  | some s => .string s
  | none => .null

def strings (ss : List String) : Json :=
  .array (ss.map .string)

/-- A member that is left out when its value is absent. -/
def member? (name : String) (value : Option Json) : List (String × Json) :=
  value.toList.map fun v => (name, v)

def get? (j : Json) (name : String) : Option Json :=
  match j with
  | .object members => (members.find? fun m => m.1 == name).map (·.2)
  | _ => none

/-- The four hexadecimal digits of an escape. -/
def hexDigits (n : Nat) : List Char :=
  let ds := Nat.toDigits 16 n
  List.replicate (4 - ds.length) '0' ++ ds

def escapeChar (c : Char) : List Char :=
  match c with
  | '"' => ['\\', '"']
  | '\\' => ['\\', '\\']
  | '\n' => ['\\', 'n']
  | '\r' => ['\\', 'r']
  | '\t' => ['\\', 't']
  | '\x08' => ['\\', 'b']
  | '\x0c' => ['\\', 'f']
  | c => if c.toNat < 0x20 then '\\' :: 'u' :: hexDigits c.toNat else [c]

/-- A string in quotes. -/
def quote (s : String) : String :=
  String.ofList ('"' :: s.toList.flatMap escapeChar ++ ['"'])

private def indent (depth : Nat) : String :=
  String.ofList ('\n' :: List.replicate (2 * depth) ' ')

mutual

/-- The text of a value at a depth of nesting, with two spaces for each level. -/
def prettyAt (depth : Nat) : Json → String
  | .null => "null"
  | .bool b => toString b
  | .int n => toString n
  | .double x => (Decimal.json? x).getD "null"
  | .string s => quote s
  | .array [] => "[]"
  | .array (item :: items) =>
    "[" ++ indent (depth + 1) ++ prettyAt (depth + 1) item ++ prettyItems (depth + 1) items ++
      indent depth ++ "]"
  | .object [] => "\x7b\x7d"
  | .object ((name, value) :: members) =>
    "\x7b" ++ indent (depth + 1) ++ quote name ++ ": " ++ prettyAt (depth + 1) value ++
      prettyMembers (depth + 1) members ++ indent depth ++ "\x7d"

/-- The items after the first one. -/
def prettyItems (depth : Nat) : List Json → String
  | [] => ""
  | item :: items => "," ++ indent depth ++ prettyAt depth item ++ prettyItems depth items

/-- The members after the first one. -/
def prettyMembers (depth : Nat) : List (String × Json) → String
  | [] => ""
  | (name, value) :: members =>
    "," ++ indent depth ++ quote name ++ ": " ++ prettyAt depth value ++ prettyMembers depth members

end

def pretty (j : Json) : String :=
  prettyAt 0 j

end Json

end Slipbox
