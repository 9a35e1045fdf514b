import Slipbox.Decimal.Numeral
import Slipbox.Json
import Slipbox.Yaml.Node

/-! What a document says, as JSON. A plain scalar is null, a truth value or a number if it is
spelled like one, and a text otherwise. -/

namespace Slipbox

/-- Enters a member in the order of the names; its value replaces an earlier one. -/
def Json.insert (name : String) (value : Json) : List (String × Json) → List (String × Json)
  | [] => [(name, value)]
  | (k, v) :: rest =>
    if name < k then (name, value) :: (k, v) :: rest
    else if name = k then (name, value) :: rest
    else (k, v) :: Json.insert name value rest

namespace Yaml

def isNull (s : String) : Bool :=
  s == "null" || s == "Null" || s == "NULL" || s == "~"

def bool? (s : String) : Option Bool :=
  if s == "true" || s == "True" || s == "TRUE" then some true
  else if s == "false" || s == "False" || s == "FALSE" then some false
  else none

/-- The value of a digit in a base up to sixteen. -/
private def digit? (base : Nat) (c : Char) : Option Nat :=
  let n :=
    if c.isDigit then some (c.toNat - '0'.toNat)
    else if 'a' ≤ c ∧ c ≤ 'f' then some (c.toNat - 'a'.toNat + 10)
    else if 'A' ≤ c ∧ c ≤ 'F' then some (c.toNat - 'A'.toNat + 10)
    else none
  n.filter (· < base)

/-- The number that some digits spell; there has to be one at least. -/
def digits? (base : Nat) (cs : List Char) : Option Nat :=
  if cs.isEmpty then none
  else cs.foldlM (fun n c => (digit? base c).map (base * n + ·)) 0

/-- Whether some digits are a text for their leading zero. -/
def hasLeadingZero (cs : List Char) : Bool :=
  match cs with
  | '0' :: c :: rest => (c :: rest).all Char.isDigit
  | _ => false

/-- The number without its sign: decimal, or in the base that a mark names. -/
def magnitude? (cs : List Char) : Option Nat :=
  match cs with
  | '0' :: 'x' :: ds => digits? 16 ds
  | '0' :: 'o' :: ds => digits? 8 ds
  | '0' :: 'b' :: ds => digits? 2 ds
  | ds => if hasLeadingZero ds then none else digits? 10 ds

/-- A whole number with an optional sign. -/
def int? (s : String) : Option Int :=
  match s.toList with
  | '-' :: cs => (magnitude? cs).map fun n => -(n : Int)
  | '+' :: cs => (magnitude? cs).map fun n => (n : Int)
  | cs => (magnitude? cs).map fun n => (n : Int)

/-- Whole numbers beyond sixty-four bits but within a hundred and twenty-eight have no JSON form and
are refused; beyond that they are no whole numbers any more. -/
inductive Whole where
  | fits (n : Int)
  | tooLarge
  | none

def whole (s : String) : Whole :=
  match int? s with
  | some n =>
    if -(Nat.pow 2 63 : Int) ≤ n ∧ n < Nat.pow 2 64 then .fits n
    else if -(Nat.pow 2 127 : Int) ≤ n ∧ n < Nat.pow 2 128 then .tooLarge
    else .none
  | Option.none => .none

/-- A decimal number, or one of the spellings of what is no finite number. -/
def float? (s : String) : Option Float :=
  let unsigned := match s.toList with
    | '+' :: cs => cs
    | cs => cs
  let infinite : Float := 1.0 / 0.0
  if [".inf", ".Inf", ".INF"].contains (String.ofList unsigned) then some infinite
  else if s ∈ ["-.inf", "-.Inf", "-.INF"] then some (-infinite)
  else if s ∈ [".nan", ".NaN", ".NAN"] then some (0.0 / 0.0)
  else if s.toList.length ≠ unsigned.length ∧
      (unsigned.head? == some '+' || unsigned.head? == some '-') then none
  else (Decimal.parse? unsigned).filter Float.isFinite

/-- The value of a plain scalar. -/
def plainValue? (s : String) : Option Json :=
  if s.isEmpty || isNull s then some .null
  else
    match bool? s with
    | some b => some (.bool b)
    | none =>
      match whole s with
      | .fits n => some (.int n)
      | .tooLarge => none
      | .none =>
        let digits := match s.toList with
          | '-' :: cs | '+' :: cs => cs
          | cs => cs
        if hasLeadingZero digits then some (.string s)
        else
          match float? s with
          | some x => some (.ofFloat x)
          | none => some (.string s)

/-- Whether a tag belongs to an application of its own. Its values have no JSON form. -/
def isLocal (tag : Option String) : Bool :=
  tag.any fun t => t.toList.head? == some '!'

/-- The value of a scalar. A common tag asks for its type; under any other tag a scalar is a text.
-/
def scalarValue? (tag : Option String) (plain : Bool) (s : String) : Option Json :=
  match tag with
  | none => if plain then plainValue? s else some (.string s)
  | some t =>
    if t == "tag:yaml.org,2002:bool" then (bool? s).map .bool
    else if t == "tag:yaml.org,2002:int" then
      match whole s with
      | .fits n => some (.int n)
      | _ => none
    else if t == "tag:yaml.org,2002:float" then (float? s).map .ofFloat
    else if t == "tag:yaml.org,2002:null" then if isNull s then some .null else none
    else some (.string s)

namespace Document

variable (d : Document)

/-- Counts the references that have been followed. -/
abbrev Count (α : Type) := StateT Nat Option α

/-- The node itself, or the one that it refers to. Following references may take at most a hundred
steps for each part of the document. -/
def follow (n : Node) : Count Node :=
  match n with
  | .reference anchor => do
    modify (· + 1)
    if 100 * d.size < (← get) then failure
    else
      match d.find? anchor with
      | some n => return n
      | none => failure
  | n => return n

/-- The text of a key; only scalars can be keys. -/
def keyText (n : Node) : Count String := do
  match ← d.follow n with
  | .scalar _ _ text => return text
  | _ => failure

/-- The value of a node in which `inner` gives the values of its parts; without it the node has to
be a scalar. -/
def valueWith (inner : Option (Node → Count Json)) (n : Node) : Count Json := do
  match ← d.follow n, inner with
  | .scalar tag plain text, _ =>
    if isLocal tag then failure
    else
      match scalarValue? tag plain text with
      | some v => return v
      | none => failure
  | .sequence tag items, some inner =>
    if isLocal tag then failure else return .array (← items.mapM inner)
  | .mapping tag entries, some inner =>
    if isLocal tag then failure
    else
      let members ← entries.foldlM (fun members (key, value) => do
        let name ← d.keyText key
        return Json.insert name (← inner value) members) []
      return .object members
  | _, _ => failure

/-- The value of a node in which collections nest at most `depth` deep. -/
def value : (depth : Nat) → Node → Count Json
  | 0 => d.valueWith none
  | n + 1 => d.valueWith (some (value n))

end Document

/-- What a YAML text says; nothing said is null. Collections may nest a hundred and twenty-eight
deep. -/
def parse? (text : List Char) : Option Json := do
  match ← document? (← tokens? text) with
  | none => some .null
  | some d => ((d.value 128 d.root).run 0).map (·.1)

end Yaml

end Slipbox
