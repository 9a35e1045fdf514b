import Slipbox.Query.Token
import Slipbox.Text.Blank

/-! Faults in a query text: what is wrong, where, and the stretch of text that a message quotes. -/

namespace Slipbox.Query

inductive Stage where
  | lexical
  | syntactic
  deriving DecidableEq, Repr

def Stage.title : Stage → String
  | .lexical => "Lexical error"
  | .syntactic => "Syntax error"

/-- What the grammar wanted at the place of a fault. -/
inductive Expected where
  | shape
  | fieldName
  | fieldAfterComma
  | pathAfterFrom
  | closing
  | openingAfterContains
  | comma
  | operator
  | condition
  | value
  | fieldAfterSort
  | integerAfterLimit
  deriving DecidableEq, Repr

def Expected.phrase : Expected → String
  | .shape => "query type (TABLE, LIST, or TASK)"
  | .fieldName => "field name"
  | .fieldAfterComma => "field name after ','"
  | .pathAfterFrom => "path after FROM"
  | .closing => "')'"
  | .openingAfterContains => "'(' after CONTAINS"
  | .comma => "','"
  | .operator => "comparison operator"
  | .condition => "condition"
  | .value => "value"
  | .fieldAfterSort => "field name after SORT"
  | .integerAfterLimit => "integer after LIMIT"

inductive Fault where
  | unexpectedChar (c : Char)
  | unterminatedString
  | expected (what : Expected) (found : Kind)
  | unexpected (found : Kind)
  | duplicate (clause : Keyword)
  | noEndMarker
  | noTokens

namespace Fault

def stage : Fault → Stage
  | .unexpectedChar _ | .unterminatedString => .lexical
  | _ => .syntactic

def message : Fault → String
  | .unexpectedChar c => s!"Unexpected character '{c}'"
  | .unterminatedString => "Unterminated string"
  | .expected what found => s!"Expected {what.phrase}, found {found.describe}"
  | .unexpected found => s!"Unexpected {found.describe}"
  | .duplicate clause => s!"Duplicate {clause.word} clause"
  | .noEndMarker => "Token stream is missing its end marker"
  | .noTokens => "Empty token stream"

end Fault

/-- A fault and the byte offset at which it was found. -/
structure Located where
  fault : Fault
  position : Nat

/-- A fault as it is reported. -/
structure Error where
  stage : Stage
  message : String
  position : Nat
  snippet : Option String
  deriving DecidableEq, Repr

/-- A cut of a text: the bytes from `start` to `stop`. -/
structure Window where
  start : Nat
  stop : Nat
  deriving DecidableEq, Repr

namespace Snippet

/-- How many bytes a snippet shows on each side of a fault. -/
def radius : Nat := 12

/-- The byte offsets at which a character starts or the text ends. -/
def boundaries (cs : List Char) : List Nat :=
  cs.scanl (fun n c => n + c.utf8Size) 0

def isBoundary (cs : List Char) (n : Nat) : Bool :=
  (boundaries cs).contains n

/-- The last boundary at or before `n`. -/
def floor (cs : List Char) : (n : Nat) → Nat
  | 0 => 0
  | n + 1 => if isBoundary cs (n + 1) then n + 1 else floor cs n

/-- The first boundary at or after `n`, and not more than `room` bytes after it. -/
def ceilWithin (cs : List Char) : (room n : Nat) → Nat
  | 0, n => n
  | room + 1, n => if isBoundary cs n then n else ceilWithin cs room (n + 1)

/-- The first boundary at or after `n`. -/
def ceil (cs : List Char) (n : Nat) : Nat :=
  ceilWithin cs (Text.byteLength cs - n) n

/-- The window of a position, widened to whole characters on both sides. -/
def window (cs : List Char) (position : Nat) : Window :=
  { start := floor cs (min (position - radius) (Text.byteLength cs))
    stop := ceil cs (min (position + radius) (Text.byteLength cs)) }

/-- The characters that start in the window. -/
def cut (cs : List Char) (w : Window) : List Char :=
  (((boundaries cs).zip cs).filter fun p => w.start ≤ p.1 ∧ p.1 < w.stop).map (·.2)

/-- The trimmed window of a position, if anything is left of it. -/
def at? (source : String) (position : Nat) : Option String :=
  let cs := source.toList
  match Text.trim (cut cs (window cs position)) with
  | [] => none
  | kept => some (String.ofList kept)

end Snippet

namespace Error

/-- The report of a fault, without a snippet. -/
def ofFault (f : Located) : Error :=
  ⟨f.fault.stage, f.fault.message, f.position, none⟩

/-- The report with the stretch of `source` around its position. -/
def withSource (e : Error) (source : String) : Error :=
  match Snippet.at? source e.position with
  | some s => { e with snippet := some s }
  | none => e

/-- The whole message. -/
def display (e : Error) : String :=
  let near := match e.snippet with
    | some s => s!" (near '{s}')"
    | none => ""
  s!"{e.stage.title} at position {e.position}: {e.message}{near}"

end Error

end Slipbox.Query
