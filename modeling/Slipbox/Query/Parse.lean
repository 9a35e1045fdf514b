import Slipbox.Query.Scan
import Slipbox.Query.Tree

/-! From tokens to queries. In a condition `OR` binds weaker than `AND`, both group to the left, and
parentheses nest to any depth; the clauses of a query come in any order, each at most once. -/

namespace Slipbox.Query

/-- The tokens before the end marker, and where the end marker stands. -/
structure Stream where
  items : List Token
  stop : Nat

/-- A part of a query and the tokens after it. -/
abbrev Parsed (α : Type) := α × Stream

namespace Stream

/-- The tokens up to the first end marker. The last token has to be one. -/
def ofTokens (tokens : List Token) : Except Located Stream :=
  match tokens.getLast? with
  | none => .error ⟨.noTokens, 0⟩
  | some last =>
    if last.kind.isEof then
      let items := tokens.takeWhile fun t => !t.kind.isEof
      .ok ⟨items, ((tokens.drop items.length).headD last).position⟩
    else .error ⟨.noEndMarker, last.position⟩

/-- The next token; the end marker once the items are used up. -/
def peek (s : Stream) : Token :=
  s.items.headD ⟨.eof, s.stop⟩

def advance (s : Stream) : Stream :=
  { s with items := s.items.tail }

def keyword? (s : Stream) : Option Keyword :=
  match s.peek.kind with
  | .keyword k => some k
  | _ => none

/-- The next token is not what the grammar wants here. -/
def expected {α : Type} (s : Stream) (what : Expected) : Except Located α :=
  .error ⟨.expected what s.peek.kind, s.peek.position⟩

def identifier (s : Stream) (what : Expected) : Except Located (Parsed String) :=
  match s.peek.kind with
  | .identifier name => .ok (name, s.advance)
  | _ => s.expected what

def lparen (s : Stream) (what : Expected) : Except Located Stream :=
  match s.peek.kind with
  | .lparen => .ok s.advance
  | _ => s.expected what

def rparen (s : Stream) (what : Expected) : Except Located Stream :=
  match s.peek.kind with
  | .rparen => .ok s.advance
  | _ => s.expected what

def comma (s : Stream) (what : Expected) : Except Located Stream :=
  match s.peek.kind with
  | .comma => .ok s.advance
  | _ => s.expected what

end Stream

namespace Parse

def literal (s : Stream) : Except Located (Parsed Literal) :=
  match s.peek.kind with
  | .string text => .ok (.string text, s.advance)
  | .number x _ => .ok (.number x, s.advance)
  | .boolean b => .ok (.boolean b, s.advance)
  | .identifier word => .ok (.string word, s.advance)
  | _ => s.expected .value

/-- A condition in parentheses, a `CONTAINS` test or a comparison; `inner` reads what parentheses
enclose. -/
def primary (inner : Stream → Except Located (Parsed Condition)) (s : Stream) :
    Except Located (Parsed Condition) :=
  match s.peek.kind with
  | .lparen => do
    let (c, s) ← inner s.advance
    let s ← s.rparen .closing
    .ok (c, s)
  | .keyword .contains => do
    let s ← s.advance.lparen .openingAfterContains
    let (field, s) ← s.identifier .fieldName
    let s ← s.comma .comma
    let (value, s) ← literal s
    let s ← s.rparen .closing
    .ok (.contains field value, s)
  | .identifier field =>
    match s.advance.peek.kind with
    | .operator op => do
      let (value, s) ← literal s.advance.advance
      .ok (.compare field op value, s)
    | _ => s.advance.expected .operator
  | _ => s.expected .condition

/-- More items after `left`, each behind the connective's keyword, grouped to the left. -/
def chainFrom (op : Connective) (item : Stream → Except Located (Parsed Condition)) :
    (fuel : Nat) → Condition → Stream → Except Located (Parsed Condition)
  | 0, left, s => .ok (left, s)
  | n + 1, left, s =>
    if s.keyword? = some op.keyword then do
      let (right, s) ← item s.advance
      chainFrom op item n (.logical op left right) s
    else .ok (left, s)

/-- One or more items joined by the connective. Every turn uses up a keyword, so the number of
tokens left is fuel enough. -/
def chain (op : Connective) (item : Stream → Except Located (Parsed Condition)) (s : Stream) :
    Except Located (Parsed Condition) := do
  let (left, s) ← item s
  chainFrom op item s.items.length left s

/-- A condition whose parentheses nest less than `depth` deep. -/
def conditionWithin : (depth : Nat) → Stream → Except Located (Parsed Condition)
  | 0, s => s.expected .condition
  | d + 1, s => chain .or (chain .and (primary (conditionWithin d))) s

/-- A condition. Every level of parentheses uses up a token, so the depth is never reached. -/
def condition (s : Stream) : Except Located (Parsed Condition) :=
  conditionWithin (s.items.length + 1) s

/-- The field names after the first one, each behind a comma. -/
def moreFields (stop : Nat) : List Token → Except Located (List String × List Token)
  | ⟨.comma, _⟩ :: ⟨.identifier name, _⟩ :: rest =>
    (moreFields stop rest).map fun (names, rest) => (name :: names, rest)
  | ⟨.comma, _⟩ :: rest => Stream.expected ⟨rest, stop⟩ .fieldAfterComma
  | rest => .ok ([], rest)

/-- The field list of a table, when its first token is a name. -/
def fields? (shape : Shape) (s : Stream) : Except Located (Parsed (Option (List String))) :=
  match shape, s.peek.kind with
  | .table, .identifier first =>
    (moreFields s.stop s.items.tail).map fun (names, rest) =>
      (some (first :: names), ⟨rest, s.stop⟩)
  | _, _ => .ok (none, s)

def source (s : Stream) : Except Located (Parsed String) :=
  match s.peek.kind with
  | .string text => .ok (text, s.advance)
  | .identifier name => .ok (name, s.advance)
  | _ => s.expected .pathAfterFrom

def order (s : Stream) : Except Located (Parsed Order) := do
  let (field, s) ← s.identifier .fieldAfterSort
  match s.keyword? with
  | some .asc => .ok (⟨field, .ascending⟩, s.advance)
  | some .desc => .ok (⟨field, .descending⟩, s.advance)
  | _ => .ok (⟨field, .ascending⟩, s)

/-- The largest double that a limit may be written as: `2^64`, the double nearest to the largest
limit. -/
def limitBound : Float := 18446744073709551616.0

/-- A whole number, cut off at the ends of the sixty-four bit range. -/
def limit (s : Stream) : Except Located (Parsed Nat) :=
  match s.peek.kind with
  | .number x true =>
    if x ≤ limitBound then .ok (x.toUInt64.toNat, s.advance) else s.expected .integerAfterLimit
  | _ => s.expected .integerAfterLimit

/-- What stands behind the keyword of a clause. -/
def clause (k : Keyword) (s : Stream) : Except Located (Parsed Clause) :=
  match k with
  | .from => (source s).map fun (path, s) => (.source path, s)
  | .where => (condition s).map fun (c, s) => (.condition c, s)
  | .sort => (order s).map fun (o, s) => (.order o, s)
  | _ => (limit s).map fun (n, s) => (.limit n, s)

/-- The clauses after the shape. Every turn uses up a keyword, so the number of tokens left is fuel
enough. -/
def clauses : (fuel : Nat) → Query → Stream → Except Located Query
  | 0, q, _ => .ok q
  | n + 1, q, s =>
    let t := s.peek
    match t.kind with
    | .eof => .ok q
    | .keyword k =>
      if !k.isClause then .error ⟨.unexpected (.keyword k), t.position⟩
      else if q.has k then .error ⟨.duplicate k, t.position⟩
      else do
        let (c, s) ← clause k s.advance
        clauses n (q.add c) s
    | k => .error ⟨.unexpected k, t.position⟩

/-- The whole query: its shape, the fields of a table, and the clauses. -/
def query (s : Stream) : Except Located Query :=
  match s.keyword?.bind Shape.ofKeyword? with
  | none => s.expected .shape
  | some shape => do
    let (fields, s) ← fields? shape s.advance
    clauses s.items.length { Query.bare shape with fields } s

end Parse

/-- The query that a token stream spells. -/
def ofTokens (tokens : List Token) : Except Located Query := do
  Parse.query (← Stream.ofTokens tokens)

/-- The query that a text spells; a fault is reported with the text around it. -/
def parse (text : String) : Except Error Query :=
  match tokenize text >>= ofTokens with
  | .ok q => .ok q
  | .error fault => .error ((Error.ofFault fault).withSource text)

end Slipbox.Query
