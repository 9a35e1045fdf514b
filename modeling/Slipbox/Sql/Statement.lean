import Slipbox.Sql.Value

/-! The part of SQL that queries use: a selection from the note table under a condition, in an
order, up to a limit. Here is its structure, and how its text is read: `NOT` binds tightest, then
`AND`, then `OR`, and placeholders are numbered from the left. -/

namespace Slipbox.Sql

/-- The columns of the note table, called `n`, and of the table of tags, called `t`. -/
inductive Column where
  | id | path | title | type | created | modified | source | confidence | verified | content
  | tagNote | tag
  deriving DecidableEq, Repr

namespace Column

def all : List Column :=
  [.id, .path, .title, .type, .created, .modified, .source, .confidence, .verified, .content,
    .tagNote, .tag]

/-- The table's name in a statement, and the column's name in the table. -/
def spelling : Column → String × String
  | .id => ("n", "id")
  | .path => ("n", "path")
  | .title => ("n", "title")
  | .type => ("n", "type")
  | .created => ("n", "created")
  | .modified => ("n", "modified")
  | .source => ("n", "source")
  | .confidence => ("n", "confidence")
  | .verified => ("n", "verified")
  | .content => ("n", "content")
  | .tagNote => ("t", "note_id")
  | .tag => ("t", "tag")

def ofSpelling? (table name : String) : Option Column :=
  all.find? fun c => c.spelling == (table, name)

def affinity : Column → Affinity
  | .id | .verified | .tagNote => .integer
  | .confidence => .real
  | _ => .text

end Column

inductive Comparison where
  | eq | ne | gt | lt | ge | le
  deriving DecidableEq, Repr

def Comparison.holds : Comparison → Ordering → Bool
  | .eq, o => o == .eq
  | .ne, o => o != .eq
  | .gt, o => o == .gt
  | .lt, o => o == .lt
  | .ge, o => o != .lt
  | .le, o => o != .gt

inductive Scalar where
  | column (c : Column)
  | param (index : Nat)
  | integer (n : Nat)
  | string (s : String)
  | substr (text first length : Scalar)

inductive Condition where
  | compare (op : Comparison) (left right : Scalar) (collation : Collation)
  | like (subject pattern : Scalar) (escape : Char)
  | existsTag (inner : Condition)
  | not (c : Condition)
  | and (left right : Condition)
  | or (left right : Condition)

structure Select where
  columns : List Column
  condition : Option Condition
  order : List (Column × Bool)
  limit : Scalar

/-- The smallest pieces of a statement. -/
inductive Lexeme where
  | word (w : String)
  | number (n : Nat)
  | string (s : String)
  | param (index : Nat)
  | lparen | rparen | comma | dot
  | comparison (op : Comparison)
  deriving DecidableEq

namespace Lexeme

def isWordStart (c : Char) : Bool :=
  c.isAlpha || c == '_'

def isWordChar (c : Char) : Bool :=
  c.isAlphanum || c == '_'

/-- The pieces of a text in which `params` placeholders stand before. -/
def scan (params : Nat) (cs : List Char) : Option (List Lexeme) :=
  match cs with
  | [] => some []
  | ' ' :: cs => scan params cs
  | '(' :: cs => (scan params cs).map (.lparen :: ·)
  | ')' :: cs => (scan params cs).map (.rparen :: ·)
  | ',' :: cs => (scan params cs).map (.comma :: ·)
  | '.' :: cs => (scan params cs).map (.dot :: ·)
  | '?' :: cs => (scan (params + 1) cs).map (.param params :: ·)
  | '!' :: '=' :: cs => (scan params cs).map (.comparison .ne :: ·)
  | '>' :: '=' :: cs => (scan params cs).map (.comparison .ge :: ·)
  | '<' :: '=' :: cs => (scan params cs).map (.comparison .le :: ·)
  | '=' :: cs => (scan params cs).map (.comparison .eq :: ·)
  | '>' :: cs => (scan params cs).map (.comparison .gt :: ·)
  | '<' :: cs => (scan params cs).map (.comparison .lt :: ·)
  | '\'' :: cs =>
    match h : cs.dropWhile (· != '\'') with
    | [] => none
    | _ :: rest =>
      have : rest.length < cs.length := by
        have := (List.dropWhile_sublist (l := cs) (· != '\'')).length_le
        rw [h, List.length_cons] at this
        omega
      (scan params rest).map (.string (String.ofList (cs.takeWhile (· != '\''))) :: ·)
  | c :: cs =>
    have := (List.dropWhile_sublist (l := cs) isWordChar).length_le
    have := (List.dropWhile_sublist (l := cs) Char.isDigit).length_le
    if isWordStart c then
      (scan params (cs.dropWhile isWordChar)).map
        (.word (String.ofList (c :: cs.takeWhile isWordChar)) :: ·)
    else if c.isDigit then
      (scan params (cs.dropWhile Char.isDigit)).map
        (.number (Decimal.digitsValue (c :: cs.takeWhile Char.isDigit)) :: ·)
    else none
  termination_by cs.length

end Lexeme

/-- A part of a statement and the pieces after it. -/
abbrev Parsed (α : Type) := α × List Lexeme

namespace Read

/-- The rest after one given piece. -/
def one (l : Lexeme) : List Lexeme → Option (List Lexeme)
  | x :: rest => if x = l then some rest else none
  | [] => none

/-- The rest after some given words. -/
def words : List String → List Lexeme → Option (List Lexeme)
  | [], rest => some rest
  | w :: ws, rest => (one (.word w) rest).bind (words ws)

def column : List Lexeme → Option (Parsed Column)
  | .word table :: .dot :: .word name :: rest =>
    (Column.ofSpelling? table name).map fun c => (c, rest)
  | _ => none

/-- A scalar without a function call. -/
def simple : List Lexeme → Option (Parsed Scalar)
  | .param i :: rest => some (.param i, rest)
  | .number n :: rest => some (.integer n, rest)
  | .string s :: rest => some (.string s, rest)
  | rest => (column rest).map fun (c, rest) => (.column c, rest)

def scalar : List Lexeme → Option (Parsed Scalar)
  | .word "substr" :: rest => do
    let rest ← one .lparen rest
    let (text, rest) ← simple rest
    let rest ← one .comma rest
    let (first, rest) ← simple rest
    let rest ← one .comma rest
    let (length, rest) ← simple rest
    let rest ← one .rparen rest
    some (.substr text first length, rest)
  | rest => simple rest

def collation : List Lexeme → Parsed Collation
  | .word "COLLATE" :: .word "NOCASE" :: rest => (.nocase, rest)
  | rest => (.binary, rest)

/-- A comparison of two scalars, or a pattern test. -/
def test (pieces : List Lexeme) : Option (Parsed Condition) := do
  let (left, rest) ← scalar pieces
  match rest with
  | .comparison op :: rest => do
    let (right, rest) ← scalar rest
    let (c, rest) := collation rest
    some (.compare op left right c, rest)
  | .word "LIKE" :: rest => do
    let (pattern, rest) ← scalar rest
    match rest with
    | .word "ESCAPE" :: .string s :: rest =>
      match s.toList with
      | [e] => some (.like left pattern e, rest)
      | _ => none
    | _ => none
  | _ => none

/-- A condition that no `AND` or `OR` joins; `inner` reads what parentheses enclose. -/
def primary (inner : List Lexeme → Option (Parsed Condition)) :
    List Lexeme → Option (Parsed Condition)
  | .word "NOT" :: .word "EXISTS" :: rest => do
    let (c, rest) ← subquery rest
    some (.not (.existsTag c), rest)
  | .word "EXISTS" :: rest => do
    let (c, rest) ← subquery rest
    some (.existsTag c, rest)
  | .lparen :: rest => do
    let (c, rest) ← inner rest
    some (c, ← one .rparen rest)
  | rest => test rest
where
  subquery (rest : List Lexeme) : Option (Parsed Condition) := do
    let rest ← one .lparen rest
    let rest ← words ["SELECT"] rest
    let rest ← one (.number 1) rest
    let rest ← words ["FROM", "note_tags", "t", "WHERE"] rest
    let (c, rest) ← inner rest
    some (c, ← one .rparen rest)

/-- More items behind the word, grouped to the left. -/
def chainFrom (w : String) (join : Condition → Condition → Condition)
    (item : List Lexeme → Option (Parsed Condition)) :
    (fuel : Nat) → Condition → List Lexeme → Option (Parsed Condition)
  | n + 1, left, .word v :: rest =>
    if v = w then do
      let (right, rest) ← item rest
      chainFrom w join item n (join left right) rest
    else some (left, .word v :: rest)
  | _, left, rest => some (left, rest)

/-- One or more items joined by the word. Every turn uses it up, so the number of pieces left is
fuel enough. -/
def chain (w : String) (join : Condition → Condition → Condition)
    (item : List Lexeme → Option (Parsed Condition)) (pieces : List Lexeme) :
    Option (Parsed Condition) := do
  let (left, rest) ← item pieces
  chainFrom w join item rest.length left rest

/-- A condition whose parentheses nest less than `depth` deep. -/
def conditionWithin : (depth : Nat) → List Lexeme → Option (Parsed Condition)
  | 0, _ => none
  | d + 1, pieces => chain "OR" .or (chain "AND" .and (primary (conditionWithin d))) pieces

/-- A condition. Every level of parentheses uses up a piece, so the depth is never reached. -/
def condition (pieces : List Lexeme) : Option (Parsed Condition) :=
  conditionWithin (pieces.length + 1) pieces

/-- Columns behind commas. -/
def moreColumns : List Lexeme → Option (Parsed (List Column))
  | .comma :: .word table :: .dot :: .word name :: rest => do
    let c ← Column.ofSpelling? table name
    let (cs, rest) ← moreColumns rest
    some (c :: cs, rest)
  | rest => some ([], rest)

/-- A column and its direction, true for descending. -/
def orderTerm (pieces : List Lexeme) : Option (Parsed (Column × Bool)) := do
  let (c, rest) ← column pieces
  match rest with
  | .word "ASC" :: rest => some ((c, false), rest)
  | .word "DESC" :: rest => some ((c, true), rest)
  | _ => none

def order (pieces : List Lexeme) : Option (Parsed (List (Column × Bool))) := do
  let (first, rest) ← orderTerm pieces
  match rest with
  | .comma :: rest => do
    let (second, rest) ← orderTerm rest
    some ([first, second], rest)
  | _ => some ([first], rest)

def filter : List Lexeme → Option (Parsed (Option Condition))
  | .word "WHERE" :: rest => do
    let (c, rest) ← condition rest
    some (some c, rest)
  | rest => some (none, rest)

def select (pieces : List Lexeme) : Option Select := do
  let rest ← words ["SELECT"] pieces
  let (first, rest) ← column rest
  let (more, rest) ← moreColumns rest
  let rest ← words ["FROM", "notes", "n"] rest
  let (condition, rest) ← filter rest
  let rest ← words ["ORDER", "BY"] rest
  let (order, rest) ← order rest
  let rest ← words ["LIMIT"] rest
  match ← simple rest with
  | (limit, []) => some ⟨first :: more, condition, order, limit⟩
  | _ => none

end Read

/-- The condition that a text spells. -/
def Condition.ofText? (text : String) : Option Condition := do
  match ← Read.condition (← Lexeme.scan 0 text.toList) with
  | (c, []) => some c
  | _ => none

/-- The selection that a text spells. -/
def Select.ofText? (text : String) : Option Select := do
  Read.select (← Lexeme.scan 0 text.toList)

end Slipbox.Sql
