import Slipbox.Index
import Slipbox.Sql.Like
import Slipbox.Sql.Statement

/-! What a selection yields on an index. Conditions have three truth values: a comparison with null
is neither true nor false, and only rows whose condition is true are selected. -/

namespace Slipbox.Sql

/-- True, false or unknown. -/
abbrev Truth := Option Bool

namespace Truth

def not (a : Truth) : Truth :=
  a.map (! ·)

def and : Truth → Truth → Truth
  | some false, _ | _, some false => some false
  | some true, b => b
  | none, _ => none

def or : Truth → Truth → Truth
  | some true, _ | _, some true => some true
  | some false, b => b
  | none, _ => none

end Truth

/-- The rows of the two tables that a selection reads: the notes and their tags. -/
structure Tables where
  notes : List NoteRow
  tags : List TextRow

def Tables.ofIndex (ix : Index) : Tables :=
  ⟨ix.notes.rows, ix.tags.rows⟩

/-- The rows that the names of a condition refer to. -/
structure Scope where
  note : NoteRow
  tag : Option TextRow

/-- A text that may be absent. -/
def optional : Option String → Value
  | some s => .text s
  | none => .null

def Scope.column (s : Scope) : Column → Value
  | .id => .integer s.note.id
  | .path => .text s.note.info.path
  | .title => .text s.note.info.title
  | .type => optional s.note.info.type
  | .created => optional s.note.info.created
  | .modified => optional s.note.info.modified
  | .source => optional s.note.info.source
  | .confidence =>
    match s.note.info.confidence with
    | some x => .real x
    | none => .null
  | .verified => .integer (if s.note.info.verified then 1 else 0)
  | .content => .text s.note.content
  | .tagNote =>
    match s.tag with
    | some row => .integer row.note
    | none => .null
  | .tag => optional (s.tag.map TextRow.text)

namespace Scalar

def affinity : Scalar → Affinity
  | .column c => c.affinity
  | _ => .none

/-- The value of a scalar. A part of a text is counted in characters, the first of which is number
one, and does not go on behind a null character. -/
def value (params : List Value) (s : Scope) : Scalar → Value
  | .column c => s.column c
  | .param i => (params.getD i .null).bound
  | .integer n => .integer n
  | .string text => .text text
  | .substr text first length =>
    match (text.value params s).text?, first.value params s, length.value params s with
    | some t, .integer i, .integer n =>
      .text (String.ofList (((beforeNull t).drop (i - 1).toNat).take n.toNat))
    | _, _, _ => .null

end Scalar

/-- The affinity under which two scalars are compared: that of a column against anything else. -/
def comparisonAffinity (left right : Affinity) : Affinity :=
  if left = .none then right else left

/-- The truth of a comparison of two values. -/
def compareTruth (op : Comparison) (c : Collation) (a : Affinity) (x y : Value) : Truth :=
  match x.coerce a, y.coerce a with
  | .null, _ | _, .null => none
  | x, y => some (op.holds (x.order c y))

/-- The truth of a pattern test, if the pattern is not too large. -/
def likeTruth (escape : Char) (subject pattern : Value) : Truth :=
  match subject.text?, pattern.text? with
  | some s, some p => some (fits escape (patternChars p) (patternChars s))
  | _, _ => none

namespace Condition

/-- The truth of a condition for the rows in scope. -/
def truth (params : List Value) (tables : Tables) (s : Scope) : Condition → Truth
  | .compare op left right c =>
    compareTruth op c (comparisonAffinity left.affinity right.affinity)
      (left.value params s) (right.value params s)
  | .like subject pattern escape =>
    likeTruth escape (subject.value params s) (pattern.value params s)
  | .existsTag inner =>
    some (tables.tags.any fun row =>
      inner.truth params tables { s with tag := some row } == some true)
  | .not c => (c.truth params tables s).not
  | .and l r => (l.truth params tables s).and (r.truth params tables s)
  | .or l r => (l.truth params tables s).or (r.truth params tables s)

/-- Whether a test for the rows in scope fails, which it does with a pattern that is too large, also
on null. The tests are made from the left, as long as they leave open whether the condition is true.
For which rows the store makes the tests of a conjunction, and in what order, is up to its plan for
the statement; where no pattern is too large none of them fails in any order. -/
def fails (params : List Value) (tables : Tables) (s : Scope) : Condition → Bool
  | .compare .. => false
  | .like _ pattern _ => maxPatternSize < (pattern.value params s).size
  | .existsTag inner =>
    tables.tags.any fun row => inner.fails params tables { s with tag := some row }
  | .not c => c.fails params tables s
  | .and l r =>
    l.fails params tables s ||
      (l.truth params tables s == some true && r.fails params tables s)
  | .or l r =>
    l.fails params tables s ||
      (l.truth params tables s != some true && r.fails params tables s)

end Condition

namespace Select

/-- Whether a row is selected. -/
def keeps (q : Select) (params : List Value) (tables : Tables) (row : NoteRow) : Bool :=
  match q.condition with
  | none => true
  | some c => c.truth params tables ⟨row, none⟩ == some true

/-- The order of two rows by the terms of an order, the first that tells them apart deciding. -/
def before : List (Column × Bool) → NoteRow → NoteRow → Bool
  | [], _, _ => true
  | (c, descending) :: more, a, b =>
    let x := (Scope.mk a none).column c
    let y := (Scope.mk b none).column c
    match if descending then y.order .binary x else x.order .binary y with
    | .lt => true
    | .gt => false
    | .eq => before more a b

/-- The number of rows that a limit admits; a negative limit admits all. -/
def cap (q : Select) (params : List Value) (rows : List NoteRow) : List NoteRow :=
  match q.limit with
  | .integer n => rows.take n
  | .param i =>
    match params.getD i .null with
    | .integer n => if n < 0 then rows else rows.take n.toNat
    | _ => rows
  | _ => rows

/-- The selected rows in order. -/
def rows (q : Select) (params : List Value) (tables : Tables) : List NoteRow :=
  q.cap params ((tables.notes.filter (q.keeps params tables)).mergeSort (before q.order))

/-- The values of the selected columns, row by row. -/
def run (q : Select) (params : List Value) (tables : Tables) : List (List Value) :=
  (q.rows params tables).map fun row => q.columns.map (Scope.mk row none).column

end Select

end Slipbox.Sql
