import Slipbox.Index.Tags
import Slipbox.Query.Parse
import Slipbox.Query.Report
import Slipbox.Query.Translate
import Slipbox.Sql.Limits

/-! Running a query on an index: its SQL is read and, unless it goes beyond a limit, evaluated on
the tables of the index; the values of each row become the cells of a report, and the tags of its
notes are fetched behind them. -/

namespace Slipbox.Query

inductive Failure where
  | malformed (e : Error)
  | field (e : FieldError)
  | statement

/-- The cell of a stored value. -/
def cell (kind : FieldKind) : Sql.Value → Cell
  | .null => .null
  | .integer n => if kind = .boolean then .bool (n != 0) else .number (Float.ofInt n)
  | .real x => .number x
  | .text s => .text s

/-- The cells of a row whose values belong to the columns. -/
def cells (columns : List Field) (values : List Sql.Value) : Row :=
  List.zipWith (fun (f : Field) v => (f.name, cell f.kind v)) columns values

namespace Translation

/-- The key of a row's note, which stands before the values of the columns. -/
def keyOf : List Sql.Value → Nat
  | .integer id :: _ => id.toNat
  | _ => 0

/-- The rows with the tags of their notes behind the other cells. Each note's tags are taken out of
what has been fetched. -/
def withTags : List (Nat × Row) → TagsByNote → List Row
  | [], _ => []
  | (note, cells) :: rest, tags =>
    (cells ++ [(Field.tags.name, .list (tags.get note))]) :: withTags rest (tags.erase note)

/-- The rows of the report; the tags are fetched once the selected notes are known. -/
def rows (t : Translation) (q : Sql.Select) (tables : Sql.Tables) : List Row :=
  let fetched := (q.run t.params tables).map fun values =>
    (keyOf values, cells t.columns values.tail)
  if t.includesTags then withTags fetched (.ofNotes tables.tags (fetched.map (·.1)))
  else fetched.map (·.2)

end Translation

/-- Runs a query; `defaultLimit` caps one without a limit of its own. -/
def run (q : Query) (ix : Index) (defaultLimit : Nat) : Except Failure Report :=
  match translate q defaultLimit with
  | .error e => .error (.field e)
  | .ok t =>
    match Sql.Select.ofText? t.sql with
    | none => .error .statement
    | some s =>
      if s.isRefused t.params (.ofIndex ix) then .error .statement
      else .ok ⟨q.shape, t.fields.map Field.name, t.rows s (.ofIndex ix)⟩

/-- Reads and runs a query. -/
def runText (text : String) (ix : Index) (defaultLimit : Nat) : Except Failure Report :=
  match parse text with
  | .error e => .error (.malformed e)
  | .ok q => run q ix defaultLimit

end Slipbox.Query
