import Slipbox.Query.Tree
import Slipbox.Text.Blank

/-! Results of queries and how they are written: a table, a list of titles with paths, or a
checklist. A pipe within a cell is escaped and a line feed becomes a space. -/

namespace Slipbox.Query

inductive Cell where
  | null
  | bool (b : Bool)
  | number (x : Float)
  | text (s : String)
  | list (items : List String)

namespace Cell

def isNull : Cell → Bool
  | .null => true
  | _ => false

def isTrue : Cell → Bool
  | .bool true => true
  | _ => false

/-- The cell as bare text. -/
def shown : Cell → String
  | .null => ""
  | .bool b => toString b
  | .number x => Decimal.plain x
  | .text s => s
  | .list items => ", ".intercalate items

end Cell

/-- The cells of a row, each under the name of its field. -/
abbrev Row := List (String × Cell)

namespace Row

def get? (r : Row) (field : String) : Option Cell :=
  (r.find? fun entry => entry.1 == field).map (·.2)

/-- A cell as it stands in the written result. -/
def written (r : Row) (field : String) : String :=
  match r.get? field with
  | none => ""
  | some c =>
    Text.onChars (fun cs => Text.replace '\n' [' '] (Text.replace '|' ['\\', '|'] cs)) c.shown

end Row

structure Report where
  shape : Shape
  fields : List String
  rows : List Row

namespace Report

/-- Cells between pipes, as one line. -/
def tableLine (cells : List String) : String :=
  "| " ++ " | ".intercalate cells ++ " |\n"

def table (r : Report) : String :=
  tableLine r.fields ++ "|" ++ String.join (r.fields.map fun _ => " --- |") ++ "\n" ++
    String.join (r.rows.map fun row => tableLine (r.fields.map row.written))

def listLine (row : Row) : String :=
  "- " ++ row.written "title" ++ " (" ++ row.written "path" ++ ")\n"

def taskLine (row : Row) : String :=
  let mark := if (row.get? "verified").any Cell.isTrue then "x" else " "
  "- [" ++ mark ++ "] " ++ row.written "title" ++ "\n"

/-- The written result. -/
def text (r : Report) : String :=
  match r.shape with
  | .table => r.table
  | .list => String.join (r.rows.map listLine)
  | .task => String.join (r.rows.map taskLine)

end Report

end Slipbox.Query
