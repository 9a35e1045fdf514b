import Slipbox.Field
import Slipbox.Query.Tree
import Slipbox.Sql.Value

/-! The SQL text of a query and the values of its placeholders. Literals never enter the text: each
fragment carries its own values, in the order of its placeholders. -/

namespace Slipbox.Query

inductive FieldError where
  | unknown (name : String)
  | unsortable (field : Field)
  | unordered (field : Field) (op : CompareOp)

namespace FieldError

def message : FieldError → String
  | .unknown name =>
    s!"Unknown field '{name}'. Supported fields: " ++ ", ".intercalate Field.supported
  | .unsortable field => s!"Field '{field.name}' cannot be used for sorting"
  | .unordered field op => s!"Field '{field.name}' cannot be used with operator '{op.symbol}'"

end FieldError

/-- A piece of SQL and the values of its placeholders. -/
structure Fragment where
  sql : String
  params : List Sql.Value

/-- The SQL of a query, the fields of its result, and those of them that it selects. -/
structure Translation where
  sql : String
  params : List Sql.Value
  fields : List Field
  columns : List Field
  includesTags : Bool

def field (name : String) : Except FieldError Field :=
  match Field.ofName? name with
  | some f => .ok f
  | none => .error (.unknown name)

/-- The text with a backslash before each character that a pattern reads as special. -/
def escapePattern (s : String) : String :=
  String.ofList (s.toList.flatMap fun c =>
    if c == '%' || c == '_' || c == '\\' then ['\\', c] else [c])

/-- The value that a column is compared with. -/
def comparedValue (f : Field) : Literal → Sql.Value
  | .number x => .real x
  | .boolean b => if f = .verified then .integer (if b then 1 else 0) else .text (toString b)
  | .string s => .text s

/-- The test for a tag, in any ASCII letter case. -/
def tagTest (negated : Bool) (value : Literal) : Fragment :=
  let test :=
    "EXISTS (SELECT 1 FROM note_tags t WHERE t.note_id = n.id AND t.tag = ? COLLATE NOCASE)"
  ⟨if negated then "NOT " ++ test else test, [.text value.text]⟩

def Condition.translate : Condition → Except FieldError Fragment
  | .compare name op value => do
    let f ← field name
    if f.isColumn then .ok ⟨s!"n.{f.name} {op.symbol} ?", [comparedValue f value]⟩
    else
      match op with
      | .eq => .ok (tagTest false value)
      | .ne => .ok (tagTest true value)
      | _ => .error (.unordered f op)
  | .contains name value => do
    let f ← field name
    if f.isColumn then
      .ok ⟨s!"n.{f.name} LIKE ? ESCAPE '\\'", [.text ("%" ++ escapePattern value.text ++ "%")]⟩
    else .ok (tagTest false value)
  | .logical op left right => do
    let l ← left.translate
    let r ← right.translate
    .ok ⟨s!"({l.sql}) {op.word} ({r.sql})", l.params ++ r.params⟩

/-- Path and title, then the requested fields in order of first mention, or the default ones. -/
def resolveFields : Option (List String) → Except FieldError (List Field)
  | none => .ok ([.path, .title] ++ Field.defaults)
  | some names =>
    names.foldlM (fun fields name => do
      let f ← field name
      .ok (if f ∈ fields then fields else fields ++ [f])) [.path, .title]

/-- The largest integer that a placeholder can stand for. -/
def maxInteger : Nat := Nat.pow 2 63 - 1

/-- The condition that a path starts with the given text. -/
def sourceTest (path : String) : Fragment :=
  ⟨"substr(n.path, 1, ?) = ?", [.integer (min path.length maxInteger), .text path]⟩

namespace Translation

/-- The field and direction of the order: by default the last modified note comes first. -/
def orderOf : Option Order → Except FieldError (Field × Direction)
  | none => .ok (.modified, .descending)
  | some o => do
    let f ← field o.field
    if f.isColumn then .ok (f, o.direction) else .error (.unsortable f)

def orderText (f : Field) (d : Direction) : String :=
  s!" ORDER BY n.{f.name} {d.word}" ++ if f = .path then "" else ", n.path ASC"

/-- The joined conditions behind `WHERE`. -/
def filterText : List Fragment → String
  | [] => ""
  | fragments => " WHERE " ++ " AND ".intercalate (fragments.map (·.sql))

/-- The selection of the fields' columns from the notes that all fragments admit. The done state is
part of every task list. -/
def assemble (shape : Shape) (named : List Field) (fragments : List Fragment)
    (order : Field × Direction) (limit : Nat) : Translation :=
  let fields := if shape = .task ∧ Field.verified ∉ named then named ++ [.verified] else named
  let columns := fields.filter Field.isColumn
  let selected := "n.id" :: columns.map fun f => s!"n.{f.name}"
  { sql := "SELECT " ++ ", ".intercalate selected ++ " FROM notes n" ++ filterText fragments ++
      orderText order.1 order.2 ++ " LIMIT ?"
    params := fragments.flatMap (·.params) ++ [.integer (min limit maxInteger)]
    fields, columns
    includesTags := .tags ∈ fields }

end Translation

/-- The translation of a query; `defaultLimit` caps a query without a limit of its own. -/
def translate (q : Query) (defaultLimit : Nat) : Except FieldError Translation := do
  let named ← resolveFields q.fields
  let condition ← q.condition.mapM Condition.translate
  let order ← Translation.orderOf q.order
  .ok (.assemble q.shape named (q.source.toList.map sourceTest ++ condition.toList) order
    (q.limit.getD defaultLimit))

end Slipbox.Query
