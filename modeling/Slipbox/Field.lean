/-! The properties of a note that a query may name. Nothing else reaches a column of the index. -/

namespace Slipbox

inductive Field where
  | path | title | type | created | modified | source | confidence | verified | tags | content
  deriving DecidableEq, Repr

/-- How the stored value of a field is shown. -/
inductive FieldKind where
  | text | number | boolean | list
  deriving DecidableEq, Repr

namespace Field

def all : List Field :=
  [.path, .title, .type, .created, .modified, .source, .confidence, .verified, .tags, .content]

/-- The fields of a query that names none, beside path and title. -/
def defaults : List Field :=
  [.type, .created, .modified, .tags]

def name : Field → String
  | .path => "path"
  | .title => "title"
  | .type => "type"
  | .created => "created"
  | .modified => "modified"
  | .source => "source"
  | .confidence => "confidence"
  | .verified => "verified"
  | .tags => "tags"
  | .content => "content"

/-- Second names of some fields. -/
def aliases : List (String × Field) :=
  [("file.path", .path), ("file.ctime", .created), ("file.mtime", .modified), ("file.tags", .tags)]

/-- Every accepted name, in the order in which messages list them. -/
def names : List (String × Field) :=
  all.map (fun f => (f.name, f)) ++ aliases

def supported : List String :=
  names.map (·.1)

/-- The field of a name or alias in any ASCII letter case. -/
def ofName? (s : String) : Option Field :=
  let small := String.ofList (s.toList.map Char.toLower)
  (names.find? fun entry => entry.1 == small).map (·.2)

/-- Whether the field is a column of its own. The tags are kept apart, several to a note. -/
def isColumn : Field → Bool
  | .tags => false
  | _ => true

def kind : Field → FieldKind
  | .confidence => .number
  | .verified => .boolean
  | .tags => .list
  | _ => .text

end Field

end Slipbox
