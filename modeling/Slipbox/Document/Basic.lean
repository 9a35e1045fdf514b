import Slipbox.Document.Body
import Slipbox.Document.Frontmatter
import Slipbox.Path
import Slipbox.Text.Case
import Slipbox.Time
import Slipbox.Yaml.Value

/-! Documents: a text file with properties, a body, tags and links, and the note that the index
keeps of it. -/

namespace Slipbox

structure Document where
  /-- Relative to the vault, with slashes. -/
  path : String
  title : String
  metadata : List (String × Json)
  body : String
  raw : String

namespace Document

/-- The text of a value that is neither null nor a collection. -/
def scalarText? : Json → Option String
  | .string s => some (Text.onChars Text.trim s)
  | .int n => some (toString n)
  | .double x => Decimal.json? x
  | .bool b => some (toString b)
  | _ => none

def property? (metadata : List (String × Json)) (name : String) : Option Json :=
  metadata.lookup name

/-- The text of a property, unless it is empty. -/
def textProperty? (metadata : List (String × Json)) (name : String) : Option String :=
  ((property? metadata name).bind scalarText?).filter fun s => !s.isEmpty

/-- The name of the file without its extension; the path itself if it names no file. -/
def fileStem (path : String) : String :=
  match Path.fileName? path.toList with
  | some name => String.ofList (Path.splitExtension name).1
  | none => path

/-- The properties of a document; `none` for a block that is no YAML. What is no mapping says
nothing. -/
def metadata? : Option (List Char) → Option (List (String × Json))
  | none => some []
  | some block =>
    if (Text.trim block).isEmpty then some []
    else
      match Yaml.parse? block with
      | none => none
      | some (.object members) => some members
      | some _ => some []

/-- Reads a document; `none` if its properties are no YAML. The title is the one stated, or else the
first heading, or else the file's name. -/
def parse? (path raw : String) : Option Document := do
  let (block, body) := split raw.toList
  let metadata ← metadata? block
  let title := (textProperty? metadata "title").getD ((heading? body).getD (fileStem path))
  some ⟨path, title, metadata, String.ofList body, raw⟩

variable (d : Document)

/-- The tags that the properties state: the items of a list, or the pieces of a text between commas
and spaces. -/
def statedTags : List String :=
  match property? d.metadata "tags" with
  | some (.array items) => items.filterMap scalarText?
  | some (.string s) =>
    (Text.pieces (fun c => c == ',' || c == ' ') s.toList).map fun p => String.ofList (Text.trim p)
  | _ => []

/-- The texts whose lower case no earlier one has. -/
def distinctIgnoringCase : List String → List String
  | [] => []
  | s :: ss =>
    s :: (distinctIgnoringCase ss).filter fun t => Text.lowercase t != Text.lowercase s

/-- The stated tags and then the inline ones, without leading hash signs. Of several spellings the
first one stands. -/
def tags : List String :=
  let all := (d.statedTags ++ inlineTags d.body.toList).map
    (Text.onChars fun cs => cs.dropWhile (· == '#'))
  distinctIgnoringCase (all.filter fun s => !s.isEmpty)

def linkTargets : List String :=
  links d.body.toList

/-- The nearest number from zero to one. -/
def clampUnit (x : Float) : Float :=
  if x < 0.0 then 0.0 else if 1.0 < x then 1.0 else x

/-- The stated confidence, from zero to one; a finite number or the text of one. -/
def confidence? : Option Float :=
  let x := match property? d.metadata "confidence" with
    | some (.int n) => some (Float.ofInt n)
    | some (.double x) => some x
    | some (.string s) => Decimal.parse? (Text.trim s.toList)
    | _ => none
  (x.filter Float.isFinite).map clampUnit

/-- Whether the document is marked as verified: by a truth value, a number other than zero, or one
of the words `true` and `yes` in any ASCII letter case. -/
def verified : Bool :=
  match property? d.metadata "verified" with
  | some (.bool b) => b
  | some (.string s) =>
    let word := (Text.trim s.toList).map Char.toLower
    word == "true".toList || word == "yes".toList
  | some (.int n) => n != 0
  | some (.double x) => x != 0.0
  | _ => false

/-- When a file was made and last changed. -/
structure FileTimes where
  created : Option Time.Moment
  modified : Option Time.Moment

/-- The stated time, or else the file's. -/
def time? (name : String) (file : Option Time.Moment) : Option String :=
  ((textProperty? d.metadata name).map Time.normalize).or (file.map Time.Moment.text)

/-- The note that the index keeps of the document. -/
def toNote (times : FileTimes) (contentHash : Option String) : Note :=
  { info := {
      path := d.path
      title := d.title
      type := textProperty? d.metadata "type"
      created := d.time? "created" times.created
      modified := d.time? "modified" times.modified
      source := textProperty? d.metadata "source"
      confidence := d.confidence?
      verified := d.verified }
    content := d.body
    contentHash
    tags := d.tags
    links := d.linkTargets }

end Document

end Slipbox
