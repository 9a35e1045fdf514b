import Slipbox.Index
import Slipbox.Path

/-! What a vault holds on disk: files and directories, and among them the file of the index. -/

namespace Slipbox.Vault

inductive Entry where
  /-- A file and the time of its last change, in seconds since 1970. -/
  | file (bytes : ByteArray) (modified : Int)
  | index (ix : Index)
  | directory (entries : List (String × Entry))

/-- Why a file cannot be read or written. -/
inductive FileError where
  | missing
  | notDirectory
  | isDirectory
  | notText
  deriving DecidableEq, Repr

def FileError.message : FileError → String
  | .missing => "I/O error: No such file or directory (os error 2)"
  | .notDirectory => "I/O error: Not a directory (os error 20)"
  | .isDirectory => "I/O error: Is a directory (os error 21)"
  | .notText => "I/O error: stream did not contain valid UTF-8"

namespace Entry

def empty : Entry := .directory []

def isDirectory : Entry → Bool
  | .directory _ => true
  | _ => false

def child? (e : Entry) (name : String) : Option Entry :=
  match e with
  | .directory entries => entries.lookup name
  | _ => none

/-- The entry that the names lead to. -/
def at? (e : Entry) : List String → Option Entry
  | [] => some e
  | name :: names => (e.child? name).bind fun c => c.at? names

/-- Binds a name to an entry, in the place of the one that it had. -/
def bind (name : String) (e : Entry) : List (String × Entry) → List (String × Entry)
  | [] => [(name, e)]
  | m :: ms => if m.1 = name then (name, e) :: ms else m :: bind name e ms

/-- Puts an entry where the names lead, with all directories on the way. -/
def put? (new : Entry) : (names : List String) → Entry → Except FileError Entry
  | [], _ => .ok new
  | name :: names, .directory entries => do
    let below ← put? new names ((entries.lookup name).getD .empty)
    .ok (.directory (bind name below entries))
  | _ :: _, _ => .error .notDirectory

/-- Makes the directory that the names lead to, unless it is there. -/
def makeDirectory? (e : Entry) (names : List String) : Except FileError Entry :=
  match e.at? names with
  | some (.directory _) => .ok e
  | some _ => .error .notDirectory
  | none => put? .empty names e

/-- Writes a file. -/
def write? (e : Entry) (file : Entry) (names : List String) : Except FileError Entry :=
  match e.at? names with
  | some (.directory _) => .error .isDirectory
  | _ => put? file names e

/-- Removes what the names lead to. -/
def remove : (names : List String) → Entry → Entry
  | [], e => e
  | [name], .directory entries => .directory (entries.filter fun m => m.1 != name)
  | name :: names, .directory entries =>
    .directory (entries.map fun m => if m.1 = name then (m.1, remove names m.2) else m)
  | _, e => e

/-- Follows a path from where it has come to, of which the last name comes first. A point stays and
two points go up, but either only from a directory, and nothing lies above the root. -/
def follow (root : Entry) (here : List String) :
    (parts : List (List Char)) → Except FileError (List String)
  | [] => .ok here
  | part :: parts =>
    match root.at? here.reverse with
    | some (.directory entries) =>
      if part.isEmpty || part == ['.'] then follow root here parts
      else if part = ['.', '.'] then
        match here with
        | [] => .error .missing
        | _ :: above => follow root above parts
      else
        let name := String.ofList part
        if (entries.lookup name).isSome then follow root (name :: here) parts
        else .error .missing
    | some _ => .error .notDirectory
    | none => .error .missing

/-- The entry at a path from the directory that `base` leads to; an absolute path starts from the
root. -/
def find? (root : Entry) (base : List String) (path : String) : Except FileError Entry := do
  let start := if Path.isAbsolute path.toList then [] else base.reverse
  let names ← follow root start (Text.pieces (· == '/') path.toList)
  match root.at? names.reverse with
  | some e => .ok e
  | none => .error .missing

/-- The text of a file. -/
def text? : Entry → Except FileError String
  | .file bytes _ =>
    match String.fromUTF8? bytes with
    | some s => .ok s
    | none => .error .notText
  | .index _ => .error .notText
  | .directory _ => .error .isDirectory

end Entry

end Slipbox.Vault
