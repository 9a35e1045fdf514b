import Slipbox.Graph.Lookup
import Slipbox.Text.Blank
import Slipbox.Text.Case

/-! What a link means. The target of a link leads to the note whose path it is; failing that, to the
first note whose title it is in any letter case; failing that, to the first note whose path without
extension it is, or ends with behind a slash. A target without a slash is a file name and is
compared with file names only. -/

namespace Slipbox.Graph

/-- Extensions that a target may leave out. -/
def documentExtensions : List String :=
  [".md", ".markdown"]

/-- The text before the extension, unless nothing is left or the extension is not at the end. -/
def withoutExtension? (extension text : List Char) : Option (List Char) :=
  let n := text.length - extension.length
  if extension.length < text.length ∧
      (text.drop n).map Char.toLower = extension.map Char.toLower then
    some (text.take n)
  else none

/-- The text without the first of the document extensions that fits, in any letter case. -/
def stripExtension (text : List Char) : List Char :=
  (documentExtensions.findSome? fun e => withoutExtension? e.toList text).getD text

/-- The part of a path after its last slash. -/
def fileName (path : List Char) : List Char :=
  (path.reverse.takeWhile (· != '/')).reverse

/-- The lower case of a path's last part without extension. -/
def stemKey (path : String) : String :=
  String.ofList (Text.lower (stripExtension (fileName path.toList)))

/-- The lower case of a path without extension. -/
def pathKey (path : String) : String :=
  String.ofList (Text.lower (stripExtension path.toList))

/-- Notes by path, title and file name. A position counts the notes in their given order. -/
structure Resolver where
  paths : List String
  keys : List String
  byPath : Lookup
  byLowerPath : Lookup
  byTitle : Lookup
  byStem : Lookup

namespace Resolver

/-- The resolver of some notes, each given by path and title. -/
def ofNotes (notes : List (String × String)) : Resolver :=
  let paths := notes.map (·.1)
  { paths
    keys := paths.map pathKey
    byPath := .ofList paths
    byLowerPath := .ofList (paths.map Text.lowercase)
    byTitle := .ofList (notes.map fun n => Text.lowercase n.2)
    byStem := .ofList (paths.map stemKey) }

/-- Whether a path without extension is the key, or ends with it behind a slash. -/
def endsAt (key path : List Char) : Bool :=
  path == key || ('/' :: key.dropWhile (· == '/')).isSuffixOf path

/-- The position of the note that a file name or the end of a path leads to. -/
def byName? (r : Resolver) (key : List Char) : Option Nat :=
  if '/' ∈ key then r.keys.findIdx? fun path => endsAt key path.toList
  else r.byStem.first? (String.ofList key)

/-- The position of the note that a target leads to. -/
def position? (r : Resolver) (target : String) : Option Nat :=
  match Text.trim target.toList with
  | [] => none
  | t =>
    let small := Text.lower t
    (r.byPath.first? (String.ofList t)).or
      ((r.byTitle.first? (String.ofList small)).or (r.byName? (stripExtension small)))

/-- The path of the note that a target leads to. -/
def resolve? (r : Resolver) (target : String) : Option String :=
  (r.position? target).bind fun i => r.paths[i]?

/-- The positions, in ascending order, of all notes that a target names by path, title or file name
in any letter case. -/
def mentioned (r : Resolver) (target : String) : List Nat :=
  match Text.lower (Text.trim target.toList) with
  | [] => []
  | small =>
    let key := String.ofList small
    let hits := r.byLowerPath.positions key ++ r.byTitle.positions key ++
      r.byStem.positions (String.ofList (stripExtension small))
    hits.eraseDups.mergeSort

end Resolver

end Slipbox.Graph
