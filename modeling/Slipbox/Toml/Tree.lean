import Slipbox.Toml.Value

/-! The tree of tables that the lines of a TOML text describe. The pairs below a header are members
of the table at its path. No table has two headers, and a header in double brackets opens a further
element of an array. -/

namespace Slipbox.Toml

/-- A header and the pairs below it. The pairs above all headers have an empty path. -/
structure Section where
  path : List String
  array : Bool
  pairs : Members

/-- Adds a line to the sections before it, of which the last one comes first. -/
def addLine? : List Section → Line → Option (List Section)
  | ss, .header path array => some (⟨path, array, []⟩ :: ss)
  | s :: ss, .pair path value => (enter? value path s.pairs).map fun pairs => { s with pairs } :: ss
  | [], .pair path value => (enter? value path []).map fun pairs => [⟨[], false, pairs⟩]

namespace Section

/-- The section as the table `name` sees it, if it lies within that. -/
def within? (name : String) (s : Section) : Option Section :=
  match s.path with
  | first :: path => if first = name then some { s with path } else none
  | [] => none

/-- Whether the section starts an element of the array that it is seen from. -/
def opensElement (s : Section) : Bool :=
  s.array && s.path.isEmpty

end Section

/-- The sections of an array, element by element; each element is a table of its own. -/
def elements (ss : List Section) : List (List Section) :=
  (ss.splitBy fun _ s => !s.opensElement).map fun element =>
    match element with
    | first :: rest => { first with array := false } :: rest
    | [] => []

/-- The members of the table that some sections describe. Its depth bounds the lengths of their
paths. -/
def table? (depth : Nat) (ss : List Section) : Option Members :=
  let own := ss.filter fun s => s.path.isEmpty
  if 1 < own.length || own.any Section.array then none
  else
    match depth with
    | 0 => some (own.flatMap Section.pairs)
    | depth + 1 => do
      let names := (ss.filterMap fun s => s.path.head?).eraseDups
      let tables ← names.mapM fun name => do
        let inner := ss.filterMap (Section.within? name)
        if inner.head?.any Section.opensElement then
          let items ← (elements inner).mapM (table? depth)
          some (name, .array (items.map .table))
        else some (name, .table (← table? depth inner))
      some (own.flatMap Section.pairs ++ tables)

/-- The members of the table that a whole text describes; a name may occur more than once among
them. -/
def parse? (text : List Char) : Option Members := do
  let ss ← (← lines? text).foldlM addLine? []
  table? ((ss.map fun s => s.path.length).foldl max 0) ss.reverse

end Slipbox.Toml
