import Slipbox.Text.Blank

/-! Paths: names with slashes between them. -/

namespace Slipbox.Path

/-- The names in a path. Empty ones and single points name nothing. -/
def names (path : List Char) : List (List Char) :=
  (Text.pieces (· == '/') path).filter fun p => !(p.isEmpty || p == ['.'])

/-- The last name, unless it leads upwards. -/
def fileName? (path : List Char) : Option (List Char) :=
  (names path).getLast?.filter (· != ['.', '.'])

/-- A file name before its last point, and what follows that. A name that starts with its only point
has no extension. -/
def splitExtension (name : List Char) : List Char × Option (List Char) :=
  match name.reverse.dropWhile (· != '.') with
  | _ :: stem@(_ :: _) => (stem.reverse, some (name.reverse.takeWhile (· != '.')).reverse)
  | _ => (name, none)

def extension? (path : List Char) : Option (List Char) :=
  (fileName? path).bind fun name => (splitExtension name).2

def isAbsolute (path : List Char) : Bool :=
  path.head? == some '/'

/-- A path as seen from `root`; an absolute one is kept. -/
def join (root path : List Char) : List Char :=
  if isAbsolute path || root.isEmpty then path
  else if root.getLast? = some '/' then root ++ path
  else root ++ '/' :: path

/-- The path without what names nothing at its start. -/
def fromHere : List Char → List Char
  | '.' :: '/' :: cs => fromHere cs
  | '/' :: cs => fromHere cs
  | cs => cs

end Slipbox.Path
