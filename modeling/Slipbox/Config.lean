import Slipbox.Path
import Slipbox.Toml.Tree

/-! The settings of a vault. Each one may be left out, and what is not known is passed over, but a
setting of the wrong kind or one that is given twice makes the whole text wrong. -/

namespace Slipbox

structure Config where
  /-- The extensions of notes; points before them do not count. -/
  extensions : List String := ["md"]
  /-- The file of the index, as seen from the vault. -/
  indexPath : String := ".notegraph/index.db"
  /-- The number of rows that a query without a limit has at most. -/
  defaultLimit : Nat := 100
  defaultDepth : Nat := 2
  relatedLimit : Nat := 10

namespace Config

open Toml (Value)

/-- The values of the given names in a table, or in an array that lists them in their order. A date
has no members. -/
def settings? (names : List String) : Value → Option (List (String × Value))
  | .table members | .dotted members =>
    let known := members.filter fun m => names.contains m.1
    if (known.map (·.1)).Nodup then some known else none
  | .array items => if items.length ≤ names.length then some (names.zip items) else none
  | .date => some []
  | _ => none

def text? : Value → Option String
  | .string s => some s
  | _ => none

def texts? : Value → Option (List String)
  | .array items => items.mapM text?
  | _ => none

def count? : Value → Option Nat
  | .integer n => if 0 ≤ n then some n.toNat else none
  | _ => none

/-- The setting of a name: its default if it is left out, and nothing if it is of the wrong kind. -/
def setting? {α : Type} (settings : List (String × Value)) (name : String) (read : Value → Option α)
    (default : α) : Option α :=
  match settings.lookup name with
  | none => some default
  | some v => read v

/-- Reads settings from TOML text. -/
def parse? (text : String) : Option Config := do
  let top ← settings? ["vault", "index", "query", "graph"] (.table (← Toml.parse? text.toList))
  let vault ← setting? top "vault" (settings? ["extensions"]) []
  let index ← setting? top "index" (settings? ["path"]) []
  let query ← setting? top "query" (settings? ["default_limit"]) []
  let graph ← setting? top "graph" (settings? ["default_depth", "related_limit"]) []
  let default : Config := {}
  some
    { extensions := ← setting? vault "extensions" texts? default.extensions
      indexPath := ← setting? index "path" text? default.indexPath
      defaultLimit := ← setting? query "default_limit" count? default.defaultLimit
      defaultDepth := ← setting? graph "default_depth" count? default.defaultDepth
      relatedLimit := ← setting? graph "related_limit" count? default.relatedLimit }

/-- Whether a file is a note by its extension, in which ASCII letter case does not count. -/
def isNote (c : Config) (path : String) : Bool :=
  (Path.extension? path.toList).any fun ext =>
    c.extensions.any fun want =>
      (want.toList.dropWhile (· == '.')).map Char.toLower == ext.map Char.toLower

/-- The file of the index of the vault at `root`. -/
def indexFile (c : Config) (root : String) : String :=
  Text.onChars (fun root => Path.join root c.indexPath.toList) root

end Config

end Slipbox
