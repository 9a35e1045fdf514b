import Slipbox.Vault.Scan
import Slipbox.Vault.Sync

/-! A vault on disk: its settings, its index and its notes. -/

namespace Slipbox.Vault

/-- Why an index cannot be opened. -/
inductive StoreError where
  | cannotOpen
  | notAnIndex
  deriving DecidableEq, Repr

inductive OpenError where
  | file (e : FileError)
  | config
  | store (e : StoreError)

/-- Where a vault lies: the directory that absolute paths start from, and the names that lead from
it to the vault. -/
structure Location where
  root : Entry
  base : List String

/-- An open index: its settings, and the names that lead to its file. -/
structure Session where
  config : Config
  file : List String
  index : Index

namespace Location

/-- The settings in the vault's own file, if there is one. -/
def config? (l : Location) : Except OpenError Config :=
  match l.root.at? (l.base ++ [".notegraph", "config.toml"]) with
  | none => .ok {}
  | some e =>
    match e.text? with
    | .error e => .error (.file e)
    | .ok text =>
      match Config.parse? text with
      | some c => .ok c
      | none => .error .config

/-- The names that lead to what a path from the vault names. A name and two points behind it cancel
out. -/
def names? (l : Location) (path : String) : Option (List String) :=
  let step (here : List String) (part : List Char) : Option (List String) :=
    if part = ['.', '.'] then here.tail? else some (String.ofList part :: here)
  let start := if Path.isAbsolute path.toList then [] else l.base.reverse
  ((Path.names path.toList).foldlM step start).map List.reverse

/-- Opens the index in a file, which is made if it is not there or empty, with all directories on
the way. -/
def openFile (l : Location) (file : List String) : Except OpenError (Location × Index) := do
  let within := file.dropLast
  let root ← match l.root.at? within with
    | some (.directory _) => .ok l.root
    | some _ => .error (.store .cannotOpen)
    | none => (l.root.makeDirectory? within).mapError .file
  let index ← match root.at? file with
    | none => .ok .empty
    | some (.index ix) => .ok ix
    | some (.file bytes _) => if bytes.isEmpty then .ok .empty else .error (.store .notAnIndex)
    | some (.directory _) => .error (.store .cannotOpen)
  let root ← (Entry.put? (.index index) file root).mapError .file
  .ok ({ l with root }, index)

/-- Opens the vault's index. -/
def openIndex (l : Location) : Except OpenError (Location × Session) := do
  let config ← l.config?
  match l.names? config.indexPath with
  | none => .error (.store .cannotOpen)
  | some file =>
    let (l, index) ← l.openFile file
    .ok (l, { config, file, index })

/-- Whether the vault has an index file. -/
def hasIndex (l : Location) (c : Config) : Bool :=
  ((l.names? c.indexPath).bind l.root.at?).isSome

/-- The notes that the scan finds. -/
def sources (l : Location) (c : Config) : List SourceFile :=
  (scan l.root l.base c).map fun (path, e) =>
    match e with
    | .file bytes modified =>
      { path, bytes := some bytes, times := ⟨none, some (Time.Moment.ofUnix modified)⟩ }
    | _ => { path, bytes := none, times := ⟨none, none⟩ }

/-- Reads the note at a path: its text, or the document that it holds. -/
def note? (l : Location) (path : String) : Except FileError (Option Document) := do
  let text ← (← l.root.find? l.base path).text?
  .ok (Document.parse? path text)

end Location

/-- Keeps what an open index holds in its file, unless the file is gone. -/
def Session.save (s : Session) (root : Entry) : Entry :=
  match root.at? s.file with
  | some (.index _) => (Entry.put? (.index s.index) s.file root).toOption.getD root
  | _ => root

/-- Brings an open index in line with the files of its vault. -/
def Session.sync (s : Session) (l : Location) : Session × SyncStats :=
  let (index, stats) := s.index.sync (l.sources s.config)
  ({ s with index }, stats)

end Slipbox.Vault
