import Slipbox.Command.Run
import Slipbox.Index.Archive

/-! The command line. The files that a command may look at are read first, then the command runs on
them, and last the index goes back to its file. -/

namespace Slipbox.Program

open Vault (Entry Location)

def usage : String :=
  "Usage: slipbox [--vault DIR] [--verbose] COMMAND\n\n" ++
    "Commands: index, query TEXT [--json], links PATH, backlinks PATH,\n" ++
    "  traverse PATH [--direction WORD] [-d DEPTH], related PATH [-m WORD] [-l LIMIT],\n" ++
    "  orphans [-k WORD] [-p PREFIX], broken [-p PREFIX], path FROM TO [-d DEPTH],\n" ++
    "  hubs [-l LIMIT], note PATH\n"

def pathOf (names : List String) : String :=
  "/" ++ "/".intercalate names

def namesOf (path : String) : List String :=
  (Path.names path.toList).map String.ofList

/-- The path without links; the path itself if nothing is there. -/
def resolve (path : String) : IO String := do
  try return (← IO.FS.realPath path).toString
  catch _ => return path

def isThere (path : String) : IO Bool := do
  try
    let _ ← IO.FS.realPath path
    return true
  catch _ => return false

def isDirectory (path : String) : IO Bool := do
  try
    let info ← (← IO.FS.realPath path).metadata
    return info.type == .dir
  catch _ => return false

/-- The file at a path, if there is one that can be read. -/
def readFile (path : String) : IO (Option Entry) := do
  try
    let bytes ← IO.FS.readBinFile path
    let info ← (← IO.FS.realPath path).metadata
    return some (.file bytes info.modified.sec)
  catch _ => return none

/-- Adds the file at a path to a directory, under a list of names. -/
def addFile (path : String) (names : List String) (e : Entry) : IO Entry := do
  match ← readFile path with
  | some file => return (e.write? file names).toOption.getD e
  | none => return e

/-- The ignore files of a directory alone. -/
def readRules (path : String) : IO Entry := do
  let mut e := Entry.empty
  if ← isThere (path ++ "/.git") then
    e := (e.makeDirectory? [".git"]).toOption.getD e
  for names in [[".ignore"], [".gitignore"], [".git", "info", "exclude"]] do
    e ← addFile (path ++ pathOf names) names e
  return e

/-- All that a directory holds, but of a repository's own data only its rules. -/
partial def readTree (path : String) : IO Entry := do
  let mut e ← readRules path
  for item in ← (← IO.FS.realPath path).readDir do
    let name := item.fileName
    if name != ".git" then
      match (← item.path.symlinkMetadata).type with
      | .dir => e := (Entry.put? (← readTree (path ++ "/" ++ name)) [name] e).toOption.getD e
      | .file => e ← addFile (path ++ "/" ++ name) [name] e
      | _ => pure ()
  return e

/-- The vault at the end of some names, with the directories above it and their rules. -/
def readVault (above : List String) : List String → IO Entry
  | [] => readTree (pathOf above)
  | name :: names => do
    let e ← readRules (pathOf above)
    let here := above ++ [name]
    if ← isDirectory (pathOf here) then
      return (Entry.put? (← readVault here names) [name] e).toOption.getD e
    else addFile (pathOf here) [name] e

/-- The location with the index that its file on disk holds. -/
def readIndex (l : Location) (file : List String) : IO Location := do
  match ← readFile (pathOf file) with
  | some (.file bytes modified) =>
    let kept := (String.fromUTF8? bytes).bind Index.decode?
    let e := match kept with
      | some ix => Entry.index ix
      | none => .file bytes modified
    return { l with root := (Entry.put? e file l.root).toOption.getD l.root }
  | _ => return l

def writeIndex (l : Location) (file : List String) : IO Unit := do
  match l.root.at? file with
  | some (.index ix) =>
    IO.FS.createDirAll (pathOf file.dropLast)
    IO.FS.writeFile (pathOf file) ix.encode
  | _ => return ()

/-- Runs a command on the vault in a directory. -/
def runIn (vault : String) (cmd : Command) : IO Command.Outcome := do
  let here ← resolve "."
  let asked := String.ofList (Path.join here.toList vault.toList)
  let names := namesOf (← resolve asked)
  let l : Location := ⟨← readVault [] names, names⟩
  let file := (l.config?.toOption.bind fun c => l.names? c.indexPath).getD []
  let l ← readIndex l file
  let (l, outcome) := cmd.run (pathOf names) l
  writeIndex l file
  return outcome

end Slipbox.Program

def main (arguments : List String) : IO UInt32 := do
  match Slipbox.Command.Request.ofArguments? arguments with
  | none =>
    IO.eprint Slipbox.Program.usage
    return 2
  | some .help =>
    IO.print Slipbox.Program.usage
    return 0
  | some (.run vault cmd) =>
    let outcome ← Slipbox.Program.runIn vault cmd
    outcome.lines.forM fun line => IO.eprintln line
    IO.print outcome.output
    return outcome.exit.toUInt32
