import Slipbox.Config
import Slipbox.Vault.Entry
import Slipbox.Vault.Ignore

/-! The scan of a vault for notes. Hidden entries and those that ignore files rule out are passed
over: `.ignore` files count everywhere, and those of a repository from its root downwards. -/

namespace Slipbox.Vault

/-- The rules that a directory adds for all entries below it. -/
structure RuleSet where
  ignore : List Rule
  repository : List Rule
  excluded : List Rule
  /-- Whether a repository has its root here. -/
  isRoot : Bool

namespace RuleSet

private def rulesAt (e : Entry) (names : List String) : List Rule :=
  match e.at? names with
  | some (.file bytes _) => rulesOf bytes.toList
  | _ => []

def ofDirectory (e : Entry) : RuleSet :=
  { ignore := rulesAt e [".ignore"]
    repository := rulesAt e [".gitignore"]
    excluded := rulesAt e [".git", "info", "exclude"]
    isRoot := (e.child? ".git").isSome }

end RuleSet

/-- A directory that lies above an entry, with its rules and the names from it to the entry's own
directory. -/
structure Level where
  rules : RuleSet
  below : List String

/-- The levels of the entries in a directory of that name. -/
def descend (levels : List Level) (name : String) (e : Entry) : List Level :=
  ⟨RuleSet.ofDirectory e, []⟩ :: levels.map fun l => { l with below := l.below ++ [name] }

/-- What the nearest level whose rules speak of an entry says. -/
def ruling? (select : RuleSet → List Rule) (levels : List Level) (name : String)
    (isDirectory : Bool) : Option Verdict :=
  levels.findSome? fun l =>
    verdict? (select l.rules) ("/".intercalate (l.below ++ [name])).toUTF8.toList isDirectory

/-- The levels of the repository that an entry belongs to. -/
def repositoryLevels (levels : List Level) : List Level :=
  if levels.any fun l => l.rules.isRoot then
    levels.take (levels.findIdx (fun l => l.rules.isRoot) + 1)
  else []

/-- Whether the scan passes an entry over. A rule that keeps an entry keeps a hidden one too. -/
def isPassedOver (levels : List Level) (name : String) (isDirectory : Bool) : Bool :=
  let inRepository := repositoryLevels levels
  let found := (ruling? RuleSet.ignore levels name isDirectory).or <|
    (ruling? RuleSet.repository inRepository name isDirectory).or <|
    ruling? RuleSet.excluded inRepository name isDirectory
  match found with
  | some verdict => verdict == .ignore
  | none => name.toList.head? == some '.'

mutual

/-- The files in an entry of that name, with their names from the vault on; `levels` are those of
the entries beside it. -/
def Entry.filesFrom (levels : List Level) (above : List String) (name : String) :
    Entry → List (List String × Entry)
  | .directory entries =>
    filesWithin (descend levels name (.directory entries)) (above ++ [name]) entries
  | e => [(above ++ [name], e)]

/-- The files among some entries of a directory that the scan does not pass over. -/
def filesWithin (levels : List Level) (above : List String) :
    List (String × Entry) → List (List String × Entry)
  | [] => []
  | (name, e) :: rest =>
    (if isPassedOver levels name e.isDirectory then [] else e.filesFrom levels above name) ++
      filesWithin levels above rest

end

/-- The levels of the entries in the directory that names lead to. -/
def levelsAt (root : Entry) : List String → List Level
  | [] => [⟨RuleSet.ofDirectory root, []⟩]
  | name :: names =>
    let above : Level := ⟨RuleSet.ofDirectory root, name :: names⟩
    (match root.child? name with
      | some e => levelsAt e names
      | none => []) ++ [above]

/-- The notes of the vault that `base` leads to, with their paths in it, in the order of these. -/
def scan (root : Entry) (base : List String) (config : Config) : List (String × Entry) :=
  match root.at? base with
  | some (.directory entries) =>
    let files := filesWithin (levelsAt root base) [] entries
    let notes := (files.map fun f => ("/".intercalate f.1, f.2)).filter fun f => config.isNote f.1
    notes.mergeSort fun a b => a.1 ≤ b.1
  | _ => []

end Slipbox.Vault
