import Slipbox.Glob
import Slipbox.Text.Blank

/-! Ignore files: one rule a line, by which the files and directories below the file's own directory
are passed over or, after an exclamation mark, kept. The last rule that speaks of an entry decides.
-/

namespace Slipbox.Vault

/-- What rules say of an entry. -/
inductive Verdict where
  | ignore | keep
  deriving DecidableEq, Repr

structure Rule where
  pattern : List Glob.Part
  verdict : Verdict
  directoriesOnly : Bool

namespace Rule

/-- The pattern of a rule. One without a slash is meant for every directory, and one for all that a
directory holds does not speak of the directory. -/
def patternText (rooted : Bool) (cs : List Char) : List Char :=
  let pattern :=
    if rooted || cs.contains '/' || cs == ['*', '*'] then cs else '*' :: '*' :: '/' :: cs
  if (Text.before? "/**".toList pattern).isSome then pattern ++ ['/', '*'] else pattern

/-- The line without a slash at its end, which restricts a rule to directories. -/
def splitDirectoryMark (cs : List Char) : Bool × List Char :=
  match Text.before? ['/'] cs with
  | none => (false, cs)
  | some cs => (true, (Text.before? ['\\'] cs).getD cs)

/-- Reads a line, unless it is empty, a comment or no pattern. White space at the end does not count
unless a backslash protects it. -/
def parse? (line : List Char) : Option Rule :=
  if line.head? = some '#' then none
  else
    let line := if (Text.before? ['\\', ' '] line).isSome then line else Text.trimEnd line
    let rule (verdict : Verdict) (rooted : Bool) (cs : List Char) : Option Rule :=
      let (directoriesOnly, cs) := splitDirectoryMark cs
      (Glob.parse? (patternText rooted cs)).map fun pattern => { pattern, verdict, directoriesOnly }
    match line with
    | [] => none
    | '\\' :: '!' :: cs => rule .ignore false ('!' :: cs)
    | '\\' :: '#' :: cs => rule .ignore false ('#' :: cs)
    | '!' :: '/' :: cs => rule .keep true cs
    | '!' :: cs => rule .keep false cs
    | '/' :: cs => rule .ignore true cs
    | cs => rule .ignore false cs

/-- Whether the rule speaks of the entry at a path. -/
def appliesTo (r : Rule) (path : Glob.Bytes) (isDirectory : Bool) : Bool :=
  (!r.directoriesOnly || isDirectory) && Glob.isMatch r.pattern path

end Rule

/-- The rules of an ignore file, up to a line that is no text. A byte order mark may stand first. -/
def rulesOf (file : Glob.Bytes) : List Rule :=
  let lines := (Text.pieces (· == 0x0a) file).map fun line => String.fromUTF8? ⟨line.toArray⟩
  let texts := (lines.takeWhile Option.isSome).filterMap fun line => line.map String.toList
  match texts with
  | [] => []
  | first :: rest => (first.dropWhile (· == '\ufeff') :: rest).filterMap Rule.parse?

/-- What the last rule that speaks of an entry says. -/
def verdict? (rules : List Rule) (path : Glob.Bytes) (isDirectory : Bool) : Option Verdict :=
  (rules.reverse.find? fun r => r.appliesTo path isDirectory).map Rule.verdict

end Slipbox.Vault
