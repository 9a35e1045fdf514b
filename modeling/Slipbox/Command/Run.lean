import Slipbox.Answer
import Slipbox.Command.Basic
import Slipbox.Vault.Basic

/-! Running a command on a vault. Answers go out as indented JSON, and a command that fails says why
and exits with code one. -/

namespace Slipbox.Command

open Vault (Location Session OpenError StoreError)

/-- What a run leaves behind: its exit code, what it writes, and the lines that go with that. -/
structure Outcome where
  exit : Nat
  output : String
  lines : List String

namespace Outcome

def printed (output : String) : Outcome := ⟨0, output, []⟩

def json (answer : Json) : Outcome := printed (answer.pretty ++ "\n")

def failed (message : String) : Outcome := ⟨1, "", ["Error: " ++ message]⟩

/-- The outcome of a command line that makes no sense. -/
def misused : Outcome := ⟨2, "", []⟩

end Outcome

/-- Why a query fails. -/
def failureText : Query.Failure → String
  | .malformed e => e.display
  | .field e => e.message
  | .statement => "statement cannot be run"

/-- Why an index cannot be opened; `home` is the path of the vault. -/
def openErrorText (home : String) : OpenError → String
  | .file e => e.message
  | .config => "Invalid config " ++ home ++ "/.notegraph/config.toml"
  | .store .cannotOpen => "unable to open database file"
  | .store .notAnIndex => "file is not a database"

/-- What a query writes. -/
def queryOutcome (ix : Index) (c : Config) (text : String) (json : Bool) : Outcome :=
  match Query.runText text ix c.defaultLimit with
  | .error e => .failed (failureText e)
  | .ok r =>
    if json then .json r.toJson else ⟨0, r.text, [toString r.rows.length ++ " result(s)"]⟩

/-- What a command that only reads the index writes. -/
def answer (ix : Index) (c : Config) (cmd : Command) : Outcome :=
  let g := Graph.ofIndex ix
  match cmd with
  | .index => .printed ""
  | .query text json => queryOutcome ix c text json
  | .links p => .json (Answer.outgoing g p)
  | .backlinks p => .json (Answer.incoming g p)
  | .traverse p direction depth =>
    .json (Answer.traverse g p direction (depth.getD c.defaultDepth))
  | .related p method limit => .json (Answer.related g p method (limit.getD c.relatedLimit))
  | .orphans kind start => .json (Answer.orphans g kind start)
  | .broken start => .json (Answer.broken g start)
  | .path start goal depth => .json (Answer.path g start goal depth)
  | .hubs limit => .json (Answer.hubs g limit)
  | .note p =>
    match g.describe? p with
    | some hub => .json hub.toJson
    | none => .printed ("No note at '" ++ p ++ "'\n")

/-- The report of a run that brought the index up to date. -/
def syncText (stats : Vault.SyncStats) (ix : Index) : String :=
  "✓ Index updated\n  " ++ stats.text ++ "\n  Total: " ++ ix.status.text ++ "\n"

/-- Runs a command on an open index, which was only just made if `fresh` is set: such a one takes in
the vault before it answers. -/
def runOpen (cmd : Command) (fresh : Bool) (l : Location) (s : Session) : Session × Outcome :=
  match cmd with
  | .index =>
    let (s, stats) := s.sync l
    (s, .printed (syncText stats s.index))
  | cmd =>
    if fresh then
      let (s, _) := s.sync l
      let o := answer s.index s.config cmd
      (s, { o with lines := "Indexing vault (first run)..." :: o.lines })
    else (s, answer s.index s.config cmd)

/-- Runs a command on the vault at a location whose path is `home`. -/
def run (cmd : Command) (home : String) (l : Location) : Location × Outcome :=
  let fresh := match l.config? with
    | .ok c => !l.hasIndex c
    | .error _ => false
  match l.openIndex with
  | .error e => (l, .failed (openErrorText home e))
  | .ok (l, s) =>
    let (s, o) := runOpen cmd fresh l s
    ({ l with root := s.save l.root }, o)

end Slipbox.Command
