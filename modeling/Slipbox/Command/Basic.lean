import Slipbox.Command.Options
import Slipbox.Graph.Names

/-! The commands that can be given for a vault, and how they are read from a command line. -/

namespace Slipbox

/-- A command; depths and limits that are left out are those of the settings. -/
inductive Command where
  | index
  | query (text : String) (json : Bool)
  | links (path : String)
  | backlinks (path : String)
  | traverse (path : String) (direction : Graph.Direction) (depth : Option Nat)
  | related (path : String) (method : Graph.Method) (limit : Option Nat)
  | orphans (kind : Graph.OrphanKind) (start : Option String)
  | broken (start : Option String)
  | path (start goal : String) (depth : Nat)
  | hubs (limit : Nat)
  | note (path : String)

namespace Command

/-- A whole command line: the vault and what to do there, or a question for help. -/
inductive Request where
  | help
  | run (vault : String) (command : Command)

/-- An unsigned number of sixty-four bits; a plus sign may stand before it. -/
def number? (s : String) : Option Nat :=
  let ds := match s.toList with
    | '+' :: ds => ds
    | ds => ds
  if ds.isEmpty || !ds.all Char.isDigit then none
  else
    let n := ds.foldl (fun n c => 10 * n + (c.toNat - '0'.toNat)) 0
    if n < Nat.pow 2 64 then some n else none

/-- The value of an option; its default if it is left out, nothing if it cannot be read. -/
def Given.value? {α : Type} (g : Given) (name : String) (default : α) (read : String → Option α) :
    Option α :=
  match g.options.lookup name with
  | none => some default
  | some v => read v

def valued (name : String) (letter : Char) : OptionSpec := ⟨name, some letter, true⟩

/-- What every command takes besides its own options. -/
def helpOption : OptionSpec := ⟨"help", some 'h', false⟩

/-- The options of the command that goes by a name. -/
def optionsOf : String → List OptionSpec
  | "query" => [⟨"json", none, false⟩]
  | "traverse" => [⟨"direction", none, true⟩, valued "depth" 'd']
  | "related" => [valued "method" 'm', valued "limit" 'l']
  | "orphans" => [valued "kind" 'k', valued "prefix" 'p']
  | "broken" => [valued "prefix" 'p']
  | "path" => [valued "depth" 'd']
  | "hubs" => [valued "limit" 'l']
  | _ => []

/-- The command that goes by a name, with what was given for it. -/
def ofGiven? (name : String) (g : Given) : Option Command :=
  let optional (name : String) := g.value? name none fun s => (number? s).map some
  let start := g.options.lookup "prefix"
  match name, g.arguments with
  | "index", [] => some .index
  | "query", [text] => some (.query text (g.has "json"))
  | "links", [p] => some (.links p)
  | "backlinks", [p] => some (.backlinks p)
  | "traverse", [p] => do
    let direction ← g.value? "direction" .outgoing fun s => (Graph.Direction.ofWord s).toOption
    some (.traverse p direction (← optional "depth"))
  | "related", [p] => do
    let method ← g.value? "method" .both fun s => (Graph.Method.ofWord s).toOption
    some (.related p method (← optional "limit"))
  | "orphans", [] => do
    let kind ← g.value? "kind" .isolated fun s => (Graph.OrphanKind.ofWord s).toOption
    some (.orphans kind start)
  | "broken", [] => some (.broken start)
  | "path", [a, b] => (g.value? "depth" 5 number?).map fun depth => .path a b depth
  | "hubs", [] => (g.value? "limit" 10 number?).map .hubs
  | "note", [p] => some (.note p)
  | _, _ => none

/-- Reads a command line; nothing if it makes no sense. -/
def Request.ofArguments? (arguments : List String) : Option Request := do
  let known := [valued "vault" 'v', ⟨"verbose", none, false⟩, helpOption]
  let (g, rest) ← Given.empty.take? known true arguments
  if g.has "help" then some .help
  else
    match rest with
    | [] => none
    | "help" :: _ => some .help
    | name :: rest =>
      let (own, _) ← Given.empty.take? (helpOption :: optionsOf name) false rest
      if own.has "help" then some .help
      else
        let vault := (g.options.lookup "vault").getD "."
        if vault.isEmpty then none else (ofGiven? name own).map (.run vault)

end Command

end Slipbox
