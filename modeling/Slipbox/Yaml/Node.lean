import Slipbox.Yaml.Token

/-! Documents as trees of scalars, sequences and mappings. A node may be anchored under a name, and
a reference stands for the node anchored under its name before. -/

namespace Slipbox.Yaml

inductive Node where
  /-- A plain scalar is written without quotes or block marks. -/
  | scalar (tag : Option String) (plain : Bool) (text : String)
  | sequence (tag : Option String) (items : List Node)
  | mapping (tag : Option String) (entries : List (Node × Node))
  | reference (anchor : Nat)
  deriving Inhabited

namespace Node

/-- The node where nothing is written. -/
def empty : Node := .scalar none true ""

end Node

/-- A node under the number of its anchor. -/
structure Anchored where
  anchor : Nat
  /-- The number of anchored nodes that start before it. -/
  order : Nat
  node : Node

structure Document where
  root : Node
  anchored : List Anchored
  /-- The number of nodes and of ends of collections. -/
  size : Nat

/-- The anchored node that a reference stands for: the last one with its number. -/
def Document.find? (d : Document) (anchor : Nat) : Option Node :=
  let found := d.anchored.filter fun a => a.anchor == anchor
  (found.foldl (fun best a =>
    match best with
    | some b => if b.order < a.order then some a else some b
    | none => some a) (none : Option Anchored)).map (·.node)

/-- The state of reading nodes. -/
structure NodeReader where
  tokens : List Token
  /-- The number of the anchor of each name. -/
  names : List (String × Nat)
  anchored : List Anchored
  /-- The number of anchored nodes started so far. -/
  order : Nat
  size : Nat

namespace NodeReader

abbrev Read (α : Type) := StateT NodeReader Option α

/-- What short handles of tags stand for. -/
abbrev Handles := List (String × String)

def peek? : Read (Option Token) := do
  return (← get).tokens.head?

def skip : Read Unit :=
  modify fun r => { r with tokens := r.tokens.tail }

/-- Passes the token if it is the next one. -/
def skipIf (t : Token) : Read Bool := do
  if (← peek?) = some t then
    skip
    return true
  else return false

def grow (n : Nat) : Read Unit :=
  modify fun r => { r with size := r.size + n }

/-- Gives a name to the node that starts here. The number of the anchor is the number of different
names so far, also when the name has had a number before. -/
def startAnchor (name : String) : Read (Nat × Nat) := do
  let r ← get
  let id := r.names.length
  set { r with
    names := (name, id) :: r.names.filter fun n => n.1 != name
    order := r.order + 1 }
  return (id, r.order)

/-- A finished node, kept under its anchor if it has one. -/
def finish (anchor : Option (Nat × Nat)) (node : Node) : Read Node := do
  if let some (id, order) := anchor then
    modify fun r => { r with anchored := ⟨id, order, node⟩ :: r.anchored }
  return node

def emptyNode : Read Node := do
  grow 1
  return .empty

/-- The tag that a handle and a suffix spell. -/
def tagOf? (handles : Handles) (handle suffix : String) : Option String :=
  if handle.isEmpty then some suffix
  else (handles.lookup handle).map (· ++ suffix)

/-- The anchor name and the tag before a node, in either order. -/
def properties (handles : Handles) : Read (Option String × Option String) := do
  let resolve (handle suffix : String) : Read String := fun r =>
    (tagOf? handles handle suffix).map fun t => (t, r)
  match ← peek? with
  | some (.anchor name) =>
    skip
    match ← peek? with
    | some (.tag handle suffix) =>
      skip
      return (some name, some (← resolve handle suffix))
    | _ => return (some name, none)
  | some (.tag handle suffix) =>
    skip
    match ← peek? with
    | some (.anchor name) =>
      skip
      return (some name, some (← resolve handle suffix))
    | _ => return (none, some (← resolve handle suffix))
  | _ => return (none, none)

/-- Whether the next token is one of those given, or there is none. -/
def nextIsAny (ts : List Token) : Read Bool := do
  match ← peek? with
  | none => return true
  | some t => return t ∈ ts

mutual

/-- A node; `block` admits blocks, and `indentless` a sequence without an indentation of its own. -/
def node (handles : Handles) (block indentless : Bool) : (fuel : Nat) → Read Node
  | 0 => failure
  | n + 1 => do
    if let some (.reference name) ← peek? then
      skip
      grow 1
      match (← get).names.lookup name with
      | some id => return .reference id
      | none => failure
    else
      let (name, tag) ← properties handles
      let start : Read (Option (Nat × Nat)) := do
        match name with
        | some name => return some (← startAnchor name)
        | none => return none
      match ← peek? with
      | some .blockEntry =>
        if indentless then
          let a ← start
          grow 2
          finish a (.sequence tag (← indentlessItems handles n))
        else if name.isSome || tag.isSome then
          let a ← start
          grow 1
          finish a (.scalar tag true "")
        else failure
      | some (.scalar text plain) =>
        skip
        let a ← start
        grow 1
        finish a (.scalar tag plain text)
      | some .flowSequenceStart =>
        skip
        let a ← start
        grow 2
        finish a (.sequence tag (← flowItems handles true n))
      | some .flowMappingStart =>
        skip
        let a ← start
        grow 2
        finish a (.mapping tag (← flowEntries handles true n))
      | some .blockSequenceStart =>
        if block then
          skip
          let a ← start
          grow 2
          finish a (.sequence tag (← blockItems handles n))
        else if name.isSome || tag.isSome then
          let a ← start
          grow 1
          finish a (.scalar tag true "")
        else failure
      | some .blockMappingStart =>
        if block then
          skip
          let a ← start
          grow 2
          finish a (.mapping tag (← blockEntries handles n))
        else if name.isSome || tag.isSome then
          let a ← start
          grow 1
          finish a (.scalar tag true "")
        else failure
      | _ =>
        if name.isSome || tag.isSome then
          let a ← start
          grow 1
          finish a (.scalar tag true "")
        else failure

/-- The items of a block sequence up to its end. -/
def blockItems (handles : Handles) : (fuel : Nat) → Read (List Node)
  | 0 => failure
  | n + 1 => do
    if ← skipIf .blockEnd then return []
    else if ← skipIf .blockEntry then
      let item ← if ← nextIsAny [.blockEntry, .blockEnd] then emptyNode
        else node handles true false n
      return item :: (← blockItems handles n)
    else failure

/-- The items of a sequence that ends where no further item follows. -/
def indentlessItems (handles : Handles) : (fuel : Nat) → Read (List Node)
  | 0 => failure
  | n + 1 => do
    if ← skipIf .blockEntry then
      let item ← if ← nextIsAny [.blockEntry, .key, .value, .blockEnd] then emptyNode
        else node handles true false n
      return item :: (← indentlessItems handles n)
    else return []

/-- The entries of a block mapping up to its end. -/
def blockEntries (handles : Handles) : (fuel : Nat) → Read (List (Node × Node))
  | 0 => failure
  | n + 1 => do
    let part : Read Node := do
      if ← nextIsAny [.key, .value, .blockEnd] then emptyNode else node handles true true n
    if ← skipIf .blockEnd then return []
    else if ← skipIf .key then
      let key ← part
      let value ← if ← skipIf .value then part else emptyNode
      return (key, value) :: (← blockEntries handles n)
    else failure

/-- The items of a flow sequence up to its end. A single pair needs no braces. -/
def flowItems (handles : Handles) (first : Bool) : (fuel : Nat) → Read (List Node)
  | 0 => failure
  | n + 1 => do
    if ← skipIf .flowSequenceEnd then return []
    else if first || (← skipIf .flowEntry) then
      if ← skipIf .flowSequenceEnd then return []
      else if ← skipIf .key then
        grow 2
        let key ← if ← nextIsAny [.value, .flowEntry, .flowSequenceEnd] then
            skip
            emptyNode
          else node handles false false n
        let value ← if ← skipIf .value then
            if ← nextIsAny [.flowEntry, .flowSequenceEnd] then emptyNode
            else node handles false false n
          else emptyNode
        return .mapping none [(key, value)] :: (← flowItems handles false n)
      else
        let item ← node handles false false n
        return item :: (← flowItems handles false n)
    else failure

/-- The entries of a flow mapping up to its end. -/
def flowEntries (handles : Handles) (first : Bool) : (fuel : Nat) → Read (List (Node × Node))
  | 0 => failure
  | n + 1 => do
    if ← skipIf .flowMappingEnd then return []
    else if first || (← skipIf .flowEntry) then
      if ← skipIf .flowMappingEnd then return []
      else if ← skipIf .key then
        let key ← if ← nextIsAny [.value, .flowEntry, .flowMappingEnd] then emptyNode
          else node handles false false n
        let value ← if ← skipIf .value then
            if ← nextIsAny [.flowEntry, .flowMappingEnd] then emptyNode
            else node handles false false n
          else emptyNode
        return (key, value) :: (← flowEntries handles false n)
      else
        let key ← node handles false false n
        let value ← emptyNode
        return (key, value) :: (← flowEntries handles false n)
    else failure

end

/-- What the two short handles stand for unless a directive says otherwise. -/
def commonHandles : Handles :=
  [("!", "!"), ("!!", "tag:yaml.org,2002:")]

/-- The directives before a document: at most one version, which is 1.1 or 1.2, and each handle at
most once. Gives the handles and whether there was any directive. -/
def directives (version : Bool) (handles : Handles) : List Token → Option (Handles × List Token)
  | .versionDirective major minor :: rest =>
    if version || major != 1 || !(minor == 1 || minor == 2) then none
    else directives true handles rest
  | .tagDirective handle lead :: rest =>
    if (handles.lookup handle).isSome then none
    else directives version (handles ++ [(handle, lead)]) rest
  | rest => some (handles ++ commonHandles, rest)

/-- The content of a document that has been marked as started. -/
def content (handles : Handles) (fuel : Nat) : Read Node := do
  match ← peek? with
  | none | some .documentStart | some .documentEnd => emptyNode
  | some (.versionDirective _ _) | some (.tagDirective _ _) => emptyNode
  | _ => node handles true false fuel

end NodeReader

/-- The document of a text; an empty text has none. More than one document is refused. -/
def document? (tokens : List Token) : Option (Option Document) := do
  let fuel := 2 * tokens.length + 4
  match tokens with
  | [] => some none
  | first :: _ =>
    let marked := match first with
      | .versionDirective _ _ | .tagDirective _ _ | .documentStart => true
      | _ => false
    let (handles, rest) ← NodeReader.directives false [] tokens
    let (rest, read) ←
      if marked then
        match rest with
        | .documentStart :: rest => some (rest, NodeReader.content handles fuel)
        | _ => none
      else some (rest, NodeReader.node handles true false fuel)
    let (root, r) ← read.run ⟨rest, [], [], 0, 0⟩
    if r.tokens.all (· = .documentEnd) then some (some ⟨root, r.anchored, r.size⟩) else none

end Slipbox.Yaml
