import Slipbox.Graph.Resolver
import Slipbox.Graph.Walk
import Slipbox.Index

/-! The links between notes. A link has one edge to the note it resolves to and one to every other
note that it names; going out from a note follows the first sort only, coming in counts both. -/

namespace Slipbox

namespace Graph

inductive EdgeKind where
  | resolves
  | mentions
  deriving DecidableEq, Repr

/-- An edge between two notes, given by their paths, and the target text of the link behind it. -/
structure Edge where
  source : String
  dest : String
  kind : EdgeKind
  target : String
  deriving DecidableEq

/-- A link of a note, and the note it resolves to. -/
structure Link where
  source : String
  target : String
  resolved : Option String
  deriving DecidableEq

/-- Which edges a walk follows. -/
inductive Direction where
  | incoming | outgoing | both
  deriving DecidableEq, Repr

def Direction.followsOutgoing : Direction → Bool
  | .incoming => false
  | _ => true

def Direction.followsIncoming : Direction → Bool
  | .outgoing => false
  | _ => true

/-- The edges of one link. -/
def edgesOfLink (r : Resolver) (source target : String) : List Edge :=
  let resolved := r.position? target
  let edge (kind : EdgeKind) (i : Nat) : Option Edge :=
    r.paths[i]?.map fun dest => ⟨source, dest, kind, target⟩
  resolved.toList.filterMap (edge .resolves) ++
    ((r.mentioned target).filter fun i => resolved != some i).filterMap (edge .mentions)

end Graph

/-- The notes of an index in path order, and the edges between them. -/
structure Graph where
  notes : List Note
  resolver : Graph.Resolver
  edges : List Graph.Edge

namespace Graph

/-- The graph of some notes in path order. -/
def ofNotes (notes : List Note) : Graph :=
  let resolver := Resolver.ofNotes (notes.map fun n => (n.path, n.info.title))
  ⟨notes, resolver, notes.flatMap fun n => n.links.flatMap (edgesOfLink resolver n.path)⟩

def ofIndex (ix : Index) : Graph :=
  ofNotes ix.sorted

variable (g : Graph)

def note? (path : String) : Option Note :=
  g.notes.find? fun n => n.path == path

/-- Whether there is a note of this path. -/
def has (path : String) : Bool :=
  (g.note? path).isSome

def resolve? (target : String) : Option String :=
  g.resolver.resolve? target

def linkOf (source target : String) : Link :=
  ⟨source, target, g.resolve? target⟩

/-- The links of a note in stored order. -/
def outgoing (path : String) : List Link :=
  match g.note? path with
  | none => []
  | some n => n.links.map (g.linkOf path)

/-- The edges that end at a note. -/
def edgesInto (path : String) : List Edge :=
  g.edges.filter fun e => e.dest == path

def Link.le (a b : Link) : Bool :=
  a.source < b.source || (a.source == b.source && a.target ≤ b.target)

/-- The links that name a note, by source and then by target. -/
def incoming (path : String) : List Link :=
  (((g.edgesInto path).map fun e => g.linkOf e.source e.target).mergeSort Link.le).eraseDups

/-- The neighbours of a note in path order. -/
def neighbours (d : Direction) (path : String) : List String :=
  let out := if d.followsOutgoing then
      (g.edges.filter fun e => e.source == path && e.kind == .resolves).map (·.dest)
    else []
  let inn := if d.followsIncoming then (g.edgesInto path).map (·.source) else []
  ((out ++ inn).mergeSort fun a b => a ≤ b).eraseDups

/-- The other notes whose links name a note. -/
def namedBy (path : String) : List String :=
  (((g.edgesInto path).map (·.source)).filter (· != path)).eraseDups

/-- The trails from a note to all notes within `depth` steps; none if there is no such note. -/
def trails (start : String) (d : Direction) (depth : Nat) : List (Trail String) :=
  if g.has start then Walk.trails (g.neighbours d) start depth else []

structure Visit where
  depth : Nat
  trail : List String
  note : Note

/-- The notes within `depth` steps of a note, nearest first. -/
def traverse (start : String) (d : Direction) (depth : Nat) : List Visit :=
  (g.trails start d depth).filterMap fun t =>
    (g.note? t.node).map fun n => ⟨t.depth, t.nodes, n⟩

/-- A shortest trail along outgoing links. -/
def findPath? (start goal : String) (depth : Nat) : Option (List String) :=
  ((g.trails start .outgoing depth).find? fun t => t.node == goal).map Trail.nodes

def hasPath (start goal : String) (depth : Nat) : Bool :=
  (g.findPath? start goal depth).isSome

end Graph

end Slipbox
