import Slipbox.Graph.Basic

/-! Views of the whole graph: orphans, broken links and hubs. -/

namespace Slipbox.Graph

inductive OrphanKind where
  | noIncoming | noOutgoing | isolated
  deriving DecidableEq, Repr

/-- A note with the number of other notes that name it and the number of its own links. -/
structure Hub where
  path : String
  title : String
  incoming : Nat
  outgoing : Nat

variable (g : Graph)

/-- Whether a path lies under the wanted start of a path, if one is wanted. -/
def under (start : Option String) (path : String) : Bool :=
  match start with
  | none => true
  | some p => p.toList.isPrefixOf path.toList

def hubOf (n : Note) : Hub :=
  ⟨n.path, n.info.title, (g.namedBy n.path).length, n.links.length⟩

def describe? (path : String) : Option Hub :=
  (g.note? path).map g.hubOf

def isOrphan (kind : OrphanKind) (n : Note) : Bool :=
  let unnamed := (g.namedBy n.path).isEmpty
  match kind with
  | .noIncoming => unnamed
  | .noOutgoing => n.links.isEmpty
  | .isolated => unnamed && n.links.isEmpty

/-- The orphans under a start of a path, in path order. Links from everywhere count. -/
def orphans (kind : OrphanKind) (start : Option String) : List Note :=
  (g.notes.filter fun n => under start n.path).filter (g.isOrphan kind)

/-- The links that resolve to no note, by the path of their source. -/
def broken (start : Option String) : List Link :=
  (g.notes.filter fun n => under start n.path).flatMap fun n =>
    (n.links.map (g.linkOf n.path)).filter fun l => l.resolved.isNone

def Hub.before (a b : Hub) : Bool :=
  b.incoming < a.incoming || (a.incoming == b.incoming && a.path ≤ b.path)

/-- The notes that most others name. -/
def hubs (limit : Nat) : List Hub :=
  (((g.notes.map g.hubOf).filter fun h => 0 < h.incoming).mergeSort Hub.before).take limit

end Slipbox.Graph
