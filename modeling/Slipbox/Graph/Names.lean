import Slipbox.Graph.Related
import Slipbox.Graph.Summary

/-! The words by which a request names a direction, a method or a kind of orphan, in any ASCII
letter case. -/

namespace Slipbox.Graph

/-- A word that names nothing, in lower case. -/
inductive NameError where
  | direction (word : String)
  | method (word : String)
  | orphanKind (word : String)

def NameError.message : NameError → String
  | .direction w => s!"unknown direction '{w}', expected incoming, outgoing or both"
  | .method w => s!"unknown method '{w}', expected links, tags or both"
  | .orphanKind w =>
    s!"unknown orphan kind '{w}', expected no_incoming, no_outgoing or isolated"

private def smallWord (s : String) : String :=
  String.ofList (s.toList.map Char.toLower)

namespace Direction

def word : Direction → String
  | .incoming => "incoming"
  | .outgoing => "outgoing"
  | .both => "both"

def ofWord (s : String) : Except NameError Direction :=
  match smallWord s with
  | "incoming" | "in" => .ok .incoming
  | "outgoing" | "out" => .ok .outgoing
  | "both" => .ok .both
  | w => .error (.direction w)

end Direction

namespace Method

def word : Method → String
  | .links => "links"
  | .tags => "tags"
  | .both => "both"

def ofWord (s : String) : Except NameError Method :=
  match smallWord s with
  | "links" => .ok .links
  | "tags" => .ok .tags
  | "both" => .ok .both
  | w => .error (.method w)

end Method

namespace OrphanKind

def word : OrphanKind → String
  | .noIncoming => "no_incoming"
  | .noOutgoing => "no_outgoing"
  | .isolated => "isolated"

/-- A hyphen does for an underscore. -/
def ofWord (s : String) : Except NameError OrphanKind :=
  match String.ofList ((smallWord s).toList.map fun c => if c = '-' then '_' else c) with
  | "no_incoming" => .ok .noIncoming
  | "no_outgoing" => .ok .noOutgoing
  | "isolated" => .ok .isolated
  | w => .error (.orphanKind w)

end OrphanKind

/-- The depth of a request, brought into the range that is allowed. -/
def clampDepth (depth : Nat) : Nat :=
  max 1 (min depth 5)

end Slipbox.Graph
