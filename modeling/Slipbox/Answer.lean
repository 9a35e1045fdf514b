import Slipbox.Graph.Names
import Slipbox.Json
import Slipbox.Query.Run

/-! The answers to requests about an index, as JSON. A note that does not exist is reported by
`found` and empty lists, never as an error. -/

namespace Slipbox

namespace Metadata

/-- The known properties of a note; path, title and the verified mark are always there. -/
def toJson (m : Metadata) : Json :=
  .object <|
    [("path", .string m.path), ("title", .string m.title)] ++
    Json.member? "type" (m.type.map .string) ++
    Json.member? "created" (m.created.map .string) ++
    Json.member? "modified" (m.modified.map .string) ++
    Json.member? "source" (m.source.map .string) ++
    Json.member? "confidence" (m.confidence.map .ofFloat) ++
    [("verified", .bool m.verified)]

end Metadata

namespace Query

def Literal.toJson : Literal → Json
  | .string s => .string s
  | .number x => .ofFloat x
  | .boolean b => .bool b

def Condition.toJson : Condition → Json
  | .compare field op value =>
    .object [("type", .string "Comparison"), ("field", .string field),
      ("operator", .string op.symbol), ("value", value.toJson)]
  | .contains field value =>
    .object [("type", .string "Contains"), ("field", .string field), ("value", value.toJson)]
  | .logical op left right =>
    .object [("type", .string "Logical"), ("operator", .string op.word),
      ("left", left.toJson), ("right", right.toJson)]

def Order.toJson (o : Order) : Json :=
  .object [("field", .string o.field), ("order", .string o.direction.word)]

def toJson (q : Query) : Json :=
  .object <|
    [("query_type", .string q.shape.word)] ++
    Json.member? "fields" (q.fields.map .strings) ++
    Json.member? "from" (q.source.map .string) ++
    Json.member? "where" (q.condition.map Condition.toJson) ++
    Json.member? "sort" (q.order.map Order.toJson) ++
    Json.member? "limit" (q.limit.map fun n => .int n)

def Cell.toJson : Cell → Json
  | .null => .null
  | .bool b => .bool b
  | .number x => .ofFloat x
  | .text s => .string s
  | .list items => .strings items

/-- The rows have their cells in the order of the field names. -/
def Report.toJson (r : Report) : Json :=
  let row (cells : Row) : Json :=
    .object ((cells.map fun entry => (entry.1, entry.2.toJson)).mergeSort fun a b => a.1 ≤ b.1)
  .object [("query_type", .string r.shape.word), ("fields", .strings r.fields),
    ("rows", .array (r.rows.map row)), ("total", .int r.rows.length)]

end Query

namespace Graph

def Link.toJson (l : Link) : Json :=
  .object [("source", .string l.source), ("target", .string l.target),
    ("resolved", .ofOption l.resolved)]

def Visit.toJson (v : Visit) : Json :=
  .object [("depth", .int v.depth), ("path_trail", .strings v.trail),
    ("note", v.note.info.toJson)]

def Related.toJson (r : Related) : Json :=
  .object <|
    [("note", r.note.info.toJson), ("score", .ofFloat r.score)] ++
    Json.member? "shared_links" (r.links.map .strings) ++
    Json.member? "shared_tags" (r.tags.map .strings)

def Hub.toJson (h : Hub) : Json :=
  .object [("path", .string h.path), ("title", .string h.title),
    ("incoming_count", .int h.incoming), ("outgoing_count", .int h.outgoing)]

end Graph

namespace Answer

open Slipbox.Graph

private def counted (name : String) (items : List Json) : List (String × Json) :=
  [("count", .int items.length), (name, .array items)]

def links (g : Graph) (path : String) (found : List Link) : Json :=
  .object ([("path", .string path), ("found", .bool (g.has path))] ++
    counted "links" (found.map Link.toJson))

def outgoing (g : Graph) (path : String) : Json :=
  links g path (g.outgoing path)

def incoming (g : Graph) (path : String) : Json :=
  links g path (g.incoming path)

/-- A walk; the depth is the one that was used. -/
def traverse (g : Graph) (path : String) (d : Direction) (depth : Nat) : Json :=
  let depth := clampDepth depth
  .object ([("start", .string path), ("direction", .string d.word), ("depth", .int depth),
    ("found", .bool (g.has path))] ++
    counted "results" ((g.traverse path d depth).map Visit.toJson))

def related (g : Graph) (path : String) (m : Method) (limit : Nat) : Json :=
  .object ([("path", .string path), ("method", .string m.word), ("found", .bool (g.has path))] ++
    counted "related" ((g.related path m limit).map Related.toJson))

def orphans (g : Graph) (kind : OrphanKind) (start : Option String) : Json :=
  .object ([("kind", .string kind.word)] ++ Json.member? "prefix" (start.map .string) ++
    counted "notes" ((g.orphans kind start).map fun n => n.info.toJson))

def broken (g : Graph) (start : Option String) : Json :=
  .object (counted "links" ((g.broken start).map fun l =>
    .object [("source", .string l.source), ("target", .string l.target)]))

def path (g : Graph) (start goal : String) (depth : Nat) : Json :=
  let trail := g.findPath? start goal (clampDepth depth)
  .object ([("from", .string start), ("to", .string goal), ("found", .bool trail.isSome)] ++
    Json.member? "trail" (trail.map .strings))

def hubs (g : Graph) (limit : Nat) : Json :=
  .object (counted "hubs" ((g.hubs limit).map Hub.toJson))

def describe (g : Graph) (path : String) : Json :=
  ((g.describe? path).map Hub.toJson).getD .null

end Answer

end Slipbox
