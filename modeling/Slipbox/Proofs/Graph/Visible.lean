import Mathlib.Logic.Basic
import Slipbox.Graph.Related
import Slipbox.Graph.Summary
import Slipbox.Proofs.Index.Contents

/-! What a graph answers is the same when it only has what is visible of its notes, so graphs that
look the same give the same answers. -/

namespace Slipbox

namespace Graph

/-- What a traversal tells of a visit. -/
def Visit.told (v : Visit) : Nat × List String × Metadata :=
  (v.depth, v.trail, v.note.info)

/-- What is told of a note that is like another one. -/
def Related.told (r : Related) : Metadata × Float × Option (List String) × Option (List String) :=
  (r.note.info, r.score, r.links, r.tags)

def Related.visible (r : Related) : Related :=
  { r with note := r.note.visible }

/-- The graph with what is visible of its notes. -/
def visible (g : Graph) : Graph :=
  { g with notes := g.notes.map Note.visible }

theorem visible_ofNotes (notes : List Note) :
    (ofNotes notes).visible = ofNotes (notes.map Note.visible) := by
  simp only [visible, ofNotes, List.map_map, List.flatMap_map]
  rfl

section Visible

variable (g : Graph)

theorem note?_visible (path : String) : g.visible.note? path = (g.note? path).map Note.visible := by
  rw [note?, note?, visible, List.find?_map]
  rfl

theorem has_visible (path : String) : g.visible.has path = g.has path := by
  rw [has, has, note?_visible, Option.isSome_map]

theorem outgoing_visible (path : String) : g.visible.outgoing path = g.outgoing path := by
  rw [outgoing, outgoing, note?_visible]
  cases g.note? path <;> rfl

theorem incoming_visible (path : String) : g.visible.incoming path = g.incoming path := rfl

theorem trails_visible (start : String) (d : Direction) (depth : Nat) :
    g.visible.trails start d depth = g.trails start d depth := by
  rw [trails, trails, has_visible]
  rfl

theorem traverse_visible (start : String) (d : Direction) (depth : Nat) :
    (g.visible.traverse start d depth).map Visit.told =
      (g.traverse start d depth).map Visit.told := by
  rw [traverse, traverse, trails_visible, List.map_filterMap, List.map_filterMap]
  congr 1
  funext t
  rw [note?_visible]
  cases g.note? t.node <;> rfl

theorem findPath?_visible (start goal : String) (depth : Nat) :
    g.visible.findPath? start goal depth = g.findPath? start goal depth := by
  rw [findPath?, findPath?, trails_visible]

theorem tagKeys_visible (n : Note) : tagKeys n.visible = tagKeys n := by
  rw [tagKeys, tagKeys, Note.sortedTags_visible]

theorem compare?_visible (m : Method) (origin other : Note) :
    g.visible.compare? m origin.visible other.visible =
      (g.compare? m origin other).map Related.visible := by
  have hlinks (n : Note) : g.visible.linkKeys n.visible = g.linkKeys n := rfl
  simp only [compare?, hlinks, tagKeys_visible, apply_ite (Option.map _), Option.map_none,
    Option.map_some]
  rfl

theorem related_visible (path : String) (m : Method) (limit : Nat) :
    (g.visible.related path m limit).map Related.told =
      (g.related path m limit).map Related.told := by
  rw [related, related, note?_visible]
  cases g.note? path with
  | none => rfl
  | some origin =>
      have hothers : (g.visible.notes.filter fun n => n.path != path).filterMap
          (g.visible.compare? m origin.visible) =
            ((g.notes.filter fun n => n.path != path).filterMap (g.compare? m origin)).map
              Related.visible := by
        rw [visible, List.filter_map, List.filterMap_map, List.map_filterMap]
        congr 1
        funext n
        exact compare?_visible g m origin n
      dsimp only [Option.map_some]
      rw [hothers, ← List.map_mergeSort (f := Related.visible) (r := Related.before)
        fun _ _ _ _ => rfl, ← List.map_take, List.map_map]
      rfl

theorem orphans_visible (kind : OrphanKind) (start : Option String) :
    (g.visible.orphans kind start).map Note.info = (g.orphans kind start).map Note.info := by
  rw [orphans, orphans, visible, List.filter_map, List.filter_map, List.map_map]
  rfl

theorem broken_visible (start : Option String) : g.visible.broken start = g.broken start := by
  rw [broken, broken, visible, List.filter_map, List.flatMap_map]
  rfl

theorem hubs_visible (limit : Nat) : g.visible.hubs limit = g.hubs limit := by
  rw [hubs, hubs, visible, List.map_map]
  rfl

theorem describe?_visible (path : String) : g.visible.describe? path = g.describe? path := by
  rw [describe?, describe?, note?_visible, Option.map_map]
  rfl

end Visible

/-- Two graphs give the same answers, in the same order. -/
structure SameAnswers (g g' : Graph) : Prop where
  has : ∀ path, g.has path = g'.has path
  outgoing : ∀ path, g.outgoing path = g'.outgoing path
  incoming : ∀ path, g.incoming path = g'.incoming path
  traverse : ∀ start d depth,
    (g.traverse start d depth).map Visit.told = (g'.traverse start d depth).map Visit.told
  related : ∀ path m limit,
    (g.related path m limit).map Related.told = (g'.related path m limit).map Related.told
  orphans : ∀ kind start,
    (g.orphans kind start).map Note.info = (g'.orphans kind start).map Note.info
  broken : ∀ start, g.broken start = g'.broken start
  findPath? : ∀ start goal depth, g.findPath? start goal depth = g'.findPath? start goal depth
  hubs : ∀ limit, g.hubs limit = g'.hubs limit
  describe? : ∀ path, g.describe? path = g'.describe? path

theorem SameAnswers.of_visible {g g' : Graph} (h : g.visible = g'.visible) : SameAnswers g g' where
  has path := by rw [← has_visible, h, has_visible]
  outgoing path := by rw [← outgoing_visible, h, outgoing_visible]
  incoming path := by rw [← incoming_visible, h, incoming_visible]
  traverse start d depth := by rw [← traverse_visible, h, traverse_visible]
  related path m limit := by rw [← related_visible, h, related_visible]
  orphans kind start := by rw [← orphans_visible, h, orphans_visible]
  broken start := by rw [← broken_visible, h, broken_visible]
  findPath? start goal depth := by rw [← findPath?_visible, h, findPath?_visible]
  hubs limit := by rw [← hubs_visible, h, hubs_visible]
  describe? path := by rw [← describe?_visible, h, describe?_visible]

end Graph

end Slipbox
