import Slipbox.Answer
import Slipbox.Proofs.Distinct
import Slipbox.Proofs.Graph.Walk

/-! Traversals of the graph of some notes. Neighbours are always notes, so nothing that the walk
finds is lost when its trails become visits; a path between two notes is a visit of the second one
in the traversal from the first, and so are the answers to requests. -/

namespace Slipbox

namespace Graph

theorem neighbours_nodup (g : Graph) (d : Direction) (path : String) :
    (g.neighbours d path).Nodup :=
  nodup_eraseDups _

theorem mem_neighbours {g : Graph} {d : Direction} {a b : String} :
    b ∈ g.neighbours d a ↔
      (d.followsOutgoing = true ∧ ∃ e ∈ g.edges, e.source = a ∧ e.kind = .resolves ∧ e.dest = b) ∨
        (d.followsIncoming = true ∧ ∃ e ∈ g.edges, e.dest = a ∧ e.source = b) := by
  unfold neighbours edgesInto
  simp only [List.mem_eraseDups, List.mem_mergeSort, List.mem_append]
  cases d <;> simp [Direction.followsOutgoing, Direction.followsIncoming, and_assoc]

theorem path_of_note? {g : Graph} {path : String} {n : Note} (h : g.note? path = some n) :
    n.path = path := by
  simpa using List.find?_some h

theorem has_iff {g : Graph} {path : String} : g.has path = true ↔ path ∈ g.notes.map Note.path := by
  simp [has, note?]

section Notes

variable (notes : List Note)

/-- Both ends of an edge are notes. -/
theorem has_of_mem_edges {e : Edge} (he : e ∈ (ofNotes notes).edges) :
    (ofNotes notes).has e.source = true ∧ (ofNotes notes).has e.dest = true := by
  simp only [ofNotes, List.mem_flatMap] at he
  obtain ⟨n, hn, target, _, he⟩ := he
  simp only [edgesOfLink, List.mem_append, List.mem_filterMap, Option.map_eq_some_iff] at he
  have hends : e.source = n.path ∧ ∃ i : Nat, (notes.map Note.path)[i]? = some e.dest := by
    rcases he with ⟨i, _, dest, hdest, rfl⟩ | ⟨i, _, dest, hdest, rfl⟩ <;>
      exact ⟨rfl, i, by simpa [Resolver.ofNotes, Function.comp_def, Note.path] using hdest⟩
  obtain ⟨hsource, i, hdest⟩ := hends
  rw [has_iff, has_iff, hsource]
  exact ⟨List.mem_map_of_mem hn, List.mem_of_getElem? hdest⟩

theorem has_of_mem_neighbours {d : Direction} {a b : String}
    (h : b ∈ (ofNotes notes).neighbours d a) :
    (ofNotes notes).has a = true ∧ (ofNotes notes).has b = true := by
  rcases mem_neighbours.mp h with ⟨_, e, he, rfl, _, rfl⟩ | ⟨_, e, he, rfl, rfl⟩
  · exact has_of_mem_edges notes he
  · exact (has_of_mem_edges notes he).symm

/-- What can be reached in one step or more starts at a note and ends at one. -/
theorem has_of_reaches {d : Direction} {start a : String} {n : Nat}
    (h : Reaches ((ofNotes notes).neighbours d) start (n + 1) a) :
    (ofNotes notes).has start = true ∧ (ofNotes notes).has a = true := by
  induction n generalizing a with
  | zero =>
      obtain ⟨b, hb, hstep⟩ := reaches_succ.mp h
      rw [reaches_zero.mp hb] at hstep
      exact has_of_mem_neighbours notes hstep
  | succ n ih =>
      obtain ⟨b, hb, hstep⟩ := reaches_succ.mp h
      exact ⟨(ih hb).1, (has_of_mem_neighbours notes hstep).2⟩

/-- The walk behind a traversal finds everything within its depth, also when there is no start. -/
theorem trails_explored (start : String) (d : Direction) (depth : Nat) :
    Walk.Explored ((ofNotes notes).neighbours d) start 0 depth
      ((ofNotes notes).trails start d depth) := by
  unfold trails
  split
  · exact Walk.trails_explored (neighbours_nodup _ d) start depth
  · next hmissing =>
    refine .nil fun n hlow _ a ha => hmissing ?_
    obtain ⟨n, rfl⟩ := Nat.exists_eq_succ_of_ne_zero (Nat.ne_of_gt hlow)
    exact (has_of_reaches notes ha.reaches).1

/-- A visit tells of a trail, and of the note at its end. -/
theorem mem_traverse {start : String} {d : Direction} {depth : Nat} {v : Visit} :
    v ∈ (ofNotes notes).traverse start d depth ↔
      ∃ t ∈ (ofNotes notes).trails start d depth,
        (ofNotes notes).note? t.node = some v.note ∧ v.depth = t.depth ∧ v.trail = t.nodes := by
  simp only [traverse, List.mem_filterMap, Option.map_eq_some_iff]
  constructor
  · rintro ⟨t, ht, n, hn, rfl⟩
    exact ⟨t, ht, hn, rfl, rfl⟩
  · rintro ⟨t, ht, hn, hdepth, htrail⟩
    exact ⟨t, ht, v.note, hn, by rw [← hdepth, ← htrail]⟩

/-- Every trail of a traversal ends at a note. -/
theorem note?_of_mem_trails {start : String} {d : Direction} {depth : Nat} {t : Trail String}
    (ht : t ∈ (ofNotes notes).trails start d depth) :
    ∃ n, (ofNotes notes).note? t.node = some n := by
  have h := trails_explored notes start d depth
  obtain ⟨n, hlow, _, hn⟩ := (h.node_iff t.node).mp (List.mem_map_of_mem ht)
  obtain ⟨n, rfl⟩ := Nat.exists_eq_succ_of_ne_zero (Nat.ne_of_gt hlow)
  exact Option.isSome_iff_exists.mp (has_of_reaches notes hn.reaches).2

end Notes

/-- The visits are those of all notes within a depth of the start other than the start itself, each
once, at its distance and with a shortest trail, the nearer ones first. -/
structure Visits (g : Graph) (start : String) (d : Direction) (depth : Nat)
    (visits : List Visit) : Prop where
  mem_iff : ∀ (n : Note) (distance : Nat), (∃ v ∈ visits, v.note = n ∧ v.depth = distance) ↔
    g.note? n.path = some n ∧ n.path ≠ start ∧ 1 ≤ distance ∧ distance ≤ depth ∧
      IsDistance (g.neighbours d) start distance n.path
  once : (visits.map fun v => v.note.path).Nodup
  sorted : visits.Pairwise fun v w => v.depth ≤ w.depth
  first : ∀ v ∈ visits, v.trail.head? = some start
  last : ∀ v ∈ visits, v.trail.getLast? = some v.note.path
  length : ∀ v ∈ visits, v.trail.length = v.depth + 1
  distinct : ∀ v ∈ visits, v.trail.Nodup
  steps : ∀ v ∈ visits, v.trail.IsChain fun a b => b ∈ g.neighbours d a

theorem traverse_spec (notes : List Note) (start : String) (d : Direction) (depth : Nat) :
    Visits (ofNotes notes) start d depth ((ofNotes notes).traverse start d depth) := by
  have h := trails_explored notes start d depth
  constructor
  case mem_iff =>
    intro n distance
    constructor
    · rintro ⟨v, hv, rfl, rfl⟩
      obtain ⟨t, ht, hn, hdepth, _⟩ := (mem_traverse notes).mp hv
      obtain ⟨m, hlow, hhigh, hm⟩ := (h.node_iff t.node).mp (List.mem_map_of_mem ht)
      have hdistance := h.distance t ht
      rw [hdepth, path_of_note? hn]
      rw [hm.unique hdistance] at hlow hhigh
      exact ⟨hn, hdistance.ne_start hlow, hlow, hhigh, hdistance⟩
    · rintro ⟨hn, _, hlow, hhigh, hdistance⟩
      obtain ⟨t, ht, hnode⟩ := List.mem_map.mp ((h.node_iff n.path).mpr
        ⟨distance, hlow, hhigh, hdistance⟩)
      refine ⟨⟨t.depth, t.nodes, n⟩, (mem_traverse notes).mpr ⟨t, ht, ?_, rfl, rfl⟩, rfl, ?_⟩
      · rw [hnode, hn]
      · exact (h.distance t ht).unique (hnode ▸ hdistance)
  case once =>
    rw [List.Nodup, List.pairwise_map, traverse, List.pairwise_filterMap]
    refine (List.pairwise_map.mp h.nodup).imp fun {t t'} hne v hv v' hv' => ?_
    obtain ⟨n, hn, rfl⟩ := Option.map_eq_some_iff.mp hv
    obtain ⟨n', hn', rfl⟩ := Option.map_eq_some_iff.mp hv'
    rwa [path_of_note? hn, path_of_note? hn']
  case sorted =>
    rw [traverse, List.pairwise_filterMap]
    refine h.sorted.imp fun {t t'} hle v hv v' hv' => ?_
    obtain ⟨n, hn, rfl⟩ := Option.map_eq_some_iff.mp hv
    obtain ⟨n', hn', rfl⟩ := Option.map_eq_some_iff.mp hv'
    exact hle
  all_goals
    intro v hv
    obtain ⟨t, ht, hn, hdepth, htrail⟩ := (mem_traverse notes).mp hv
    rw [htrail]
  case first => exact (h.leads t ht).first
  case last => rw [Trail.getLast?_nodes, path_of_note? hn]
  case length => rw [hdepth, Trail.length_nodes]
  case distinct => exact (h.leads t ht).nodup
  case steps => exact (h.leads t ht).steps

/-- A path to a note is the trail of its visit. -/
theorem findPath?_eq_some {notes : List Note} {start goal : String} {depth : Nat}
    {trail : List String} :
    (ofNotes notes).findPath? start goal depth = some trail ↔
      ∃ v ∈ (ofNotes notes).traverse start .outgoing depth,
        v.note.path = goal ∧ v.trail = trail := by
  have h := trails_explored notes start .outgoing depth
  have hvisit (t : Trail String) (ht : t ∈ (ofNotes notes).trails start .outgoing depth) :
      ∃ v ∈ (ofNotes notes).traverse start .outgoing depth,
        v.note.path = t.node ∧ v.trail = t.nodes := by
    obtain ⟨n, hn⟩ := note?_of_mem_trails notes ht
    exact ⟨⟨t.depth, t.nodes, n⟩, (mem_traverse notes).mpr ⟨t, ht, hn, rfl, rfl⟩,
      path_of_note? hn, rfl⟩
  simp only [findPath?, Option.map_eq_some_iff]
  constructor
  · rintro ⟨t, ht, rfl⟩
    obtain rfl : t.node = goal := by simpa using List.find?_some ht
    exact hvisit t (List.mem_of_find?_eq_some ht)
  · rintro ⟨v, hv, hgoal, rfl⟩
    obtain ⟨t, ht, hn, _, htrail⟩ := (mem_traverse notes).mp hv
    have hnode : t.node = goal := (path_of_note? hn).symm.trans hgoal
    cases hfound :
        ((ofNotes notes).trails start .outgoing depth).find? (fun t => t.node == goal) with
    | none =>
        have hmissing := List.find?_eq_none.mp hfound t ht
        exact absurd (beq_iff_eq.mpr hnode) hmissing
    | some t' =>
        have hnode' : t'.node = goal := by simpa using List.find?_some hfound
        have hsame : t' = t :=
          List.inj_on_of_nodup_map h.nodup (List.mem_of_find?_eq_some hfound) ht
            (hnode'.trans hnode.symm)
        exact ⟨t', rfl, by rw [hsame, htrail]⟩

end Graph

namespace Answer

/-- The answer says that what was asked for has been found. -/
def Found (answer : Json) : Prop :=
  answer.get? "found" = some (.bool true)

/-- A note of this path is among the results of the answer. -/
def Lists (answer : Json) (path : String) : Prop :=
  ∃ items, answer.get? "results" = some (.array items) ∧
    ∃ item ∈ items, (item.get? "note").bind (·.get? "path") = some (.string path)

theorem found_path {g : Graph} {start goal : String} {depth : Nat} :
    Found (path g start goal depth) ↔
      (g.findPath? start goal (Graph.clampDepth depth)).isSome = true := by
  have hfound : (path g start goal depth).get? "found" =
      some (.bool (g.findPath? start goal (Graph.clampDepth depth)).isSome) := rfl
  rw [Found, hfound, Option.some.injEq, Json.bool.injEq]

theorem lists_traverse {g : Graph} {start goal : String} {d : Graph.Direction} {depth : Nat} :
    Lists (traverse g start d depth) goal ↔
      ∃ v ∈ g.traverse start d (Graph.clampDepth depth), v.note.path = goal := by
  have hresults : (traverse g start d depth).get? "results" =
      some (.array ((g.traverse start d (Graph.clampDepth depth)).map Graph.Visit.toJson)) := rfl
  have hpath (v : Graph.Visit) :
      (v.toJson.get? "note").bind (·.get? "path") = some (.string v.note.path) := rfl
  unfold Lists
  rw [hresults]
  simp [hpath]

end Answer

/-- In the graph of any notes a traversal visits just the notes within its depth, none from a start
that is missing. There is a path to a note if the outgoing traversal visits it, which is then the
trail of this visit, and requests of one depth agree on that. -/
theorem traverse_visits (notes : List Note) :
    let g := Graph.ofNotes notes
    (∀ start d depth, Graph.Visits g start d depth (g.traverse start d depth)) ∧
    (∀ start d depth, g.has start = false → g.traverse start d depth = []) ∧
    (∀ start goal depth,
      (g.hasPath start goal depth = true ↔
        ∃ v ∈ g.traverse start .outgoing depth, v.note.path = goal) ∧
      ((g.findPath? start goal depth).isSome = true ↔
        ∃ v ∈ g.traverse start .outgoing depth, v.note.path = goal) ∧
      ∀ v ∈ g.traverse start .outgoing depth, v.note.path = goal →
        g.findPath? start goal depth = some v.trail) ∧
    (∀ start goal depth, Answer.Found (Answer.path g start goal depth) ↔
      Answer.Lists (Answer.traverse g start .outgoing depth) goal) := by
  intro g
  have hpath : ∀ start goal depth, (g.findPath? start goal depth).isSome = true ↔
      ∃ v ∈ g.traverse start .outgoing depth, v.note.path = goal := by
    intro start goal depth
    rw [Option.isSome_iff_exists]
    simp only [g, Graph.findPath?_eq_some]
    constructor
    · rintro ⟨_, v, hv, hgoal, _⟩
      exact ⟨v, hv, hgoal⟩
    · rintro ⟨v, hv, hgoal⟩
      exact ⟨v.trail, v, hv, hgoal, rfl⟩
  refine ⟨Graph.traverse_spec notes, ?_, ?_, ?_⟩
  · intro start d depth hmissing
    rw [Graph.traverse, Graph.trails, hmissing]
    rfl
  · exact fun start goal depth => ⟨hpath start goal depth, hpath start goal depth,
      fun v hv hgoal => Graph.findPath?_eq_some.mpr ⟨v, hv, hgoal, rfl⟩⟩
  · intro start goal depth
    rw [Answer.found_path, Answer.lists_traverse, hpath]

end Slipbox
