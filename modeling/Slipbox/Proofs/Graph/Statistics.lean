import Mathlib
import Slipbox.Graph.Summary
import Slipbox.Proofs.Graph.Links
import Slipbox.Proofs.Index.Contents

/-! What is counted and listed of a graph fits together. The number of notes that name a note is
taken from the edges that end at it, the links that come in are sorted and freed of repetitions, and
orphans, hubs and broken links are lists of their own; all of them come to the same. -/

namespace Slipbox

namespace Graph

/-- The other notes from which a link comes in at a note. -/
def sources (g : Graph) (path : String) : Finset String :=
  ((g.incoming path).map Link.source).toFinset.erase path

/-- The hub is one before another: more notes name it, or as many and its path is less. -/
def Hub.Ahead (a b : Hub) : Prop :=
  b.incoming < a.incoming ∨ a.incoming = b.incoming ∧ a.path < b.path

/-- The notes to which other notes link, the most named ones first. -/
def ranked (g : Graph) : List Hub :=
  ((g.notes.map g.hubOf).filter fun h => 0 < h.incoming).mergeSort Hub.before

section Counts

variable {g : Graph}

theorem mem_sources {path source : String} :
    source ∈ g.sources path ↔ source ≠ path ∧ ∃ e ∈ g.edges, e.dest = path ∧ e.source = source := by
  simp only [sources, Finset.mem_erase, List.mem_toFinset, List.mem_map, mem_incoming]
  refine and_congr_right fun _ => ⟨?_, ?_⟩
  · rintro ⟨_, ⟨e, he, hdest, rfl⟩, hsource⟩
    exact ⟨e, he, hdest, hsource⟩
  · rintro ⟨e, he, hdest, hsource⟩
    exact ⟨_, ⟨e, he, hdest, rfl⟩, hsource⟩

/-- Several links from one note count once, and those of the note itself do not count. -/
theorem length_namedBy (path : String) : (g.namedBy path).length = (g.sources path).card := by
  have hsame : (g.namedBy path).toFinset = g.sources path := by
    ext source
    simp only [namedBy, edgesInto, List.mem_toFinset, List.mem_eraseDups, List.mem_filter,
      List.mem_map, beq_iff_eq, bne_iff_ne, mem_sources, and_assoc]
    exact and_comm
  rw [← hsame]
  exact (List.toFinset_card_of_nodup (nodup_eraseDups _)).symm

theorem hubOf_incoming (p : Note) : (g.hubOf p).incoming = (g.sources p.path).card :=
  length_namedBy p.path

theorem namedBy_isEmpty (path : String) :
    (g.namedBy path).isEmpty = true ↔ (g.sources path).card = 0 := by
  rw [← length_namedBy, List.isEmpty_iff, List.length_eq_zero_iff]

theorem mem_orphans {kind : OrphanKind} {start : Option String} {p : Note} :
    p ∈ g.orphans kind start ↔
      p ∈ g.notes ∧ under start p.path = true ∧ g.isOrphan kind p = true := by
  rw [orphans, List.mem_filter, List.mem_filter, and_assoc]

theorem mem_ranked {h : Hub} : h ∈ g.ranked ↔ 0 < h.incoming ∧ ∃ p ∈ g.notes, g.hubOf p = h := by
  rw [ranked, List.mem_mergeSort, List.mem_filter, List.mem_map, decide_eq_true_eq, and_comm]

theorem length_ranked : g.ranked.length ≤ g.notes.length := by
  rw [ranked, List.length_mergeSort, ← List.length_map (f := g.hubOf)]
  exact List.length_filter_le _ _

theorem Hub.before_iff {a b : Hub} :
    a.before b = true ↔ b.incoming < a.incoming ∨ a.incoming = b.incoming ∧ a.path ≤ b.path := by
  simp [before]

theorem under_some {start path : String} :
    under (some start) path = decide (start.toList <+: path.toList) := by
  rw [under, Bool.eq_iff_iff, List.isPrefixOf_iff_prefix, decide_eq_true_iff]

end Counts

section Paths

/-! With one note for each path a note is found by its path. -/

variable {g : Graph} (hpaths : (g.notes.map Note.path).Nodup)

include hpaths

theorem note?_of_mem {p : Note} (hp : p ∈ g.notes) : g.note? p.path = some p := by
  cases hfound : g.note? p.path with
  | none =>
      rw [note?, List.find?_eq_none] at hfound
      exact absurd (beq_self_eq_true p.path) (hfound p hp)
  | some n =>
      have hn : n ∈ g.notes := List.mem_of_find?_eq_some hfound
      rw [List.inj_on_of_nodup_map hpaths hn hp (path_of_note? hfound)]

theorem outgoing_of_mem {p : Note} (hp : p ∈ g.notes) :
    g.outgoing p.path = p.links.map (g.linkOf p.path) := by
  rw [outgoing, note?_of_mem hpaths hp]

theorem describe?_of_mem {p : Note} (hp : p ∈ g.notes) :
    g.describe? p.path = some (g.hubOf p) := by
  rw [describe?, note?_of_mem hpaths hp, Option.map_some]

/-- The ranking leaves no two hubs level. -/
theorem ranked_ahead : g.ranked.Pairwise Hub.Ahead := by
  have hsorted : g.ranked.Pairwise fun a b => a.before b = true := by
    refine List.pairwise_mergeSort (fun a b c => ?_) (fun a b => ?_) _
    · simp only [Hub.before_iff]
      grind
    · simp only [Bool.or_eq_true, Hub.before_iff]
      grind
  have hnodup : (g.ranked.map Hub.path).Nodup := by
    refine ((List.mergeSort_perm _ _).map Hub.path).nodup_iff.mpr ?_
    refine (List.filter_sublist.map Hub.path).nodup ?_
    rw [List.map_map]
    exact hpaths
  refine (hsorted.and (List.pairwise_map.mp hnodup)).imp fun {a b} ⟨hab, hne⟩ => ?_
  exact (Hub.before_iff.mp hab).imp_right fun ⟨hcount, hpath⟩ =>
    ⟨hcount, Std.lt_of_le_of_ne hpath hne⟩

theorem mem_ranked_path {p : Note} (hp : p ∈ g.notes) :
    p.path ∈ g.ranked.map Hub.path ↔ 0 < (g.sources p.path).card := by
  simp only [List.mem_map, mem_ranked]
  constructor
  · rintro ⟨_, ⟨hcount, n, hn, rfl⟩, hpath⟩
    rw [hubOf_incoming] at hcount
    rwa [List.inj_on_of_nodup_map hpaths hn hp hpath] at hcount
  · intro hcount
    exact ⟨g.hubOf p, ⟨by rwa [hubOf_incoming], p, hp, rfl⟩, rfl⟩

theorem broken_eq (start : Option String) :
    g.broken start = (g.notes.filter fun p => under start p.path).flatMap fun p =>
      (g.outgoing p.path).filter fun l => l.resolved.isNone := by
  rw [broken, List.flatMap_def, List.flatMap_def]
  congr 1
  refine List.map_congr_left fun p hp => ?_
  rw [outgoing_of_mem hpaths (List.mem_of_mem_filter hp)]

end Paths

theorem lt_of_search? {notes : List (String × String)} {target : String} {i : Nat}
    (h : search? notes target = some i) : i < notes.length := by
  unfold search? at h
  split at h
  · cases h
  · obtain ⟨r, _, hr⟩ := List.exists_of_findSome?_eq_some h
    obtain ⟨⟨note, hnote, _⟩, _⟩ := Rule.search?_eq_some.mp hr
    exact (List.getElem?_eq_some_iff.mp hnote).1

/-- A link is unresolved only when the search for its target finds no position. -/
theorem resolve?_eq_none {notes : List Note} {target : String} :
    (ofNotes notes).resolve? target = none ↔
      (ofNotes notes).resolver.position? target = none := by
  have hposition : (ofNotes notes).resolver.position? target =
      search? (notes.map fun n => (n.path, n.info.title)) target :=
    Resolver.position?_eq_search? _ _
  rw [resolve?_eq_search?, hposition, Option.bind_eq_none_iff]
  refine ⟨fun h => ?_, fun h i hi => ?_⟩
  · refine Option.eq_none_iff_forall_ne_some.mpr fun i hi => ?_
    have hlt := lt_of_search? hi
    rw [List.length_map] at hlt
    have hmissing := h i hi
    rw [List.getElem?_eq_none_iff, List.length_map] at hmissing
    omega
  · rw [h] at hi
    cases hi

/-- The counts and lists of a graph agree. The notes and with them all lists of notes are in path
order. -/
structure Agree (g : Graph) : Prop where
  ordered : (g.notes.map Note.path).Pairwise (· < ·)
  unresolved : ∀ target, g.resolve? target = none ↔ g.resolver.position? target = none
  described : ∀ p ∈ g.notes, g.describe? p.path =
    some ⟨p.path, p.info.title, (g.sources p.path).card, (g.outgoing p.path).length⟩
  noIncoming : ∀ p ∈ g.notes,
    p ∈ g.orphans .noIncoming none ↔ (g.sources p.path).card = 0
  notHub : ∀ p ∈ g.notes, ∀ limit, g.notes.length ≤ limit →
    ((g.sources p.path).card = 0 ↔ p.path ∉ (g.hubs limit).map Hub.path)
  noOutgoing : ∀ p ∈ g.notes, p ∈ g.orphans .noOutgoing none ↔ g.outgoing p.path = []
  isolated : ∀ p, p ∈ g.orphans .isolated none ↔
    p ∈ g.orphans .noIncoming none ∧ p ∈ g.orphans .noOutgoing none
  listed : ∀ kind, (g.orphans kind none).Sublist g.notes
  under : ∀ kind start, g.orphans kind (some start) =
    (g.orphans kind none).filter fun p => start.toList <+: p.path.toList
  broken : g.broken none =
    g.notes.flatMap fun p => (g.outgoing p.path).filter fun l => l.resolved.isNone
  brokenUnder : ∀ start, g.broken (some start) =
    (g.notes.filter fun p => start.toList <+: p.path.toList).flatMap fun p =>
      (g.outgoing p.path).filter fun l => l.resolved.isNone
  hubs : ∃ ranking : List Hub, (∀ limit, g.hubs limit = ranking.take limit) ∧
    ranking.Pairwise Hub.Ahead ∧
    ∀ h, h ∈ ranking ↔ 0 < h.incoming ∧ ∃ p ∈ g.notes, g.describe? p.path = some h

theorem agree_of_ordered {notes : List Note}
    (hordered : (notes.map Note.path).Pairwise (· < ·)) : Agree (ofNotes notes) := by
  have hpaths : ((ofNotes notes).notes.map Note.path).Nodup :=
    hordered.imp fun hab => Std.ne_of_lt hab
  have hunder (p : Note) : Graph.under none p.path = true := rfl
  exact
    { ordered := hordered
      unresolved := fun _ => resolve?_eq_none
      described := by
        intro p hp
        rw [describe?_of_mem hpaths hp, outgoing_of_mem hpaths hp, List.length_map,
          ← hubOf_incoming]
        rfl
      noIncoming := by
        intro p hp
        rw [mem_orphans, and_iff_right hp, and_iff_right (hunder p)]
        exact namedBy_isEmpty p.path
      notHub := by
        intro p hp limit hlimit
        have hall : (ofNotes notes).hubs limit = (ofNotes notes).ranked :=
          List.take_of_length_le (length_ranked.trans hlimit)
        rw [hall, mem_ranked_path hpaths hp, Nat.pos_iff_ne_zero, not_not]
      noOutgoing := by
        intro p hp
        rw [mem_orphans, and_iff_right hp, and_iff_right (hunder p), outgoing_of_mem hpaths hp,
          List.map_eq_nil_iff]
        exact List.isEmpty_iff
      isolated := by
        intro p
        simp only [mem_orphans, isOrphan, Bool.and_eq_true]
        grind
      listed := fun _ => List.filter_sublist.trans List.filter_sublist
      under := by
        intro kind start
        rw [orphans, orphans, List.filter_filter, List.filter_filter, List.filter_filter]
        refine List.filter_congr fun p _ => ?_
        rw [under_some, hunder, Bool.and_true, Bool.and_comm]
      broken := by
        rw [broken_eq hpaths]
        simp only [Graph.under, List.filter_true]
      brokenUnder := by
        intro start
        rw [broken_eq hpaths]
        simp only [under_some]
      hubs := by
        refine ⟨(ofNotes notes).ranked, fun _ => rfl, ranked_ahead hpaths, fun h => ?_⟩
        rw [mem_ranked]
        refine and_congr_right fun _ => exists_congr fun p => and_congr_right fun hp => ?_
        rw [describe?_of_mem hpaths hp, Option.some.injEq] }

/-- The link statistics of the graph of an index agree: descriptions, orphans, hubs and broken links
with what comes in at each note and what goes out from it. -/
theorem ofIndex_agree (ix : Index) : Agree (ofIndex ix) := by
  refine agree_of_ordered ?_
  change (ix.sorted.map Note.path).Pairwise (· < ·)
  have hle : (ix.sorted.map Note.path).Pairwise (· ≤ ·) :=
    List.pairwise_map.mpr (pairwise_mergeSort_text Note.path ix.all)
  have hnodup : (ix.sorted.map Note.path).Nodup := by
    refine ((List.mergeSort_perm _ _).map Note.path).nodup_iff.mpr ?_
    rw [Index.map_path_all]
    exact ix.notes.paths_nodup
  exact (hle.and hnodup).imp fun hab => Std.lt_of_le_of_ne hab.1 hab.2

end Graph

end Slipbox
