import Slipbox.Proofs.Distinct
import Slipbox.Proofs.Graph.Visible
import Slipbox.Proofs.Index.Catalog
import Slipbox.Proofs.Query.Contents

/-! What can be read from an index depends only on the map from paths to notes that the calls have
led to. The keys of its rows, the order in which its notes have come in and that of their tags have
no part in any answer. -/

namespace Slipbox

namespace Catalog

theorem lookup_put (m : Catalog) (n : Note) (path : String) :
    (m.put n).lookup path = if path = n.path then some n else m.lookup path := by
  split
  · next hpath => rw [hpath, put, Finmap.lookup_insert]
  · next hpath => rw [put, Finmap.lookup_insert_of_ne m hpath]

theorem lookup_erase (m : Catalog) (gone path : String) :
    Finmap.lookup path (m.erase gone) = if path = gone then none else m.lookup path := by
  split
  · next hpath => rw [hpath, Finmap.lookup_erase]
  · next hpath => rw [Finmap.lookup_erase_ne hpath]

end Catalog

/-- What an index holds at each path is the note of the map, as an index keeps it. -/
def Holds (ix : Index) (m : Catalog) : Prop :=
  ∀ path, ix.find? path = (m.lookup path).map Note.kept

namespace Holds

variable {ix : Index} {m : Catalog}

theorem empty : Holds Index.empty ∅ := by
  intro path
  rw [Finmap.lookup_empty]
  rfl

theorem upsert (h : Holds ix m) (n : Note) : Holds (ix.upsert n) (m.put n) := by
  intro path
  rw [Index.find?_upsert, Catalog.lookup_put, h]
  split <;> rfl

theorem remove (h : Holds ix m) (gone : String) : Holds (ix.remove gone) (m.erase gone) := by
  intro path
  rw [Index.find?_remove, Catalog.lookup_erase, h]
  split <;> rfl

theorem upsertAll (h : Holds ix m) (ns : List Note) :
    Holds (ix.upsertAll ns) (ns.foldl Catalog.put m) := by
  induction ns generalizing ix m with
  | nil => exact h
  | cons n ns ih => exact ih (h.upsert n)

theorem removeAll (h : Holds ix m) (paths : List String) :
    Holds (ix.removeAll paths).1 (paths.foldl (fun m path => m.erase path) m) := by
  induction paths generalizing ix m with
  | nil => exact h
  | cons path paths ih =>
      rw [Index.removeAll_cons]
      exact ih (h.remove path)

theorem step (h : Holds ix m) (c : Call) : Holds (c.run ix).1 (c.apply m).1 := by
  cases c with
  | upsertNotes ns => exact h.upsertAll ns
  | upsertNote n => exact h.upsert n
  | removeNotes paths => exact h.removeAll paths

theorem sequence (h : Holds ix m) (calls : List Call) :
    Holds (Call.sequence Call.run calls ix).1 (Call.sequence Call.apply calls m).1 := by
  induction calls generalizing ix m with
  | nil => exact h
  | cons c calls ih => exact ih (h.step c)

/-- What has been written has a number for its confidence, or none. -/
theorem sortable (h : Holds ix m) {n : Note} (hn : n ∈ ix.all) : n.info.Sortable := by
  have hfound := Index.mem_all.mp hn
  rw [h] at hfound
  obtain ⟨written, _, rfl⟩ := Option.map_eq_some_iff.mp hfound
  intro x hx
  obtain ⟨y, _, hy⟩ := Option.bind_eq_some_iff.mp hx
  unfold storedNumber at hy
  split at hy
  · cases hy
  · next hnumber =>
    split at hy
    · cases hy
      decide +kernel
    · cases hy
      simpa using hnumber

end Holds

/-- Two notes that an index keeps alike: they agree in their metadata as stored, their text, the set
of their tags and the order of their links without the repetitions. -/
structure SameNote (n n' : Note) : Prop where
  info : n.stored.info = n'.stored.info
  content : n.content = n'.content
  tags : n.tags.toFinset = n'.tags.toFinset
  links : n.links.eraseDups = n'.links.eraseDups

/-- Two maps have notes that are the same at the same paths. -/
def Catalog.SameContents (m m' : Catalog) : Prop :=
  ∀ path, Option.Rel SameNote (m.lookup path) (m'.lookup path)

theorem SameNote.sortedTags_kept {n n' : Note} (h : SameNote n n') :
    n.kept.sortedTags = n'.kept.sortedTags := by
  have hperm : n.tags.eraseDups.Perm n'.tags.eraseDups := by
    rw [List.perm_ext_iff_of_nodup (nodup_eraseDups _) (nodup_eraseDups _)]
    intro tag
    rw [List.mem_eraseDups, List.mem_eraseDups, ← List.mem_toFinset, h.tags, List.mem_toFinset]
  exact mergeSort_text_eq_of_perm id hperm fun _ _ _ _ hsame => hsame

theorem SameNote.visible_kept {n n' : Note} (h : SameNote n n') :
    n.kept.visible = n'.kept.visible := by
  have hfields (n : Note) : n.kept.visible =
      ⟨n.stored.info, n.content, none, n.kept.sortedTags, n.links.eraseDups⟩ := rfl
  rw [hfields, hfields, h.info, h.content, h.sortedTags_kept, h.links]

theorem Catalog.SameContents.find?_visible {m m' : Catalog} (h : m.SameContents m') {ix ix' : Index}
    (hix : Holds ix m) (hix' : Holds ix' m') (path : String) :
    (ix.find? path).map Note.visible = (ix'.find? path).map Note.visible := by
  rw [hix, hix']
  have hpath := h path
  revert hpath
  generalize m.lookup path = n?, m'.lookup path = n?'
  intro hpath
  cases hpath with
  | none => rfl
  | some hsame => exact congrArg some hsame.visible_kept

/-- Two histories that lead to the same notes at the same paths give the same answers to every
query, malformed ones included, and to every request to the graph. -/
theorem reads_depend_on_contents (calls calls' : List Call)
    (hsame : (Call.sequence Call.apply calls ∅).1.SameContents
      (Call.sequence Call.apply calls' ∅).1) :
    let ix := (Call.sequence Call.run calls Index.empty).1
    let ix' := (Call.sequence Call.run calls' Index.empty).1
    (∀ text defaultLimit,
      Query.runText text ix defaultLimit = Query.runText text ix' defaultLimit) ∧
    Graph.SameAnswers (Graph.ofIndex ix) (Graph.ofIndex ix') := by
  intro ix ix'
  have hix : Holds ix _ := Holds.empty.sequence calls
  have hix' : Holds ix' _ := Holds.empty.sequence calls'
  have hvisible := hsame.find?_visible hix hix'
  refine ⟨Query.runText_of_visible hvisible fun n hn => hix.sortable hn, .of_visible ?_⟩
  rw [Graph.ofIndex, Graph.ofIndex, Graph.visible_ofNotes, Graph.visible_ofNotes,
    Index.sorted_view_eq Note.path_visible hvisible]

/-- A note comes first in one history; in the other it comes last, after one that does not stay,
with its tags in another order and without a hash. -/
theorem reads_depend_on_contents_reordered :
    let note (path : String) (contentHash : Option String) (tags : List String) : Note :=
      ⟨⟨path, "Note", none, none, none, none, none, false⟩, "text", contentHash, tags, ["b", "a"]⟩
    let calls : List Call :=
      [.upsertNotes [note "a.md" (some "1f") ["x", "y"], note "b.md" none []]]
    let calls' : List Call := [.upsertNote (note "c.md" none []), .upsertNote (note "b.md" none []),
      .upsertNote (note "a.md" none ["y", "x", "y"]), .removeNotes ["c.md", "d.md"]]
    let ix := (Call.sequence Call.run calls Index.empty).1
    let ix' := (Call.sequence Call.run calls' Index.empty).1
    (Call.sequence Call.apply calls ∅).1.SameContents (Call.sequence Call.apply calls' ∅).1 ∧
      ix.paths = ["a.md", "b.md"] ∧ ix'.paths = ["b.md", "a.md"] ∧
      Query.runText "TABLE title WHERE tags = x SORT title" ix 50 =
        Query.runText "TABLE title WHERE tags = x SORT title" ix' 50 ∧
      (Graph.ofIndex ix).hubs 10 = (Graph.ofIndex ix').hubs 10 := by
  intro note calls calls' ix ix'
  have hsame : (Call.sequence Call.apply calls ∅).1.SameContents
      (Call.sequence Call.apply calls' ∅).1 := by
    intro path
    change Option.Rel SameNote
      (Finmap.lookup path ((Catalog.put ∅ (note "a.md" (some "1f") ["x", "y"])).put
        (note "b.md" none [])))
      (Finmap.lookup path (((((Catalog.put ∅ (note "c.md" none [])).put (note "b.md" none [])).put
        (note "a.md" none ["y", "x", "y"])).erase "c.md").erase "d.md"))
    have hpath (path : String) (contentHash : Option String) (tags : List String) :
        (note path contentHash tags).path = path := rfl
    simp only [Catalog.lookup_put, Catalog.lookup_erase, Finmap.lookup_empty, hpath]
    by_cases ha : path = "a.md"
    · subst ha
      have htags : ["x", "y"].toFinset = ["y", "x", "y"].toFinset := by decide +kernel
      exact .some ⟨rfl, rfl, htags, rfl⟩
    by_cases hb : path = "b.md"
    · subst hb
      exact .some ⟨rfl, rfl, rfl, rfl⟩
    · simp only [ha, hb, if_false]
      split_ifs <;> exact .none
  obtain ⟨hqueries, hgraph⟩ := reads_depend_on_contents calls calls' hsame
  exact ⟨hsame, by decide +kernel, by decide +kernel, hqueries _ _, hgraph.hubs 10⟩

end Slipbox
