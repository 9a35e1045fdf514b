import Slipbox.Proofs.Index.Stored
import Slipbox.Proofs.Sorted

/-! The contents of an index: what it holds at each path, apart from the keys of its rows. Indexes
that hold the same at every path list the same notes in path order. Of a note not all is visible to
those who read an index: its tags have no order of their own, and its hash is only there to notice
changes. -/

namespace Slipbox

/-- The note as an index holds it. -/
def Note.kept (n : Note) : Note :=
  { n.stored with tags := n.tags.eraseDups, links := n.links.eraseDups }

/-- The note with its tags in the order of their text, and without the hash. -/
def Note.visible (n : Note) : Note :=
  { n with contentHash := none, tags := n.sortedTags }

theorem Note.path_visible (n : Note) : n.visible.path = n.path := rfl

theorem Note.sortedTags_visible (n : Note) : n.visible.sortedTags = n.sortedTags := by
  have hsorted : n.sortedTags.Pairwise (· ≤ ·) := pairwise_mergeSort_text id n.tags
  exact List.mergeSort_of_pairwise (hsorted.imp decide_eq_true)

def StoredNote.note (s : StoredNote) : Note :=
  ⟨s.row.info, s.row.content, s.row.contentHash, s.tags, s.links⟩

namespace Index

theorem find?_eq_stored? (ix : Index) (path : String) :
    ix.find? path = (ix.stored? path).map StoredNote.note := by
  rw [find?, stored?, Option.map_map]
  rfl

theorem find?_upsert (ix : Index) (n : Note) (path : String) :
    (ix.upsert n).find? path = if path = n.path then some n.kept else ix.find? path := by
  rw [find?_eq_stored?, find?_eq_stored?]
  split
  · next hpath =>
    rw [hpath, stored?_upsert_self]
    rfl
  · next hpath => rw [stored?_upsert_of_ne ix hpath]

theorem find?_remove (ix : Index) (gone path : String) :
    (ix.remove gone).find? path = if path = gone then none else ix.find? path := by
  rw [find?_eq_stored?, find?_eq_stored?, stored?_remove]
  split <;> rfl

theorem map_path_all (ix : Index) : ix.all.map Note.path = ix.paths := by
  rw [all, List.map_map]
  rfl

theorem mem_all {ix : Index} {n : Note} : n ∈ ix.all ↔ ix.find? n.path = some n := by
  simp only [all, find?, List.mem_map, Option.map_eq_some_iff, NoteTable.find?_eq_some, and_assoc]
  constructor
  · rintro ⟨r, hr, rfl⟩
    exact ⟨r, hr, rfl, rfl⟩
  · rintro ⟨r, hr, _, hn⟩
    exact ⟨r, hr, hn⟩

section View

/-! A view of notes keeps their paths and may leave out what does not matter. -/

variable {ix ix' : Index} {view : Note → Note} (hview : ∀ n, (view n).path = n.path)

include hview

theorem map_path_view (ix : Index) : (ix.all.map view).map Note.path = ix.paths := by
  rw [List.map_map, ← map_path_all]
  exact List.map_congr_left fun n _ => hview n

theorem mem_all_view {n : Note} : n ∈ ix.all.map view ↔ (ix.find? n.path).map view = some n := by
  simp only [List.mem_map, mem_all, Option.map_eq_some_iff]
  constructor
  · rintro ⟨m, hm, rfl⟩
    exact ⟨m, by rwa [hview], rfl⟩
  · rintro ⟨m, hm, hn⟩
    rw [← hn, hview] at hm
    have hpath : ix.find? m.path = some m := hm
    exact ⟨m, hpath, hn⟩

/-- Two indexes that look the same at every path hold the same notes. -/
theorem all_view_perm (h : ∀ path, (ix.find? path).map view = (ix'.find? path).map view) :
    (ix.all.map view).Perm (ix'.all.map view) := by
  have hnodup (ix : Index) : (ix.all.map view).Nodup := by
    refine List.Nodup.of_map Note.path ?_
    rw [map_path_view hview]
    exact ix.notes.paths_nodup
  rw [List.perm_ext_iff_of_nodup (hnodup ix) (hnodup ix')]
  intro n
  rw [mem_all_view hview, mem_all_view hview, h]

theorem sorted_view_eq (h : ∀ path, (ix.find? path).map view = (ix'.find? path).map view) :
    ix.sorted.map view = ix'.sorted.map view := by
  have hmap (ix : Index) :
      ix.sorted.map view = (ix.all.map view).mergeSort fun a b => a.path ≤ b.path :=
    List.map_mergeSort fun a _ b _ => by rw [hview, hview]
  rw [hmap, hmap]
  refine mergeSort_text_eq_of_perm Note.path (all_view_perm hview h) fun a ha b hb hpath => ?_
  rw [mem_all_view hview] at ha hb
  exact Option.some.inj (ha.symm.trans (hpath ▸ hb))

end View

/-- Two indexes list the same notes just when they hold the same at every path. -/
theorem sorted_eq_iff {ix ix' : Index} :
    ix.sorted = ix'.sorted ↔ ∀ path, ix.find? path = ix'.find? path := by
  constructor
  · intro h path
    have hmem (ix : Index) (n : Note) : n ∈ ix.sorted ↔ ix.find? n.path = some n := by
      rw [sorted, List.mem_mergeSort, mem_all]
    have hpath {ix : Index} {n : Note} (hn : ix.find? path = some n) : n.path = path := by
      obtain ⟨r, hr, rfl⟩ := Option.map_eq_some_iff.mp hn
      exact (NoteTable.find?_eq_some.mp hr).2
    refine Option.ext fun n => ⟨fun hn => ?_, fun hn => ?_⟩
    · rw [← hpath hn, ← hmem, ← h, hmem, hpath hn, hn]
    · rw [← hpath hn, ← hmem, h, hmem, hpath hn, hn]
  · intro h
    have hview : ix.sorted.map id = ix'.sorted.map id :=
      sorted_view_eq (fun _ => rfl) fun path => by rw [h path]
    simpa only [List.map_id] using hview

end Index

end Slipbox
