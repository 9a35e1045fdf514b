import Slipbox.Proofs.Index.Tables

/-! What an index holds at a path: the row of the path with its tags and links, and how writing and
removing notes change it. A write changes nothing at other paths. -/

namespace Slipbox

/-- The row of a note, with its tags and links. -/
structure StoredNote where
  row : NoteRow
  tags : List String
  links : List String

namespace Index

def stored? (ix : Index) (path : String) : Option StoredNote :=
  (ix.notes.find? path).map fun r => ⟨r, ix.tags.textsOf r.id, ix.links.textsOf r.id⟩

theorem stored?_eq_none {ix : Index} {path : String} :
    ix.stored? path = none ↔ path ∉ ix.paths := by
  rw [stored?, Option.map_eq_none_iff, NoteTable.find?_eq_none, paths, List.mem_map]
  simp only [not_exists, not_and, ne_eq]

/-- What is stored of a note that is written at a key. -/
def entryOf (n : Note) (id : Nat) : StoredNote :=
  ⟨NoteTable.rowOf n.stored id, n.tags.eraseDups, n.links.eraseDups⟩

theorem stored?_upsert_self (ix : Index) (n : Note) :
    (ix.upsert n).stored? n.path = some (entryOf n (ix.notes.idFor n.path)) := by
  have hrow : (ix.upsert n).notes.find? n.path =
      some (NoteTable.rowOf n.stored (ix.notes.idFor n.path)) := by
    change (ix.notes.write n.stored).find? n.path = _
    rw [NoteTable.find?_write, Note.path_stored, if_pos rfl]
  rw [stored?, hrow, Option.map_some]
  change some (StoredNote.mk _ ((ix.tags.assign _ n.tags).textsOf _)
    ((ix.links.assign _ n.links).textsOf _)) = _
  rw [NoteTable.rowOf, TextTable.textsOf_assign, TextTable.textsOf_assign]
  rfl

theorem stored?_upsert_of_ne (ix : Index) {n : Note} {path : String} (hpath : path ≠ n.path) :
    (ix.upsert n).stored? path = ix.stored? path := by
  have hrow : (ix.upsert n).notes.find? path = ix.notes.find? path := by
    change (ix.notes.write n.stored).find? path = _
    rw [NoteTable.find?_write, Note.path_stored, if_neg hpath]
  rw [stored?, stored?, hrow]
  refine Option.map_congr fun r hr => ?_
  obtain ⟨hmem, rfl⟩ := NoteTable.find?_eq_some.mp hr
  have hid : r.id ≠ ix.notes.idFor n.path := NoteTable.id_ne_idFor hmem hpath
  change StoredNote.mk r ((ix.tags.assign _ n.tags).textsOf _)
    ((ix.links.assign _ n.links).textsOf _) = _
  rw [TextTable.textsOf_assign_of_ne _ hid, TextTable.textsOf_assign_of_ne _ hid]

theorem stored?_remove (ix : Index) (gone path : String) :
    (ix.remove gone).stored? path = if path = gone then none else ix.stored? path := by
  have hrow : (ix.remove gone).notes.find? path =
      if path = gone then none else ix.notes.find? path := NoteTable.find?_erase ix.notes gone path
  rw [stored?, stored?, hrow]
  split
  · rfl
  · next hpath =>
    refine Option.map_congr fun r hr => ?_
    obtain ⟨hmem, rfl⟩ := NoteTable.find?_eq_some.mp hr
    have hid : r.id ∉ ix.notes.idsAt gone := NoteTable.id_notMem_idsAt hmem hpath
    change StoredNote.mk r ((ix.tags.detach _).textsOf _) ((ix.links.detach _).textsOf _) = _
    rw [TextTable.textsOf_detach hid, TextTable.textsOf_detach hid]

theorem stored?_upsertAll_of_notMem {ix : Index} {ns : List Note} {path : String}
    (hpath : path ∉ ns.map Note.path) : (ix.upsertAll ns).stored? path = ix.stored? path := by
  induction ns generalizing ix with
  | nil => rfl
  | cons n ns ih =>
      rw [List.map_cons, List.mem_cons, not_or] at hpath
      rw [upsertAll, List.foldl_cons]
      exact (ih hpath.2).trans (ix.stored?_upsert_of_ne hpath.1)

/-- Of notes with different paths each is stored as it has been written. -/
theorem stored?_upsertAll_of_mem {ix : Index} {ns : List Note} {n : Note} (hn : n ∈ ns)
    (hnodup : (ns.map Note.path).Nodup) :
    ∃ id, (ix.upsertAll ns).stored? n.path = some (entryOf n id) := by
  induction ns generalizing ix with
  | nil => cases hn
  | cons m ns ih =>
      rw [List.map_cons, List.nodup_cons] at hnodup
      rw [upsertAll, List.foldl_cons]
      rcases List.mem_cons.mp hn with rfl | hn
      · exact ⟨_, (stored?_upsertAll_of_notMem hnodup.1).trans (ix.stored?_upsert_self n)⟩
      · exact ih hn hnodup.2

theorem removeAll_cons (ix : Index) (path : String) (paths : List String) :
    ix.removeAll (path :: paths) = (((ix.remove path).removeAll paths).1,
      (ix.notes.idsAt path).length + ((ix.remove path).removeAll paths).2) := by
  have hfold (ix : Index) (paths : List String) : ix.removeAll paths =
      paths.foldl (fun acc path => (acc.1.remove path, acc.2 + (acc.1.notes.idsAt path).length))
        (ix, 0) := rfl
  have hcount (ix : Index) (counted : Nat) :
      paths.foldl (fun acc path => (acc.1.remove path, acc.2 + (acc.1.notes.idsAt path).length))
        (ix, counted) = ((ix.removeAll paths).1, counted + (ix.removeAll paths).2) := by
    rw [hfold]
    induction paths generalizing ix counted with
    | nil => rfl
    | cons path paths ih =>
        rw [List.foldl_cons, List.foldl_cons, ih, ih _ (0 + _)]
        simp only [Nat.zero_add, Nat.add_assoc]
  rw [hfold, List.foldl_cons, hcount, Nat.zero_add]

theorem stored?_removeAll (ix : Index) (gone : List String) (path : String) :
    (ix.removeAll gone).1.stored? path = if path ∈ gone then none else ix.stored? path := by
  induction gone generalizing ix with
  | nil => rfl
  | cons first gone ih =>
      rw [removeAll_cons, ih, stored?_remove]
      by_cases hrest : path ∈ gone
      · rw [if_pos hrest, if_pos (List.mem_cons_of_mem _ hrest)]
      · rw [if_neg hrest]
        simp only [List.mem_cons, hrest, or_false]

/-- Every path that is removed has been there and is counted. -/
theorem count_removeAll {ix : Index} {gone : List String} (hnodup : gone.Nodup)
    (hthere : ∀ path ∈ gone, path ∈ ix.paths) : (ix.removeAll gone).2 = gone.length := by
  induction gone generalizing ix with
  | nil => rfl
  | cons first gone ih =>
      rw [List.nodup_cons] at hnodup
      have hfirst : (ix.notes.find? first).isSome = true := by
        have hstored : ix.stored? first ≠ none := fun h =>
          stored?_eq_none.mp h (hthere first List.mem_cons_self)
        rw [Option.isSome_iff_ne_none]
        exact fun h => hstored (by rw [stored?, h, Option.map_none])
      have hrest : ∀ path ∈ gone, path ∈ (ix.remove first).paths := by
        intro path hpath
        have hne : path ≠ first := fun hsame => hnodup.1 (hsame ▸ hpath)
        by_contra hmissing
        rw [← stored?_eq_none, stored?_remove, if_neg hne, stored?_eq_none] at hmissing
        exact hmissing (hthere path (List.mem_cons_of_mem _ hpath))
      rw [removeAll_cons, ih hnodup.2 hrest, NoteTable.length_idsAt, if_pos hfirst,
        List.length_cons, Nat.add_comm]

end Index

end Slipbox
