import Slipbox.Proofs.Index.Tables
import Slipbox.Proofs.Index.Tags
import Slipbox.Query.Run

/-! The rows of a report, one for each selected note. Every row gets the tags of its own note behind
the values of the columns, since the selected notes have keys of their own. -/

namespace Slipbox.Query

open Sql (Select Scope Tables)

theorem Translation.withTags_eq (fetched : List (Nat × Row)) (tags : TagsByNote)
    (hnodup : (fetched.map Prod.fst).Nodup) :
    withTags fetched tags =
      fetched.map fun r => r.2 ++ [(Field.tags.name, .list (tags.get r.1))] := by
  induction fetched generalizing tags with
  | nil => rfl
  | cons r rest ih =>
      rw [List.map_cons, List.nodup_cons] at hnodup
      rw [withTags, ih _ hnodup.2, List.map_cons]
      congr 1
      refine List.map_congr_left fun r' hr' => ?_
      have hne : r.1 ≠ r'.1 := fun hsame =>
        hnodup.1 (hsame ▸ List.mem_map_of_mem (f := Prod.fst) hr')
      rw [TagsByNote.get_erase_of_ne hne]

theorem cap_sublist (s : Select) (params : List Sql.Value) (rows : List NoteRow) :
    (s.cap params rows).Sublist rows := by
  unfold Select.cap
  split
  · exact List.take_sublist _ _
  · split
    · split
      · exact List.Sublist.refl _
      · exact List.take_sublist _ _
    · exact List.Sublist.refl _
  · exact List.Sublist.refl _

theorem ids_selected_nodup (s : Select) (params : List Sql.Value) (ix : Index) :
    ((s.rows params (.ofIndex ix)).map NoteRow.id).Nodup := by
  refine ((cap_sublist s params _).map NoteRow.id).nodup ?_
  refine ((List.mergeSort_perm _ _).map NoteRow.id).nodup_iff.mpr ?_
  exact (List.filter_sublist.map NoteRow.id).nodup ix.notes.ids_nodup

theorem sortedTexts_tags (ix : Index) (row : NoteRow) :
    sortedTexts ix.tags.rows row.id = (ix.noteOf row).sortedTags := rfl

/-- The key that leads a statement's columns brings the row together with the tags of its note. -/
theorem Translation.rows_ofIndex (t : Translation) {s : Select} {columns : List Sql.Column}
    (hselected : s.columns = .id :: columns) (ix : Index) :
    t.rows s (.ofIndex ix) = (s.rows t.params (.ofIndex ix)).map fun row =>
      cells t.columns (columns.map (Scope.mk row none).column) ++
        if t.includesTags then [(Field.tags.name, .list (ix.noteOf row).sortedTags)] else [] := by
  have hfetched : ((s.run t.params (.ofIndex ix)).map fun values =>
      (keyOf values, cells t.columns values.tail)) =
        (s.rows t.params (.ofIndex ix)).map fun row =>
          (row.id, cells t.columns (columns.map (Scope.mk row none).column)) := by
    rw [Select.run, List.map_map]
    refine List.map_congr_left fun row _ => ?_
    rw [Function.comp_apply, hselected]
    rfl
  have hkeys := ids_selected_nodup s t.params ix
  unfold rows
  simp only [hfetched]
  cases t.includesTags with
  | false => simp [Function.comp_def]
  | true =>
      simp only [if_true]
      rw [withTags_eq _ _ (by simpa [Function.comp_def] using hkeys), List.map_map, List.map_map]
      refine List.map_congr_left fun row hrow => ?_
      have hfound := TagsByNote.get_ofNotes ix.tags.rows hkeys
        (List.mem_map_of_mem (f := NoteRow.id) hrow)
      simp only [Function.comp_apply]
      rw [← sortedTexts_tags, ← hfound]
      rfl

end Slipbox.Query
