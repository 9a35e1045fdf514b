import Slipbox.Proofs.Query.LimitLiteral
import Slipbox.Proofs.Reads
import Slipbox.Proofs.Text.Bytes

/-! Which rows a query returns, and in which order. The notes that its statement selects are put in
the order of one field, and those that stand level there in the order of their paths; the limit cuts
this list off behind a number of notes, so that a larger limit only adds to the end. -/

namespace Slipbox

namespace Sql.Value

end Sql.Value

namespace Query

open Sql (Select Tables Value)

/-- The rows that a statement selects, in order and before its limit. -/
def ranked (s : Select) (params : List Value) (ix : Index) : List NoteRow :=
  (ix.notes.rows.filter (s.keeps params (.ofIndex ix))).mergeSort (Select.before s.order)

theorem paths_ranked_nodup (s : Select) (params : List Value) (ix : Index) :
    ((ranked s params ix).map NoteRow.path).Nodup :=
  ((List.mergeSort_perm _ _).map _).nodup_iff.mpr
    (ix.notes.paths_nodup.sublist (List.filter_sublist.map _))

/-- The row of a report for a note. -/
def reportRow (t : Translation) (ix : Index) (row : NoteRow) : Row :=
  (t.columns.map fun f => (f.name, cell f.kind (f.valueIn row))) ++
    if t.includesTags then [(Field.tags.name, .list (ix.noteOf row).sortedTags)] else []

section Stated

variable {q : Query} {defaultLimit : Nat} {t : Translation} {s : Select} {f : Field}
  {c : Sql.Column} {d : Direction}

theorem cells_filter (fields : List Field) (row : NoteRow) :
    cells (fields.filter Field.isColumn)
        ((fields.filterMap Field.column).map (Sql.Scope.mk row none).column) =
      (fields.filter Field.isColumn).map fun f => (f.name, cell f.kind (f.valueIn row)) := by
  induction fields with
  | nil => rfl
  | cons f fields ih =>
      cases hc : f.column with
      | none =>
          have hf : ¬ f.isColumn = true := by simp [Field.isColumn_eq, hc]
          rw [List.filter_cons_of_neg hf, List.filterMap_cons_none hc, ih]
      | some c =>
          have hf : f.isColumn = true := by simp [Field.isColumn_eq, hc]
          rw [List.filter_cons_of_pos hf, List.filterMap_cons_some hc, List.map_cons, List.map_cons,
            cells, List.zipWith_cons_cons, column_eq_valueIn hc, ← ih, cells]

theorem Stated.rows_eq (h : Stated q defaultLimit t s f c d) (ix : Index) :
    t.rows s (.ofIndex ix) = ((ranked s t.params ix).take
      (min (q.limit.getD defaultLimit) maxInteger)).map (reportRow t ix) := by
  rw [t.rows_ofIndex h.selected, Select.rows, h.cap]
  refine List.map_congr_left fun row _ => ?_
  rw [h.columns, cells_filter, reportRow, h.columns]

end Stated

end Query

end Slipbox
