import Slipbox.Proofs.Index.Contents
import Slipbox.Proofs.Query.Selection
import Slipbox.Proofs.Sql.Order

/-! What a query returns depends only on what is visible of the notes in an index: each row has its
part in the report by its note alone, and where rows are sorted no two of them stand level. -/

namespace Slipbox

/-- The row of a note, the key of which says nothing. -/
def Note.row (n : Note) : NoteRow :=
  NoteTable.rowOf n 0

namespace Query

open Sql (Tables Scope Select)

theorem valueIn_congr {row row' : NoteRow} (hinfo : row.info = row'.info)
    (hcontent : row.content = row'.content) (f : Field) : f.valueIn row = f.valueIn row' := by
  cases f <;> simp only [Field.valueIn, hinfo, hcontent]

theorem hasTag_congr {tags tags' : List String} (htags : ∀ tag, tag ∈ tags ↔ tag ∈ tags')
    (text : String) : hasTag tags text = hasTag tags' text := by
  rw [Bool.eq_iff_iff]
  simp only [hasTag, List.any_eq_true, htags]

theorem isFrom_congr {row row' : NoteRow} (hinfo : row.info = row'.info) (path : String) :
    isFrom path row ↔ isFrom path row' := by
  rw [isFrom, isFrom, NoteRow.path, NoteRow.path, hinfo]

section Congr

variable {row row' : NoteRow} {tags tags' : List String} (hinfo : row.info = row'.info)
  (hcontent : row.content = row'.content) (htags : ∀ tag, tag ∈ tags ↔ tag ∈ tags')

include hinfo hcontent htags

/-- A condition does not look at the key of a row, nor at the order of its tags. -/
theorem meaning_congr (w : Condition) : w.meaning row tags = w.meaning row' tags' := by
  induction w with
  | compare name op value =>
      simp only [Condition.meaning, comparison, hasTag_congr htags,
        valueIn_congr hinfo hcontent]
  | contains name value =>
      simp only [Condition.meaning, containment, hasTag_congr htags,
        valueIn_congr hinfo hcontent]
  | logical op left right ihleft ihright =>
      cases op <;> simp only [Condition.meaning, ihleft, ihright]

theorem admits_congr (q : Query) : q.admits row tags ↔ q.admits row' tags' := by
  have hfrom := isFrom_congr hinfo
  have hmeaning := meaning_congr hinfo hcontent htags
  unfold admits
  split
  · rfl
  · exact hfrom _
  · rw [hmeaning]
  · next path w _ _ =>
    unfold admitsBehind
    split <;> simp only [hfrom, hmeaning]

/-- Nor do its tests look at them. -/
theorem Condition.fails_congr (w : Condition) : w.fails row tags = w.fails row' tags' := by
  induction w with
  | compare | contains => rfl
  | logical op left right ihleft ihright =>
      have hmeaning := meaning_congr hinfo hcontent htags left
      cases op <;> simp only [Condition.fails, ihleft, ihright, hmeaning]

theorem fails_congr (q : Query) : q.fails row tags ↔ q.fails row' tags' := by
  have hfrom := isFrom_congr hinfo
  have hmeaning := meaning_congr hinfo hcontent htags
  have hfails := Condition.fails_congr hinfo hcontent htags
  unfold fails
  split
  · rfl
  · rw [hfails]
  · next path w _ _ =>
    unfold failsBehind
    split <;> simp only [hfrom, hmeaning, hfails]

end Congr

/-- A value in a column of a field is the same in the row of an index and in that of its note. -/
theorem column_visible {f : Field} {c : Sql.Column} (hcolumn : f.column = some c) (ix : Index)
    (row : NoteRow) :
    (Scope.mk row none).column c = (Scope.mk (ix.noteOf row).visible.row none).column c := by
  rw [column_eq_valueIn hcolumn, column_eq_valueIn hcolumn]
  exact valueIn_congr rfl rfl f

theorem before_visible {f : Field} {c : Sql.Column} (hcolumn : f.column = some c) (d : Direction)
    (ix : Index) (a b : NoteRow) :
    Select.before (orderTerms c d) a b = Select.before (orderTerms c d)
      (ix.noteOf a).visible.row (ix.noteOf b).visible.row := by
  have hpath := column_visible (f := .path) rfl ix
  unfold orderTerms
  split <;> simp only [Select.before, column_visible hcolumn ix a, column_visible hcolumn ix b,
    hpath a, hpath b]

theorem tagsOf_eq (ix : Index) (row : NoteRow) :
    (Tables.ofIndex ix).tagsOf row = (ix.noteOf row).tags := by
  rw [Tables.tagsOf, Index.noteOf, TextTable.textsOf]
  rfl

theorem mem_tagsOf_visible (ix : Index) (row : NoteRow) (tag : String) :
    tag ∈ (Tables.ofIndex ix).tagsOf row ↔ tag ∈ (ix.noteOf row).visible.tags := by
  rw [tagsOf_eq]
  exact List.mem_mergeSort.symm

theorem admits_visible (q : Query) (ix : Index) (row : NoteRow) :
    q.admits row ((Tables.ofIndex ix).tagsOf row) ↔
      q.admits (ix.noteOf row).visible.row (ix.noteOf row).visible.tags := by
  have hinfo : row.info = (ix.noteOf row).visible.row.info := rfl
  exact admits_congr hinfo rfl (mem_tagsOf_visible ix row) q

theorem fails_visible (q : Query) (ix : Index) (row : NoteRow) :
    q.fails row ((Tables.ofIndex ix).tagsOf row) ↔
      q.fails (ix.noteOf row).visible.row (ix.noteOf row).visible.tags := by
  have hinfo : row.info = (ix.noteOf row).visible.row.info := rfl
  exact fails_congr hinfo rfl (mem_tagsOf_visible ix row) q

/-- Whether a query is refused can be told from the notes. -/
theorem refused_iff (q : Query) (params : List Sql.Value) (ix : Index) :
    q.IsRefused params ix ↔ Sql.maxDepth < q.depth ∨ Sql.maxPlaceholders < q.placeholders ∨
      (∃ v ∈ params, Sql.maxTextSize < v.size) ∨
        ∃ n ∈ ix.all.map Note.visible, q.fails n.row n.tags := by
  have hrows : (∃ row ∈ ix.notes.rows, q.fails row ((Tables.ofIndex ix).tagsOf row)) ↔
      ∃ n ∈ ix.all.map Note.visible, q.fails n.row n.tags := by
    simp only [Index.all, List.map_map, List.mem_map, exists_exists_and_eq_and,
      Function.comp_apply, fails_visible]
  rw [IsRefused, hrows]

/-- The cells of a note in a report. -/
def noteCells (t : Translation) (s : Select) (n : Note) : Row :=
  cells t.columns (s.columns.map (Scope.mk n.row none).column).tail ++
    if t.includesTags then [(Field.tags.name, .list n.tags)] else []

open scoped Classical in
/-- The notes that a query lists, from some notes in any order. -/
noncomputable def listed (q : Query) (terms : List (Sql.Column × Bool)) (limit : Nat)
    (notes : List Note) : List Note :=
  ((notes.filter fun n => q.admits n.row n.tags).mergeSort fun a b =>
    Select.before terms a.row b.row).take limit

open scoped Classical in
/-- The rows that a selection yields are those of the notes that the query lists. -/
theorem map_rows_eq_listed {q : Query} {s : Select} {params : List Sql.Value} {f : Field}
    {c : Sql.Column} {d : Direction} {limit : Nat} {ix : Index} (hcolumn : f.column = some c)
    (horder : s.order = orderTerms c d)
    (hkeeps : ∀ row, s.keeps params (.ofIndex ix) row = true ↔
      q.admits row ((Tables.ofIndex ix).tagsOf row))
    (hcap : ∀ rows, s.cap params rows = rows.take limit) :
    (s.rows params (.ofIndex ix)).map (fun row => (ix.noteOf row).visible) =
      listed q (orderTerms c d) limit (ix.all.map Note.visible) := by
  have hfilter : (Tables.ofIndex ix).notes.filter (s.keeps params (.ofIndex ix)) =
      ix.notes.rows.filter ((fun n : Note => decide (q.admits n.row n.tags)) ∘
        fun row => (ix.noteOf row).visible) := by
    refine List.filter_congr fun row _ => ?_
    rw [Bool.eq_iff_iff, hkeeps, admits_visible, Function.comp_apply, decide_eq_true_iff]
  have hsort (rows : List NoteRow) :
      (rows.mergeSort (Select.before (orderTerms c d))).map (fun row => (ix.noteOf row).visible) =
        (rows.map fun row => (ix.noteOf row).visible).mergeSort fun a b =>
          Select.before (orderTerms c d) a.row b.row :=
    List.map_mergeSort fun a _ b _ => before_visible hcolumn d ix a b
  rw [Select.rows, hcap, horder, List.map_take, hsort, hfilter, ← List.filter_map, listed,
    Index.all, List.map_map]
  rfl

theorem rows_eq_noteCells {t : Translation} {s : Select}
    (hselected : s.columns = .id :: t.fields.filterMap Field.column) (ix : Index) :
    t.rows s (.ofIndex ix) = (s.rows t.params (.ofIndex ix)).map fun row =>
      noteCells t s (ix.noteOf row).visible := by
  rw [t.rows_ofIndex hselected]
  refine List.map_congr_left fun row _ => ?_
  have hvalues : (t.fields.filterMap Field.column).map (Scope.mk row none).column =
      (s.columns.map (Scope.mk (ix.noteOf row).visible.row none).column).tail := by
    rw [hselected, List.map_cons, List.tail_cons]
    refine List.map_congr_left fun c hc => ?_
    obtain ⟨f, _, hcolumn⟩ := List.mem_filterMap.mp hc
    exact column_visible hcolumn ix row
  rw [noteCells, hvalues]
  rfl

/-- What a query does with an index that it is not refused for is done with its notes. -/
theorem run_eq_listed {q : Query} {defaultLimit : Nat} {t : Translation}
    (htranslate : q.translate defaultLimit = .ok t) :
    ∃ s f c d, Field.column f = some c ∧ ∀ ix, ¬ q.IsRefused t.params ix →
      run q ix defaultLimit = .ok ⟨q.shape, t.fields.map Field.name,
        (listed q (orderTerms c d) (min (q.limit.getD defaultLimit) maxInteger)
          (ix.all.map Note.visible)).map (noteCells t s)⟩ := by
  obtain ⟨s, f, c, d, h⟩ := stated_of_translate htranslate
  refine ⟨s, f, c, d, h.column, fun ix hnot => ?_⟩
  have hlisted := map_rows_eq_listed h.column h.terms (h.keeps (.ofIndex ix)) h.cap
  rw [h.run_eq htranslate hnot]
  rw [← hlisted, List.map_map, rows_eq_noteCells h.selected]
  rfl

theorem run_refused {q : Query} {defaultLimit : Nat} {t : Translation}
    (htranslate : q.translate defaultLimit = .ok t) {ix : Index} (h : q.IsRefused t.params ix) :
    run q ix defaultLimit = .error .statement := by
  obtain ⟨s, f, c, d, hstated⟩ := stated_of_translate htranslate
  exact hstated.run_refused htranslate h

theorem path_mem_orderTerms (c : Sql.Column) (d : Direction) :
    ∃ descending, (.path, descending) ∈ orderTerms c d := by
  unfold orderTerms
  split
  · next hpath =>
    subst hpath
    exact ⟨_, List.mem_cons_self⟩
  · exact ⟨false, by simp⟩

/-- In which order the notes come makes no difference, as each has a path of its own. -/
theorem listed_perm (q : Query) (c : Sql.Column) (d : Direction) (limit : Nat)
    {notes notes' : List Note} (hperm : notes.Perm notes') (hpaths : (notes.map Note.path).Nodup)
    (hsortable : ∀ n ∈ notes, n.info.Sortable) :
    listed q (orderTerms c d) limit notes = listed q (orderTerms c d) limit notes' := by
  have hsound {n : Note} {p : Note → Bool} (hn : n ∈ notes.filter p) : n.row.info.Sortable :=
    hsortable n (List.mem_of_mem_filter hn)
  obtain ⟨descending, hpath⟩ := path_mem_orderTerms c d
  rw [listed, listed]
  congr 1
  refine mergeSort_eq_of_perm (hperm.filter _) (fun a₁ h₁ a₂ h₂ a₃ h₃ => ?_) (fun a ha b hb => ?_)
    fun a ha b hb hab hba => ?_
  · exact Select.before_trans (hsound h₁) (hsound h₂) (hsound h₃)
  · exact Select.before_total (hsound ha) (hsound hb)
  · exact List.inj_on_of_nodup_map hpaths (List.mem_of_mem_filter ha) (List.mem_of_mem_filter hb)
      (Select.path_eq_of_before hpath (hsound ha) (hsound hb) hab hba)

/-- Every query has one result for all indexes that look the same, malformed queries and those that
are refused included. -/
theorem runText_of_visible {ix ix' : Index}
    (h : ∀ path, (ix.find? path).map Note.visible = (ix'.find? path).map Note.visible)
    (hsortable : ∀ n ∈ ix.all, n.info.Sortable) (text : String) (defaultLimit : Nat) :
    runText text ix defaultLimit = runText text ix' defaultLimit := by
  have hperm := Index.all_view_perm Note.path_visible h
  unfold runText
  split
  · rfl
  · next q _ =>
    cases htranslate : q.translate defaultLimit with
    | error e => rw [run, run, htranslate]
    | ok t =>
        have hrefused : q.IsRefused t.params ix ↔ q.IsRefused t.params ix' := by
          rw [refused_iff, refused_iff]
          simp only [hperm.mem_iff]
        by_cases hix : q.IsRefused t.params ix
        · rw [run_refused htranslate hix, run_refused htranslate (hrefused.mp hix)]
        obtain ⟨s, f, c, d, _, hrun⟩ := run_eq_listed htranslate
        have hpaths : ((ix.all.map Note.visible).map Note.path).Nodup := by
          rw [Index.map_path_view Note.path_visible]
          exact ix.notes.paths_nodup
        rw [hrun ix hix, hrun ix' (mt hrefused.mpr hix), listed_perm q c d _ hperm hpaths]
        intro n hn
        obtain ⟨m, hm, rfl⟩ := List.mem_map.mp hn
        exact hsortable m hm

end Query

end Slipbox
