import Mathlib.Data.List.Nodup
import Slipbox.Proofs.Query.Refusal
import Slipbox.Proofs.Query.Rows

/-! Which notes a query returns. It returns none if it is refused; otherwise it returns those that
its source and its condition admit. -/

namespace Slipbox.Query

theorem keeps_eq_true {s : Sql.Select} {params : List Sql.Value} {tables : Sql.Tables}
    {row : NoteRow} :
    s.keeps params tables row = true ↔
      ∀ c, s.condition = some c → c.truth params tables ⟨row, none⟩ = some true := by
  unfold Sql.Select.keeps
  split <;> simp_all

theorem cap_eq_take {s : Sql.Select} {params : List Sql.Value} {rows : List NoteRow} {k n : Nat}
    (hlimit : s.limit = .param k) (hparam : params.getD k .null = .integer n) :
    s.cap params rows = rows.take n := by
  simp only [Sql.Select.cap, hlimit, hparam, if_neg (Int.not_lt.mpr (Int.natCast_nonneg n)),
    Int.toNat_natCast]

/-- The paths of the notes in a report. -/
def Report.paths (r : Report) : List String :=
  r.rows.filterMap fun row =>
    match row.get? Field.path.name with
    | some (.text path) => some path
    | _ => none

/-- Requested fields are put behind those that are there. -/
theorem resolveFields_append {names : Option (List String)} {named : List Field}
    (h : resolveFields names = .ok named) : ∃ more, named = [.path, .title] ++ more := by
  unfold resolveFields at h
  split at h
  · cases h
    exact ⟨_, rfl⟩
  · next names =>
    generalize [Field.path, Field.title] = start at h ⊢
    induction names generalizing start with
    | nil =>
        cases h
        exact ⟨[], (List.append_nil _).symm⟩
    | cons name names ih =>
        rw [List.foldlM_cons] at h
        obtain ⟨fields, hstep, h⟩ := bind_eq_ok.mp h
        obtain ⟨f, _, hstep⟩ := bind_eq_ok.mp hstep
        obtain ⟨more, rfl⟩ := ih fields h
        cases hstep
        split
        · exact ⟨more, rfl⟩
        · exact ⟨f :: more, by simp⟩

/-- The first column of a report is the path. -/
theorem rows_paths {t : Translation} {s : Sql.Select} {fields : List Field}
    (hfields : t.fields = .path :: fields) (hcolumns : t.columns = t.fields.filter Field.isColumn)
    (hselected : s.columns = .id :: t.fields.filterMap Field.column) (shape : Shape)
    (names : List String) (ix : Index) :
    (Report.mk shape names (t.rows s (.ofIndex ix))).paths =
      (s.rows t.params (.ofIndex ix)).map NoteRow.path := by
  rw [Report.paths, t.rows_ofIndex hselected, List.filterMap_map, ← List.filterMap_eq_map]
  congr 1
  funext row
  simp only [Function.comp_apply, hcolumns, hfields]
  rfl

/-- What the text of a translated query is read back to: its columns, its order, the notes that its
condition keeps and the number of them that its limit admits. -/
structure Stated (q : Query) (defaultLimit : Nat) (t : Translation) (s : Sql.Select) (f : Field)
    (c : Sql.Column) (d : Direction) : Prop where
  read : Sql.Select.ofText? t.sql = some s
  order : Translation.orderOf q.order = .ok (f, d)
  column : f.column = some c
  terms : s.order = orderTerms c d
  fields : ∃ more, t.fields = .path :: more
  columns : t.columns = t.fields.filter Field.isColumn
  selected : s.columns = .id :: t.fields.filterMap Field.column
  keeps : ∀ (tables : Sql.Tables) (row : NoteRow),
    s.keeps t.params tables row = true ↔ q.admits row (tables.tagsOf row)
  cap : ∀ rows, s.cap t.params rows = rows.take (min (q.limit.getD defaultLimit) maxInteger)
  refused : ∀ ix, s.isRefused t.params (.ofIndex ix) = true ↔ q.IsRefused t.params ix

theorem stated_of_translate {q : Query} {defaultLimit : Nat} {t : Translation}
    (htranslate : q.translate defaultLimit = .ok t) :
    ∃ s f c d, Stated q defaultLimit t s f c d := by
  obtain ⟨named, g, ⟨f, d⟩, hnamed, hg, horder, ht⟩ := translate_eq_ok.mp htranslate
  obtain ⟨tree, hemits⟩ := emitsOption_of_translate hg
  obtain ⟨c, hcolumn⟩ := column_of_orderOf horder
  have hread := ofText?_assemble q.shape named q.source hemits hcolumn d
    (q.limit.getD defaultLimit)
  dsimp only at hread
  rw [← ht] at hread
  generalize hs : Sql.Select.mk _ _ _ _ = s at hread
  have hparam : t.params.getD
      ((q.source.toList.map sourceTest ++ g.toList).flatMap (·.params)).length .null =
        .integer (min (q.limit.getD defaultLimit) maxInteger) := by
    rw [ht]
    simp [Translation.assemble]
  have hmin : (min (q.limit.getD defaultLimit) maxInteger : Int) =
      (min (q.limit.getD defaultLimit) maxInteger : Nat) := by omega
  rw [hmin] at hparam
  refine ⟨s, f, c, d, hread, horder, hcolumn, by rw [← hs], ?_, by rw [ht]; rfl, by rw [← hs],
    fun tables row => ?_, fun rows => cap_eq_take (by rw [← hs]) hparam, fun ix => ?_⟩
  · obtain ⟨more, hmore⟩ := resolveFields_append hnamed
    rw [ht, Translation.assemble, hmore]
    dsimp only
    split <;> exact ⟨_, rfl⟩
  · rw [keeps_eq_true, ← hs, ht]
    exact filterOf_truth hemits row _ _
  · have hfails (row : NoteRow) (hrow : row ∈ ix.notes.rows) :=
      filterOf_fails hemits row (.ofIndex ix)
        [.integer (min (q.limit.getD defaultLimit) maxInteger)]
    rw [isRefused_iff, ← hs, ht, IsRefused, ← filterOf_depth hemits, ← filterOf_placeholders hemits]
    exact or_congr_right (or_congr_right (or_congr_right
      (exists_congr fun row => and_congr_right (hfails row))))

section Stated

variable {q : Query} {defaultLimit : Nat} {t : Translation} {s : Sql.Select} {f : Field}
  {c : Sql.Column} {d : Direction}

theorem Stated.run_eq (h : Stated q defaultLimit t s f c d)
    (htranslate : q.translate defaultLimit = .ok t) {ix : Index}
    (hnot : ¬ q.IsRefused t.params ix) :
    run q ix defaultLimit = .ok ⟨q.shape, t.fields.map Field.name, t.rows s (.ofIndex ix)⟩ := by
  rw [run, htranslate]
  simp only [h.read]
  exact if_neg (mt (h.refused ix).mp hnot)

theorem Stated.run_refused (h : Stated q defaultLimit t s f c d)
    (htranslate : q.translate defaultLimit = .ok t) {ix : Index}
    (hrefused : q.IsRefused t.params ix) : run q ix defaultLimit = .error .statement := by
  rw [run, htranslate]
  simp only [h.read]
  exact if_pos ((h.refused ix).mpr hrefused)

/-- A report comes from a query that is not refused. -/
theorem Stated.report_eq (h : Stated q defaultLimit t s f c d)
    (htranslate : q.translate defaultLimit = .ok t) {ix : Index} {r : Report}
    (hrun : run q ix defaultLimit = .ok r) :
    r = ⟨q.shape, t.fields.map Field.name, t.rows s (.ofIndex ix)⟩ := by
  by_cases hrefused : q.IsRefused t.params ix
  · cases (h.run_refused htranslate hrefused).symm.trans hrun
  · exact Except.ok.inj (hrun.symm.trans (h.run_eq htranslate hrefused))

end Stated

/-- A query that translates and is accepted returns the notes that it admits, when no note is cut
off. -/
theorem run_paths {q : Query} {defaultLimit : Nat} {t : Translation}
    (htranslate : q.translate defaultLimit = .ok t) (haccepted : q.Accepted) {ix : Index}
    (hlimit : ix.notes.rows.length ≤ min (q.limit.getD defaultLimit) maxInteger) :
    ∃ r, run q ix defaultLimit = .ok r ∧ ∀ path, path ∈ r.paths ↔
      ∃ row ∈ ix.notes.rows, row.path = path ∧
        q.admits row ((Sql.Tables.ofIndex ix).tagsOf row) := by
  obtain ⟨s, f, c, d, h⟩ := stated_of_translate htranslate
  obtain ⟨fields, hfields⟩ := h.fields
  refine ⟨_, h.run_eq htranslate (haccepted.not_refused htranslate ix), fun path => ?_⟩
  rw [rows_paths hfields h.columns h.selected, Sql.Select.rows, h.cap, List.take_of_length_le]
  · simp only [List.mem_map, List.mem_mergeSort, List.mem_filter, h.keeps]
    constructor
    · rintro ⟨row, ⟨hrow, hadmitted⟩, hpath⟩
      exact ⟨row, hrow, hpath, hadmitted⟩
    · rintro ⟨row, hrow, hpath, hadmitted⟩
      exact ⟨row, ⟨hrow, hadmitted⟩, hpath⟩
  · rw [List.length_mergeSort]
    exact (List.length_filter_le _ _).trans hlimit

theorem admitsBehind_of_ne_or {w : Condition} (hw : ∀ l r, w ≠ .logical .or l r) {inside : Prop}
    {row : NoteRow} {tags : List String} :
    admitsBehind inside row tags w ↔ inside ∧ w.meaning row tags = some true := by
  unfold admitsBehind
  split
  · next l r => exact absurd rfl (hw l r)
  · rfl

/-- The right side of a disjunction is a condition for a query of its own. -/
theorem run_right {q : Query} {l r : Condition} {defaultLimit : Nat} {t : Translation} {ix : Index}
    (hcondition : q.condition = some (.logical .or l r))
    (htranslate : q.translate defaultLimit = .ok t) (haccepted : q.Accepted)
    (hlimit : ix.notes.rows.length ≤ min (q.limit.getD defaultLimit) maxInteger) :
    ∃ right, run { q with source := none, condition := some r } ix defaultLimit = .ok right ∧
      ∀ path, path ∈ right.paths ↔ ∃ row ∈ ix.notes.rows, row.path = path ∧
        r.meaning row ((Sql.Tables.ofIndex ix).tagsOf row) = some true := by
  obtain ⟨named, f, order, hnamed, hf, horder, -⟩ := translate_eq_ok.mp htranslate
  rw [hcondition] at hf
  obtain ⟨hnone, -⟩ | ⟨w, g, hw, hg, -⟩ := optionMapM_eq_ok.mp hf
  · cases hnone
  cases hw
  obtain ⟨_, _, hg⟩ := bind_eq_ok.mp hg
  obtain ⟨g, hr, _⟩ := bind_eq_ok.mp hg
  have hsome : (some r).mapM Condition.translate = .ok (some g) :=
    optionMapM_eq_ok.mpr (.inr ⟨r, g, rfl, hr, rfl⟩)
  exact run_paths (q := { q with source := none, condition := some r })
    (translate_eq_ok.mpr ⟨named, some g, order, hnamed, hsome, horder, rfl⟩)
    (haccepted.right hcondition) hlimit

/-- A path belongs to one row only. -/
theorem exists_row_iff (ix : Index) (admitted : NoteRow → Prop) {row : NoteRow}
    (hrow : row ∈ ix.notes.rows) :
    (∃ row' ∈ ix.notes.rows, row'.path = row.path ∧ admitted row') ↔ admitted row := by
  constructor
  · rintro ⟨row', hrow', hpath, hadmitted⟩
    rwa [List.inj_on_of_nodup_map ix.notes.paths_nodup hrow hrow' hpath.symm]
  · intro hadmitted
    exact ⟨row, hrow, rfl, hadmitted⟩

/-- An accepted query with a source and a condition returns the notes that both return on their own,
unless the condition is a disjunction with a right side that holds for a note from elsewhere. -/
theorem run_source_condition {q : Query} {source : String} {w : Condition} {defaultLimit : Nat}
    {t : Translation} {ix : Index} (hsource : q.source = some source)
    (hcondition : q.condition = some w) (htranslate : q.translate defaultLimit = .ok t)
    (haccepted : q.Accepted)
    (hlimit : ix.notes.rows.length ≤ min (q.limit.getD defaultLimit) maxInteger) :
    ∃ both inside matching : Report,
      run q ix defaultLimit = .ok both ∧
      run { q with condition := none } ix defaultLimit = .ok inside ∧
      run { q with source := none } ix defaultLimit = .ok matching ∧
      (∀ path ∈ inside.paths, source.toList <+: path.toList) ∧
      ((∀ path, path ∈ both.paths ↔ path ∈ inside.paths ∧ path ∈ matching.paths) ↔
        ∀ l r, w = .logical .or l r →
          ∃ right, run { q with source := none, condition := some r } ix defaultLimit = .ok right ∧
            ∀ path ∈ right.paths, path ∈ inside.paths) := by
  obtain ⟨named, f, order, hnamed, hf, horder, -⟩ := translate_eq_ok.mp htranslate
  obtain ⟨both, hboth, hbothPaths⟩ := run_paths htranslate haccepted hlimit
  obtain ⟨inside, hinside, hinsidePaths⟩ := run_paths (q := { q with condition := none })
    (translate_eq_ok.mpr ⟨named, none, order, hnamed, rfl, horder, rfl⟩) haccepted.inside hlimit
  obtain ⟨matching, hmatching, hmatchingPaths⟩ := run_paths (q := { q with source := none })
    (translate_eq_ok.mpr ⟨named, f, order, hnamed, hf, horder, rfl⟩) haccepted.matching hlimit
  simp only [admits, hsource, hcondition] at hbothPaths hinsidePaths hmatchingPaths
  refine ⟨both, inside, matching, hboth, hinside, hmatching, ?_, ?_, ?_⟩
  · intro path hpath
    obtain ⟨row, _, rfl, hfrom⟩ := (hinsidePaths path).mp hpath
    exact prefix_of_isFrom hfrom
  · rintro hlaw l r rfl
    obtain ⟨right, hright, hrightPaths⟩ := run_right hcondition htranslate haccepted hlimit
    refine ⟨right, hright, fun path hpath => ?_⟩
    obtain ⟨row, hrow, rfl, hholds⟩ := (hrightPaths path).mp hpath
    exact ((hlaw row.path).mp ((hbothPaths row.path).mpr ⟨row, hrow, rfl, .inr hholds⟩)).1
  · intro hcovered
    have hrow (row : NoteRow) (hrow : row ∈ ix.notes.rows) :
        admitsBehind (isFrom source row) row ((Sql.Tables.ofIndex ix).tagsOf row) w ↔
          isFrom source row ∧ w.meaning row ((Sql.Tables.ofIndex ix).tagsOf row) = some true := by
      by_cases hor : ∃ l r, w = .logical .or l r
      · obtain ⟨l, r, rfl⟩ := hor
        obtain ⟨right, hright, hinner⟩ := hcovered l r rfl
        obtain ⟨right', hright', hrightPaths⟩ := run_right hcondition htranslate haccepted hlimit
        obtain rfl : right = right' := Except.ok.inj (hright.symm.trans hright')
        have hfrom : r.meaning row ((Sql.Tables.ofIndex ix).tagsOf row) = some true →
            isFrom source row := fun hholds =>
          (exists_row_iff ix _ hrow).mp
            ((hinsidePaths _).mp (hinner _ ((hrightPaths _).mpr ⟨row, hrow, rfl, hholds⟩)))
        rw [admitsBehind, Condition.meaning, truth_or_eq_true]
        tauto
      · exact admitsBehind_of_ne_or fun l r hw => hor ⟨l, r, hw⟩
    intro path
    constructor
    · intro hpath
      obtain ⟨row, hmem, rfl, hadmitted⟩ := (hbothPaths path).mp hpath
      obtain ⟨hfrom, hholds⟩ := (hrow row hmem).mp hadmitted
      exact ⟨(hinsidePaths _).mpr ⟨row, hmem, rfl, hfrom⟩,
        (hmatchingPaths _).mpr ⟨row, hmem, rfl, hholds⟩⟩
    · rintro ⟨hpath, hmatches⟩
      obtain ⟨row, hmem, rfl, hfrom⟩ := (hinsidePaths path).mp hpath
      have hholds := (exists_row_iff ix _ hmem).mp ((hmatchingPaths _).mp hmatches)
      exact (hbothPaths _).mpr ⟨row, hmem, rfl, (hrow row hmem).mpr ⟨hfrom, hholds⟩⟩

/-- Two notes of different types in different folders. -/
def twoFolders : Index :=
  Index.empty.upsertAll
    [⟨⟨"a/1.md", "One", some "x", none, none, none, none, false⟩, "", none, [], []⟩,
      ⟨⟨"b/2.md", "Two", some "y", none, none, none, none, false⟩, "", none, [], []⟩]

/-- `LIST FROM "a/"` with a condition on the type in two parts. -/
def listInFolder (op : Connective) (first : CompareOp) : Query :=
  { bare .list with
    source := some "a/"
    condition := some (.logical op (.compare "type" first (.string "x"))
      (.compare "type" .eq (.string "y"))) }

theorem accepted_listInFolder (op : Connective) (first : CompareOp) :
    (listInFolder op first).Accepted := by
  cases op <;> cases first <;> decide +kernel

/-- A conjunction returns the notes of the folder that it holds for. -/
theorem run_source_conjunction :
    (listInFolder .and .ne).Accepted ∧ ∃ both inside matching : Report,
      run (listInFolder .and .ne) twoFolders 100 = .ok both ∧
      run { listInFolder .and .ne with condition := none } twoFolders 100 = .ok inside ∧
      run { listInFolder .and .ne with source := none } twoFolders 100 = .ok matching ∧
      ∀ path, path ∈ both.paths ↔ path ∈ inside.paths ∧ path ∈ matching.paths := by
  obtain ⟨t, htranslate⟩ : ∃ t, (listInFolder .and .ne).translate 100 = .ok t := ⟨_, rfl⟩
  have hlimit : twoFolders.notes.rows.length ≤
      min ((listInFolder .and .ne).limit.getD 100) maxInteger := by decide +kernel
  have haccepted := accepted_listInFolder .and .ne
  obtain ⟨both, inside, matching, hboth, hinside, hmatching, -, hlaw⟩ :=
    run_source_condition (w := .logical .and _ _) rfl rfl htranslate haccepted hlimit
  exact ⟨haccepted, both, inside, matching, hboth, hinside, hmatching,
    hlaw.mpr fun l r hor => nomatch hor⟩

/-- A disjunction returns a note that is not in the folder. -/
theorem run_source_disjunction_escapes :
    ∃ both inside : Report,
      run (listInFolder .or .eq) twoFolders 100 = .ok both ∧
      run { listInFolder .or .eq with condition := none } twoFolders 100 = .ok inside ∧
      "b/2.md" ∈ both.paths ∧ "b/2.md" ∉ inside.paths ∧ ¬ "a/".toList <+: "b/2.md".toList := by
  have houtside : ¬ "a/".toList <+: "b/2.md".toList := by decide
  have hrows : twoFolders.notes.rows =
      [⟨1, ⟨"a/1.md", "One", some "x", none, none, none, none, false⟩, "", none⟩,
        ⟨2, ⟨"b/2.md", "Two", some "y", none, none, none, none, false⟩, "", none⟩] := rfl
  have hlimit : twoFolders.notes.rows.length ≤ min (Option.getD none 100) maxInteger := by
    decide +kernel
  obtain ⟨t, ht⟩ : ∃ t, (listInFolder .or .eq).translate 100 = .ok t := ⟨_, rfl⟩
  obtain ⟨t', ht'⟩ : ∃ t, { listInFolder .or .eq with condition := none }.translate 100 = .ok t :=
    ⟨_, rfl⟩
  have haccepted := accepted_listInFolder .or .eq
  obtain ⟨both, hboth, hbothPaths⟩ := run_paths ht haccepted hlimit
  obtain ⟨inside, hinside, hinsidePaths⟩ := run_paths ht' haccepted.inside hlimit
  refine ⟨both, inside, hboth, hinside, ?_, ?_, houtside⟩
  · rw [hbothPaths, hrows]
    exact ⟨_, List.mem_cons_of_mem _ List.mem_cons_self, rfl, .inr rfl⟩
  · rw [hinsidePaths]
    rintro ⟨row, _, hpath, hfrom⟩
    exact houtside (hpath ▸ prefix_of_isFrom hfrom)

end Slipbox.Query
