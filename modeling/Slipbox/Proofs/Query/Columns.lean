import Mathlib
import Slipbox.Query.Run

/-! What a reader finds in a written result. Every row is one line. A reader of a table parts a
line at the pipes that no backslash escapes, a backslash behind another one being escaped itself. A
pipe in a cell is written behind a backslash, so it parts the cell if and only if an odd number of
backslashes stood in front of it already. -/

namespace Slipbox.Query

section Lines

/-- Texts of which each ends with a line feed and holds no other one are the lines of their
concatenation. -/
theorem splitOn_lines {lines : List (List Char)} (hlines : ∀ line ∈ lines, '\n' ∉ line) :
    (lines.flatMap fun line => line ++ ['\n']).splitOn '\n' = lines ++ [[]] := by
  induction lines with
  | nil => rfl
  | cons line lines ih =>
      rw [List.forall_mem_cons] at hlines
      rw [List.flatMap_cons, List.append_assoc, List.singleton_append,
        List.splitOn_append_cons_self_of_not_mem hlines.1, ih hlines.2, List.cons_append]

theorem length_splitOnP {α : Type} (p : α → Bool) (as : List α) :
    (as.splitOnP p).length = as.countP p + 1 := by
  induction as with
  | nil => rfl
  | cons a as ih =>
      rw [List.splitOnP_cons_eq_if_modifyHead, List.countP_cons]
      split
      · rw [List.length_cons, ih]
      · rw [List.length_modifyHead, ih, Nat.add_zero]

end Lines

section Columns

/-- Each character with the number of backslashes that stand directly in front of it; `n` of them
stand in front of the text. -/
def withSlashes (n : Nat) : List Char → List (Char × Nat)
  | [] => []
  | c :: cs => (c, n) :: withSlashes (if c = '\\' then n + 1 else 0) cs

/-- The number of backslashes at the end of a text in front of which `n` stand. -/
def lastSlashes (n : Nat) : List Char → Nat
  | [] => n
  | c :: cs => lastSlashes (if c = '\\' then n + 1 else 0) cs

/-- A pipe that parts two columns: no backslash or an even number of them stands in front of it. -/
def isBar (m : Char × Nat) : Bool :=
  m.1 == '|' && m.2 % 2 == 0

/-- A pipe with an odd number of backslashes in front of it. -/
def isEscapedPipe (m : Char × Nat) : Bool :=
  m.1 == '|' && m.2 % 2 == 1

/-- The columns of a line. -/
def columns (line : List Char) : List (List Char) :=
  ((withSlashes 0 line).splitOnP isBar).map (·.map Prod.fst)

/-- The number of escaped pipes in a text. -/
def escapedPipes (text : String) : Nat :=
  (withSlashes 0 text.toList).countP isEscapedPipe

/-- A text as it stands between two pipes. -/
def padded (text : List Char) : List Char :=
  ' ' :: (text ++ [' '])

/-- Texts between pipes. -/
def boxed (cells : List (List Char)) : List Char :=
  '|' :: cells.flatMap fun c => padded c ++ ['|']

theorem map_fst_withSlashes (n : Nat) (cs : List Char) : (withSlashes n cs).map Prod.fst = cs := by
  induction cs generalizing n with
  | nil => rfl
  | cons c cs ih => rw [withSlashes, List.map_cons, ih]

theorem withSlashes_append (n : Nat) (u v : List Char) :
    withSlashes n (u ++ v) = withSlashes n u ++ withSlashes (lastSlashes n u) v := by
  induction u generalizing n with
  | nil => rfl
  | cons c u ih =>
      rw [List.cons_append, withSlashes, withSlashes, ih, lastSlashes, List.cons_append]

theorem lastSlashes_append (n : Nat) (u v : List Char) :
    lastSlashes n (u ++ v) = lastSlashes (lastSlashes n u) v := by
  induction u generalizing n with
  | nil => rfl
  | cons c u ih => rw [List.cons_append, lastSlashes, ih, lastSlashes]

theorem lastSlashes_padded (text : List Char) : lastSlashes 0 (padded text) = 0 := by
  rw [padded, ← List.cons_append, lastSlashes_append]
  rfl

/-- Behind a text without backslashes at its end a pipe parts two columns. -/
theorem columns_append_bar {u : List Char} (hu : lastSlashes 0 u = 0) (v : List Char) :
    columns (u ++ '|' :: v) = columns u ++ columns v := by
  have hbar : withSlashes 0 (u ++ '|' :: v) =
      withSlashes 0 u ++ ('|', 0) :: withSlashes 0 v := by
    rw [withSlashes_append, hu]
    rfl
  rw [columns, hbar, List.splitOnP_append_cons _ _ rfl, List.map_append]
  rfl

theorem withSlashes_padded (text : List Char) : ∃ k, withSlashes 0 (padded text) =
    (' ', 0) :: (withSlashes 0 text ++ [(' ', k)]) :=
  ⟨_, congrArg _ (withSlashes_append 0 text [' '])⟩

theorem countP_padded (text : List Char) :
    (withSlashes 0 (padded text)).countP isBar = (withSlashes 0 text).countP isBar := by
  obtain ⟨k, hk⟩ := withSlashes_padded text
  rw [hk, List.countP_cons_of_neg (by decide), List.countP_append]
  rfl

theorem length_columns_padded (text : List Char) :
    (columns (padded text)).length = (withSlashes 0 text).countP isBar + 1 := by
  rw [columns, List.length_map, length_splitOnP, countP_padded]

theorem columns_padded {text : List Char} (h : (withSlashes 0 text).countP isBar = 0) :
    columns (padded text) = [padded text] := by
  rw [← countP_padded, List.countP_eq_zero] at h
  rw [columns, List.splitOnP_eq_singleton fun m hm => Bool.eq_false_iff.mpr (h m hm),
    List.map_singleton, map_fst_withSlashes]

/-- Between the outer pipes stand the columns of the cells. -/
theorem columns_boxed (cells : List (List Char)) :
    columns (boxed cells) = [] :: (cells.flatMap fun c => columns (padded c)) ++ [[]] := by
  have hinner : columns (cells.flatMap fun c => padded c ++ ['|']) =
      (cells.flatMap fun c => columns (padded c)) ++ [[]] := by
    induction cells with
    | nil => rfl
    | cons c cells ih =>
        rw [List.flatMap_cons, List.append_assoc, List.singleton_append,
          columns_append_bar (lastSlashes_padded c), ih, List.flatMap_cons, List.append_assoc]
  calc columns (boxed cells)
      = columns ([] ++ '|' :: cells.flatMap fun c => padded c ++ ['|']) := rfl
    _ = columns [] ++ columns (cells.flatMap fun c => padded c ++ ['|']) :=
        columns_append_bar rfl _
    _ = [] :: (cells.flatMap fun c => columns (padded c)) ++ [[]] := by
        rw [hinner]
        rfl

theorem columns_boxed_of_whole {cells : List (List Char)}
    (h : ∀ c ∈ cells, (withSlashes 0 c).countP isBar = 0) :
    columns (boxed cells) = [] :: cells.map padded ++ [[]] := by
  rw [columns_boxed, List.map_eq_flatMap, List.flatMap_def, List.flatMap_def,
    List.map_congr_left fun c hc => columns_padded (h c hc)]

end Columns

section Cells

/-- The bare text of a cell, of which there may be none. -/
def Row.shown (r : Row) (field : String) : String :=
  match r.get? field with
  | none => ""
  | some c => c.shown

/-- What is written of a text. -/
def masked (text : List Char) : List Char :=
  Text.replace '\n' [' '] (Text.replace '|' ['\\', '|'] text)

theorem toList_written (r : Row) (field : String) :
    (r.written field).toList = masked (r.shown field).toList := by
  rw [Row.written, Row.shown]
  cases r.get? field with
  | none => rfl
  | some c => exact String.toList_ofList

theorem masked_cons (c : Char) (text : List Char) : masked (c :: text) =
    (if c = '|' then ['\\', '|'] else if c = '\n' then [' '] else [c]) ++ masked text := by
  by_cases hpipe : c = '|' <;> simp [hpipe, masked, Text.replace]

theorem newline_notMem_masked (text : List Char) : '\n' ∉ masked text := by
  intro h
  obtain ⟨c, -, hc⟩ := List.mem_flatMap.mp h
  split at hc
  · simp at hc
  · next hne => exact hne (List.mem_singleton.mp hc).symm

/-- A pipe gets a backslash, so it parts a cell if it stood behind an odd number of them. -/
theorem countP_masked (text : List Char) (n : Nat) :
    (withSlashes n (masked text)).countP isBar = (withSlashes n text).countP isEscapedPipe := by
  induction text generalizing n with
  | nil => rfl
  | cons c text ih =>
      rw [masked_cons]
      by_cases hpipe : c = '|'
      · have hodd : (n + 1) % 2 = 0 ↔ n % 2 = 1 := by omega
        simp [hpipe, withSlashes, List.countP_cons, isBar, isEscapedPipe, hodd, ih]
      by_cases hline : c = '\n'
      · simp [hline, withSlashes, isBar, isEscapedPipe, ih]
      · simp [hpipe, hline, withSlashes, isBar, isEscapedPipe, ih]

end Cells

section Reports

theorem toList_tableLine {cells : List String} (hcells : cells ≠ []) :
    (Report.tableLine cells).toList = boxed (cells.map String.toList) ++ ['\n'] := by
  have hboxed : [' '] ++ [' ', '|', ' '].intercalate (cells.map String.toList) ++ [' ', '|'] =
      (cells.map String.toList).flatMap fun c => padded c ++ ['|'] := by
    induction cells with
    | nil => exact absurd rfl hcells
    | cons c cells ih =>
        cases cells with
        | nil => simp [padded]
        | cons d cells =>
            rw [List.map_cons, List.flatMap_cons, ← ih (List.cons_ne_nil _ _)]
            simp [List.intercalate, padded]
  rw [boxed, ← hboxed, Report.tableLine]
  simp [String.toList_intercalate]

/-- The line of a row in a table. -/
def rowLine (fields : List String) (row : Row) : List Char :=
  boxed (fields.map fun f => (row.written f).toList)

/-- The line under the names of the fields. -/
theorem toList_rule (fields : List String) :
    ("|" ++ String.join (fields.map fun _ => " --- |") ++ "\n").toList =
      boxed (fields.map fun _ => "---".toList) ++ ['\n'] := by
  have hcell : " --- |".toList = padded "---".toList ++ ['|'] := rfl
  rw [String.toList_append, String.toList_append, String.toList_join, List.flatMap_map, hcell,
    boxed, List.flatMap_map]
  rfl

theorem toList_table {r : Report} (hfields : r.fields ≠ []) : r.table.toList =
    (boxed (r.fields.map String.toList) :: boxed (r.fields.map fun _ => "---".toList) ::
      r.rows.map (rowLine r.fields)).flatMap fun line => line ++ ['\n'] := by
  have hrow (row : Row) : (Report.tableLine (r.fields.map row.written)).toList =
      rowLine r.fields row ++ ['\n'] := by
    rw [toList_tableLine (List.map_eq_nil_iff.not.mpr hfields), List.map_map]
    rfl
  have hparts : r.table = Report.tableLine r.fields ++
      ("|" ++ String.join (r.fields.map fun _ => " --- |") ++ "\n") ++
      String.join (r.rows.map fun row => Report.tableLine (r.fields.map row.written)) := by
    simp only [Report.table, String.append_assoc]
  rw [hparts, String.toList_append, String.toList_append, toList_tableLine hfields, toList_rule,
    String.toList_join, List.flatMap_map, List.flatMap_cons, List.flatMap_cons, List.flatMap_map,
    List.append_assoc]
  simp only [hrow]

theorem newline_notMem_boxed {cells : List (List Char)} (h : ∀ c ∈ cells, '\n' ∉ c) :
    '\n' ∉ boxed cells := by
  simpa [boxed, padded] using h

theorem newline_notMem_listLine (row : Row) :
    ∃ line, '\n' ∉ line ∧ (Report.listLine row).toList = line ++ ['\n'] := by
  refine ⟨"- ".toList ++ masked (row.shown "title").toList ++ " (".toList ++
    masked (row.shown "path").toList ++ [')'], ?_, ?_⟩
  · simp [newline_notMem_masked]
  · simp [Report.listLine, toList_written]

theorem newline_notMem_taskLine (row : Row) :
    ∃ line, '\n' ∉ line ∧ (Report.taskLine row).toList = line ++ ['\n'] := by
  rw [Report.taskLine]
  generalize (row.get? "verified").any Cell.isTrue = done
  refine ⟨"- [".toList ++ (if done then "x" else " ").toList ++ "] ".toList ++
    masked (row.shown "title").toList, ?_, ?_⟩
  · cases done <;> simp [newline_notMem_masked]
  · simp [toList_written]

theorem splitOn_join {line : Row → String}
    (hline : ∀ row, ∃ cs, '\n' ∉ cs ∧ (line row).toList = cs ++ ['\n']) (rows : List Row) :
    ∃ lines, (String.join (rows.map line)).toList.splitOn '\n' = lines ++ [[]] ∧
      lines.length = rows.length := by
  choose body hbody hchars using hline
  refine ⟨rows.map body, ?_, List.length_map _⟩
  rw [String.toList_join, List.flatMap_map, ← splitOn_lines (List.forall_mem_map.mpr fun row _ =>
    hbody row), List.flatMap_map]
  simp only [hchars]

theorem length_flatMap_of_extra {α β : Type} {f : α → List β} {extra : α → Nat}
    (h : ∀ a, (f a).length = extra a + 1) (as : List α) :
    (as.flatMap f).length = as.length + (as.map extra).sum := by
  induction as with
  | nil => rfl
  | cons a as ih =>
      rw [List.flatMap_cons, List.length_append, h, ih, List.length_cons, List.map_cons,
        List.sum_cons]
      omega

/-- How a line shows a row of a table: between the outer pipes stand the columns of its cells. A
cell is a column, with one more for each escaped pipe in its text. -/
structure LineOf (fields : List String) (row : Row) (line : List Char) : Prop where
  cells : columns line =
    [] :: (fields.flatMap fun f => columns (padded (row.written f).toList)) ++ [[]]
  parts : ∀ f ∈ fields,
    (columns (padded (row.written f).toList)).length = escapedPipes (row.shown f) + 1
  whole : ∀ f ∈ fields, escapedPipes (row.shown f) = 0 →
    columns (padded (row.written f).toList) = [padded (row.written f).toList]
  fits : (columns line).length = fields.length + 2 ↔ ∀ f ∈ fields, escapedPipes (row.shown f) = 0

theorem lineOf_rowLine (fields : List String) (row : Row) :
    LineOf fields row (rowLine fields row) := by
  have hbars (f : String) : (withSlashes 0 (row.written f).toList).countP isBar =
      escapedPipes (row.shown f) := by
    rw [toList_written, countP_masked, escapedPipes]
  have hparts (f : String) :
      (columns (padded (row.written f).toList)).length = escapedPipes (row.shown f) + 1 := by
    rw [length_columns_padded, hbars]
  have hcells : columns (rowLine fields row) =
      [] :: (fields.flatMap fun f => columns (padded (row.written f).toList)) ++ [[]] := by
    rw [rowLine, columns_boxed, List.flatMap_map]
  refine ⟨hcells, fun f _ => hparts f, fun f _ hnone => columns_padded (by rw [hbars, hnone]), ?_⟩
  have hnone : (fields.map fun f => escapedPipes (row.shown f)).sum = 0 ↔
      ∀ f ∈ fields, escapedPipes (row.shown f) = 0 := by
    rw [List.sum_eq_zero_iff_forall_eq_nat, List.forall_mem_map]
  rw [hcells, ← hnone, List.length_append, List.length_cons, length_flatMap_of_extra hparts,
    List.length_singleton]
  omega

theorem name_whole (f : Field) :
    '\n' ∉ f.name.toList ∧ (withSlashes 0 f.name.toList).countP isBar = 0 := by
  cases f <;> decide +kernel

/-- A result is written line by line, one for each row. A table has the names of the fields and a
rule on top, and a line of it has one column for each field if and only if no escaped pipe stands in
the cells of its row. -/
theorem text_lines {r : Report} {fields : List Field} (hfields : r.fields = fields.map Field.name)
    (hne : fields ≠ []) :
    match r.shape with
    | .table => ∃ header rule lines, r.text.toList.splitOn '\n' = header :: rule :: lines ++ [[]] ∧
        columns header = [] :: r.fields.map (fun f => padded f.toList) ++ [[]] ∧
        columns rule = [] :: r.fields.map (fun _ => " --- ".toList) ++ [[]] ∧
        List.Forall₂ (LineOf r.fields) r.rows lines
    | .list | .task => ∃ lines, r.text.toList.splitOn '\n' = lines ++ [[]] ∧
        lines.length = r.rows.length := by
  obtain ⟨shape, names, rows⟩ := r
  subst hfields
  cases shape with
  | table =>
      have hsome : fields.map Field.name ≠ [] := List.map_eq_nil_iff.not.mpr hne
      let header := boxed ((fields.map Field.name).map String.toList)
      let rule := boxed ((fields.map Field.name).map fun _ => "---".toList)
      let lines := rows.map (rowLine (fields.map Field.name))
      have hlines : ∀ line ∈ header :: rule :: lines, '\n' ∉ line := by
        rw [List.forall_mem_cons, List.forall_mem_cons, List.forall_mem_map]
        refine ⟨newline_notMem_boxed ?_, newline_notMem_boxed ?_, fun row _ => ?_⟩
        · simp only [List.forall_mem_map]
          exact fun f _ => (name_whole f).1
        · simp
        · apply newline_notMem_boxed
          simp [toList_written, newline_notMem_masked]
      refine ⟨header, rule, lines, ?_, ?_, ?_, ?_⟩
      · rw [Report.text, toList_table hsome]
        exact splitOn_lines hlines
      · rw [columns_boxed_of_whole, List.map_map]
        · rfl
        · simp only [List.forall_mem_map]
          exact fun f _ => (name_whole f).2
      · rw [columns_boxed_of_whole, List.map_map]
        · rfl
        · simp only [List.forall_mem_map]
          exact fun f _ => by decide
      · rw [List.forall₂_map_right_iff, List.forall₂_same]
        exact fun row _ => lineOf_rowLine _ row
  | list => exact splitOn_join newline_notMem_listLine rows
  | task => exact splitOn_join newline_notMem_taskLine rows

/-- Pipes and a line feed in a title, a list with a pipe, and a row without cells. -/
theorem text_lines_pipes :
    let fields : List Field := [.path, .title, .tags]
    let r : Report := ⟨.table, fields.map Field.name,
      [[("path", .text "a.md"), ("title", .text "A|B\nC\\"), ("tags", .list ["x|", "y"])], []]⟩
    fields ≠ [] ∧ ∃ header rule first second,
      r.text.toList.splitOn '\n' = [header, rule, first, second, []] ∧
      (columns header).length = 5 ∧ (columns first).length = 5 ∧ (columns second).length = 5 := by
  intro fields r
  have hne : fields ≠ [] := List.cons_ne_nil _ _
  obtain ⟨header, rule, lines, hsplit, hheader, -, hrows⟩ := text_lines (r := r) rfl hne
  obtain _ | ⟨hfirst, _ | ⟨hsecond, _ | _⟩⟩ := hrows
  refine ⟨hne, header, rule, _, _, hsplit, by rw [hheader]; rfl, hfirst.fits.mpr ?_,
    hsecond.fits.mpr ?_⟩ <;>
    decide +kernel

/-- A title with a backslash in front of a pipe makes three columns of two cells. -/
theorem text_lines_backslash :
    let note : Note := ⟨⟨"a.md", "A\\|B", none, none, none, none, none, false⟩, "", none, [], []⟩
    ∃ r header rule line, runText "TABLE title" (Index.empty.upsert note) 100 = .ok r ∧
      r.fields = [Field.path, .title].map Field.name ∧
      r.text.toList.splitOn '\n' = [header, rule, line, []] ∧
      columns line = [[], " a.md ".toList, " A\\\\".toList, "B ".toList, []] ∧
      (columns line).length ≠ r.fields.length + 2 := by
  intro note
  have hwritten : (runText "TABLE title" (Index.empty.upsert note) 100).toOption.map
      (fun r => (r.fields, r.text.toList.splitOn '\n')) = some (["path", "title"],
        ["| path | title |".toList, "| --- | --- |".toList, "| a.md | A\\\\|B |".toList, []]) := by
    decide +kernel
  have hcolumns : columns "| a.md | A\\\\|B |".toList =
      [[], " a.md ".toList, " A\\\\".toList, "B ".toList, []] := by decide +kernel
  generalize runText "TABLE title" (Index.empty.upsert note) 100 = result at hwritten ⊢
  cases result with
  | error _ => cases hwritten
  | ok r =>
      obtain ⟨hfields, hlines⟩ := Prod.mk.inj (Option.some.inj hwritten)
      exact ⟨r, _, _, _, rfl, hfields, hlines, hcolumns, by rw [hcolumns, hfields]; decide⟩

end Reports

end Slipbox.Query
