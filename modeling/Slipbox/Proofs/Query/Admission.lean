import Slipbox.Proofs.Query.Meaning
import Slipbox.Proofs.Query.Statement

/-! Which notes the source and the condition of a query admit. A condition that stands in the
statement behind the test of a source is not in parentheses there, so a disjunction at its top binds
weaker than the `AND` in front of it: its right side admits notes from anywhere. -/

namespace Slipbox.Query

open Sql (Truth)

theorem truth_and_eq_true {a b : Truth} : a.and b = some true ↔ a = some true ∧ b = some true := by
  rcases a with - | - | - <;> rcases b with - | - | - <;> simp [Truth.and]

theorem truth_or_eq_true {a b : Truth} : a.or b = some true ↔ a = some true ∨ b = some true := by
  rcases a with - | - | - <;> rcases b with - | - | - <;> simp [Truth.or]

/-- Whether the path of a note begins with the text of a source, as the statement tests it: it does
not look behind a null character, and no text is longer than the largest integer. -/
def isFrom (path : String) (row : NoteRow) : Prop :=
  (Sql.beforeNull row.path).take (min path.length maxInteger) = path.toList

theorem prefix_of_isFrom {path : String} {row : NoteRow} (h : isFrom path row) :
    path.toList <+: row.path.toList := by
  rw [← h]
  exact (List.take_prefix _ _).trans (Sql.beforeNull_prefix _)

/-- Whether a condition that follows the test of a source admits a note, `inside` telling whether
the note passes the test. Only the left side of a disjunction is bound to the test. -/
def admitsBehind (inside : Prop) (row : NoteRow) (tags : List String) : Condition → Prop
  | .logical .or l r =>
    inside ∧ l.meaning row tags = some true ∨ r.meaning row tags = some true
  | w => inside ∧ w.meaning row tags = some true

/-- Whether the source and the condition of a query admit a note with these tags. -/
def admits (q : Query) (row : NoteRow) (tags : List String) : Prop :=
  match q.source, q.condition with
  | none, none => True
  | some path, none => isFrom path row
  | none, some w => w.meaning row tags = some true
  | some path, some w => admitsBehind (isFrom path row) row tags w

theorem compareTruth_text (a b : String) :
    Sql.compareTruth .eq .binary .none (.text a) (.text b) = some true ↔ a = b := by
  change some (compare a b == .eq) = some true ↔ a = b
  rw [Option.some.injEq, beq_iff_eq, Std.LawfulEqOrd.compare_eq_iff_eq]

theorem sourceTree_truth (path : String) (row : NoteRow) (tables : Sql.Tables)
    (after : List Sql.Value) :
    sourceTree.truth ((sourceTest path).params ++ after) tables ⟨row, none⟩ = some true ↔
      isFrom path row := by
  have hstart : (Sql.Scalar.substr (.column .path) (.integer 1) (.param 0)).value
      ((sourceTest path).params ++ after) ⟨row, none⟩ =
        .text (String.ofList ((Sql.beforeNull row.path).take (min path.length maxInteger))) := by
    have hmin : (min (path.length : Int) maxInteger).toNat = min path.length maxInteger := by omega
    simp [Sql.Scalar.value, sourceTest, Sql.Scope.column, Sql.Value.bound, Sql.Value.text?,
      NoteRow.path, hmin]
  have hpath : (Sql.Scalar.param 1).value ((sourceTest path).params ++ after) ⟨row, none⟩ =
      .text path := rfl
  rw [sourceTree, Sql.Condition.truth, hstart, hpath]
  refine (compareTruth_text _ _).trans ?_
  rw [isFrom, ← String.toList_inj, String.toList_ofList]

theorem sourceTree_and_truth (path : String) (row : NoteRow) (tables : Sql.Tables)
    (after : List Sql.Value) (c : Sql.Condition) :
    (Sql.Condition.and sourceTree c).truth ((sourceTest path).params ++ after) tables ⟨row, none⟩ =
        some true ↔
      isFrom path row ∧
        c.truth ((sourceTest path).params ++ after) tables ⟨row, none⟩ = some true := by
  rw [Sql.Condition.truth, truth_and_eq_true, sourceTree_truth]

/-- Behind the test of a source a disjunction falls apart, and other conditions stay together. -/
theorem Emits.truth_andThen {w : Condition} {f : Fragment} {tree : Nat → Sql.Condition}
    (h : Emits w f tree) (path : String) (row : NoteRow) (tables : Sql.Tables)
    (after : List Sql.Value) :
    (sourceTree.andThen (tree 2)).truth ((sourceTest path).params ++ (f.params ++ after)) tables
        ⟨row, none⟩ = some true ↔ admitsBehind (isFrom path row) row (tables.tagsOf row) w := by
  have htruth := h.truth row tables (sourceTest path).params after
  rw [List.append_assoc] at htruth
  have hboth : (Sql.Condition.and sourceTree (tree 2)).truth
      ((sourceTest path).params ++ (f.params ++ after)) tables ⟨row, none⟩ = some true ↔
        isFrom path row ∧ w.meaning row (tables.tagsOf row) = some true := by
    rw [sourceTree_and_truth, ← htruth]
    rfl
  cases h with
  | compare | tag | noTag | contains | containsTag => exact hboth
  | @logical left right l r l' r' op hleft hright =>
      cases op with
      | and =>
          refine Iff.trans ?_ hboth
          simp only [Connective.join, Sql.Condition.andThen, Sql.Condition.truth, truth_and_eq_true,
            and_assoc]
      | or =>
          have hsource := sourceTree_truth path row tables (l.params ++ r.params ++ after)
          have hl := hleft.truth row tables (sourceTest path).params (r.params ++ after)
          have hr := hright.truth row tables ((sourceTest path).params ++ l.params) after
          simp only [List.append_assoc, List.length_append] at hsource hl hr
          rw [admitsBehind, ← hsource, ← hl, ← hr]
          simp only [Connective.join, Sql.Condition.andThen, Sql.Condition.truth, truth_and_eq_true,
            truth_or_eq_true, List.append_assoc]
          rfl

/-- The condition of a statement admits the notes that the query admits. -/
theorem filterOf_truth {q : Query} {f : Option Fragment} {tree : Option (Nat → Sql.Condition)}
    (h : EmitsOption q.condition f tree) (row : NoteRow) (tables : Sql.Tables)
    (after : List Sql.Value) :
    (∀ c, filterOf q.source tree = some c →
      c.truth ((q.source.toList.map sourceTest ++ f.toList).flatMap (·.params) ++ after) tables
        ⟨row, none⟩ = some true) ↔ q.admits row (tables.tagsOf row) := by
  obtain ⟨shape, fields, source, condition, order, limit⟩ := q
  dsimp only at h ⊢
  cases h with
  | none =>
      cases source with
      | none => simp [filterOf, admits]
      | some path =>
          have hsource := sourceTree_truth path row tables after
          simpa [filterOf, admits] using hsource
  | @some w f tree hw =>
      cases source with
      | none =>
          have htruth := hw.truth row tables [] after
          simp only [List.nil_append, List.length_nil] at htruth
          simp [filterOf, admits, ← htruth]
      | some path =>
          have htruth := hw.truth_andThen path row tables after
          simpa [filterOf, admits] using htruth

end Slipbox.Query
