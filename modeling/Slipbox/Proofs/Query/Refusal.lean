import Slipbox.Proofs.Query.Admission
import Slipbox.Proofs.Query.Placeholders
import Slipbox.Query.Run

/-! Which queries are refused. How deep the condition of a statement nests and how many placeholders
it has can be told from the query, and so can the notes for which a test fails. Queries that keep
away from the limits are refused for no index. -/

namespace Slipbox.Query

open Sql (maxDepth maxPlaceholders maxTextSize)

namespace Condition

/-- The height of the tree that the SQL of a condition is. -/
def height : Condition → Nat
  | .compare name op _ =>
    if Field.ofName? name = some .tags then (if op = .ne then 6 else 5) else 3
  | .contains name _ => if Field.ofName? name = some .tags then 5 else 3
  | .logical _ left right => max left.height right.height + 1

/-- The height that the SQL of a condition has behind the test of a source, which stands beside the
left side of a condition that is put together. -/
def heightBehind : Condition → Nat
  | .logical _ left right => max (max 4 left.height + 1) right.height + 1
  | w => max 4 w.height + 1

/-- The height of the condition of a search for a tag, if there is one. -/
def searchHeight : Condition → Nat
  | .compare name _ _ | .contains name _ => if Field.ofName? name = some .tags then 4 else 0
  | .logical _ left right => max left.searchHeight right.searchHeight

/-- Whether no text of a condition is too large for a value. -/
def textsFit : Condition → Bool
  | .compare _ _ value | .contains _ value => value.text.utf8ByteSize ≤ maxTextSize
  | .logical _ left right => left.textsFit && right.textsFit

end Condition

/-- The conditions of a query that are not put together, from left to right. -/
def leaves (q : Query) : List Condition :=
  q.condition.elim [] Condition.leaves

/-- How deep the condition of the statement of a query nests. -/
def depth (q : Query) : Nat :=
  (match q.source, q.condition with
    | none, none => 0
    | some _, none => 4
    | none, some w => w.height
    | some _, some w => w.heightBehind) + q.condition.elim 0 Condition.searchHeight

/-- The number of placeholders in the statement of a query: two for its source, one for each
condition and one for the limit. -/
def placeholders (q : Query) : Nat :=
  (if q.source.isSome then 2 else 0) + q.leaves.length + 1

/-- Whether a test of a condition that follows the test of a source fails. -/
def failsBehind (inside : Prop) (row : NoteRow) (tags : List String) : Condition → Prop
  | .logical .or l r =>
    inside ∧ l.fails row tags = true ∨
      ¬ (inside ∧ l.meaning row tags = some true) ∧ r.fails row tags = true
  | w => inside ∧ w.fails row tags = true

/-- Whether a test that a query makes for a note with these tags fails. -/
def fails (q : Query) (row : NoteRow) (tags : List String) : Prop :=
  match q.source, q.condition with
  | _, none => False
  | none, some w => w.fails row tags = true
  | some path, some w => failsBehind (isFrom path row) row tags w

/-- Whether a query with these values is refused for an index. -/
def IsRefused (q : Query) (params : List Sql.Value) (ix : Index) : Prop :=
  maxDepth < q.depth ∨ maxPlaceholders < q.placeholders ∨
    (∃ v ∈ params, maxTextSize < v.size) ∨
    ∃ row ∈ ix.notes.rows, q.fails row ((Sql.Tables.ofIndex ix).tagsOf row)

section Measures

variable {w : Condition} {f : Fragment} {tree : Nat → Sql.Condition}

theorem ofName?_ne_tags {name : String} {g : Field} {c : Sql.Column}
    (hname : Field.ofName? name = some g) (hcolumn : g.column = some c) :
    Field.ofName? name ≠ some .tags := by
  rw [hname]
  exact fun htags => Field.ne_tags hcolumn (Option.some.inj htags)

theorem Emits.height (h : Emits w f tree) (k : Nat) : (tree k).height = w.height := by
  induction h generalizing k with
  | compare op value hname hcolumn => exact (if_neg (ofName?_ne_tags hname hcolumn)).symm
  | tag value hname => rw [Condition.height, if_pos hname]; rfl
  | noTag value hname => rw [Condition.height, if_pos hname]; rfl
  | contains value hname hcolumn => exact (if_neg (ofName?_ne_tags hname hcolumn)).symm
  | containsTag value hname => rw [Condition.height, if_pos hname]; rfl
  | logical op _ _ ihleft ihright =>
      cases op <;> simp only [Connective.join, Sql.Condition.height, Condition.height, ihleft,
        ihright]

theorem Emits.searchHeight (h : Emits w f tree) (k : Nat) :
    (tree k).searchHeight = w.searchHeight := by
  induction h generalizing k with
  | compare op value hname hcolumn => exact (if_neg (ofName?_ne_tags hname hcolumn)).symm
  | tag value hname => rw [Condition.searchHeight, if_pos hname]; rfl
  | noTag value hname => rw [Condition.searchHeight, if_pos hname]; rfl
  | contains value hname hcolumn => exact (if_neg (ofName?_ne_tags hname hcolumn)).symm
  | containsTag value hname => rw [Condition.searchHeight, if_pos hname]; rfl
  | logical op _ _ ihleft ihright =>
      cases op <;> simp only [Connective.join, Sql.Condition.searchHeight, Condition.searchHeight,
        ihleft, ihright]

theorem Emits.placeholders (h : Emits w f tree) (k : Nat) :
    (tree k).placeholders = w.leaves.length := by
  induction h generalizing k with
  | compare | tag | noTag | contains | containsTag => rfl
  | logical op _ _ ihleft ihright =>
      cases op <;> simp only [Connective.join, Sql.Condition.placeholders, Condition.leaves,
        List.length_append, ihleft, ihright]

theorem Emits.height_andThen (h : Emits w f tree) :
    (sourceTree.andThen (tree 2)).height = w.heightBehind := by
  have hleaf (hw : ∀ op l r, w ≠ .logical op l r)
      (hjoin : sourceTree.andThen (tree 2) = .and sourceTree (tree 2)) :
      (sourceTree.andThen (tree 2)).height = w.heightBehind := by
    have hbehind : w.heightBehind = max 4 w.height + 1 := by
      cases w with
      | compare | contains => rfl
      | logical op l r => exact absurd rfl (hw op l r)
    rw [hjoin, hbehind, ← h.height 2]
    rfl
  cases h with
  | compare | tag | noTag | contains | containsTag => exact hleaf nofun rfl
  | logical op hleft hright =>
      cases op <;> simp only [Connective.join, Sql.Condition.andThen, Sql.Condition.height,
        Condition.heightBehind, hleft.height, hright.height] <;> rfl

theorem searchHeight_andThen (c : Sql.Condition) :
    (sourceTree.andThen c).searchHeight = c.searchHeight := by
  cases c <;> simp [Sql.Condition.andThen, Sql.Condition.searchHeight, sourceTree]

theorem placeholders_andThen (c : Sql.Condition) :
    (sourceTree.andThen c).placeholders = 2 + c.placeholders := by
  cases c <;> simp [Sql.Condition.andThen, Sql.Condition.placeholders, sourceTree,
    Sql.Scalar.placeholders, Nat.add_assoc]

theorem filterOf_depth {q : Query} {f : Option Fragment} {tree : Option (Nat → Sql.Condition)}
    (h : EmitsOption q.condition f tree) :
    (filterOf q.source tree).elim 0 Sql.Condition.depth = q.depth := by
  obtain ⟨shape, fields, source, condition, order, limit⟩ := q
  cases h with
  | none => cases source <;> rfl
  | some hw =>
      cases source with
      | none =>
          simp only [filterOf, Option.elim_some, Sql.Condition.depth, depth, hw.height,
            hw.searchHeight]
      | some path =>
          simp only [filterOf, Option.elim_some, Sql.Condition.depth, depth, hw.height_andThen,
            searchHeight_andThen, hw.searchHeight]

theorem filterOf_placeholders {q : Query} {f : Option Fragment}
    {tree : Option (Nat → Sql.Condition)} (h : EmitsOption q.condition f tree) :
    (filterOf q.source tree).elim 0 Sql.Condition.placeholders + 1 = q.placeholders := by
  obtain ⟨shape, fields, source, condition, order, limit⟩ := q
  cases h with
  | none => cases source <;> rfl
  | some hw =>
      cases source with
      | none =>
          simp [filterOf, placeholders, leaves, hw.placeholders]
      | some path =>
          simp [filterOf, placeholders, leaves, placeholders_andThen, hw.placeholders]

end Measures

theorem isRefused_iff {s : Sql.Select} {params : List Sql.Value} {tables : Sql.Tables} :
    s.isRefused params tables = true ↔
      maxDepth < s.condition.elim 0 Sql.Condition.depth ∨ maxPlaceholders < s.placeholders ∨
        (∃ v ∈ params, maxTextSize < v.size) ∨
        ∃ row ∈ tables.notes,
          (s.condition.any fun c => c.fails params tables ⟨row, none⟩) = true := by
  simp only [Sql.Select.isRefused, Sql.Select.isReadable, Bool.or_eq_true, Bool.not_eq_true',
    Bool.and_eq_false_iff, decide_eq_false_iff_not, not_le, List.any_eq_true, decide_eq_true_iff,
    or_assoc]

section Failing

theorem fails_and {a b : Sql.Condition} {params : List Sql.Value} {tables : Sql.Tables}
    {scope : Sql.Scope} : (Sql.Condition.and a b).fails params tables scope = true ↔
      a.fails params tables scope = true ∨
        a.truth params tables scope = some true ∧ b.fails params tables scope = true := by
  simp only [Sql.Condition.fails, Bool.or_eq_true, Bool.and_eq_true, beq_iff_eq]

theorem fails_or {a b : Sql.Condition} {params : List Sql.Value} {tables : Sql.Tables}
    {scope : Sql.Scope} : (Sql.Condition.or a b).fails params tables scope = true ↔
      a.fails params tables scope = true ∨
        a.truth params tables scope ≠ some true ∧ b.fails params tables scope = true := by
  simp only [Sql.Condition.fails, Bool.or_eq_true, Bool.and_eq_true, bne_iff_ne, ne_eq]

theorem fails_logical_and {l r : Condition} {row : NoteRow} {tags : List String} :
    (Condition.logical .and l r).fails row tags = true ↔
      l.fails row tags = true ∨ l.meaning row tags = some true ∧ r.fails row tags = true := by
  simp only [Condition.fails, Bool.or_eq_true, Bool.and_eq_true, beq_iff_eq]

/-- A condition behind the test of a source is tested for the notes that pass this test. -/
theorem sourceTree_and_fails (path : String) (row : NoteRow) (tables : Sql.Tables)
    (after : List Sql.Value) (c : Sql.Condition) :
    (Sql.Condition.and sourceTree c).fails ((sourceTest path).params ++ after) tables ⟨row, none⟩ =
        true ↔
      isFrom path row ∧
        c.fails ((sourceTest path).params ++ after) tables ⟨row, none⟩ = true := by
  rw [fails_and, sourceTree_truth]
  exact or_iff_right Bool.false_ne_true

/-- Behind the test of a source a test fails only where it is made. -/
theorem Emits.fails_andThen {w : Condition} {f : Fragment} {tree : Nat → Sql.Condition}
    (h : Emits w f tree) (path : String) (row : NoteRow) (tables : Sql.Tables)
    (after : List Sql.Value) :
    (sourceTree.andThen (tree 2)).fails ((sourceTest path).params ++ (f.params ++ after)) tables
        ⟨row, none⟩ = true ↔ failsBehind (isFrom path row) row (tables.tagsOf row) w := by
  have hfails := h.fails row tables (sourceTest path).params after
  rw [List.append_assoc] at hfails
  have hboth := sourceTree_and_fails path row tables (f.params ++ after) (tree 2)
  rw [show (tree 2).fails _ tables _ = _ from hfails] at hboth
  cases h with
  | compare | tag | noTag | contains | containsTag => exact hboth
  | @logical left right l r l' r' op hleft hright =>
      have htruth := hleft.truth row tables (sourceTest path).params (r.params ++ after)
      have hl := hleft.fails row tables (sourceTest path).params (r.params ++ after)
      have hr := hright.fails row tables ((sourceTest path).params ++ l.params) after
      simp only [List.append_assoc, List.length_append] at htruth hl hr
      -- the left side stands behind the test of the source, the right side behind both
      have hinner := sourceTree_and_fails path row tables (l.params ++ (r.params ++ after)) (l' 2)
      rw [show (l' 2).fails _ tables _ = _ from hl] at hinner
      have hopen := sourceTree_and_truth path row tables (l.params ++ (r.params ++ after)) (l' 2)
      rw [show (l' 2).truth _ tables _ = _ from htruth] at hopen
      have hlast : (r' (2 + l.params.length)).fails ((sourceTest path).params ++
          (l.params ++ (r.params ++ after))) tables ⟨row, none⟩ = true ↔
            right.fails row (tables.tagsOf row) = true := Bool.eq_iff_iff.mp hr
      cases op with
      | and =>
          simp only [Connective.join, Sql.Condition.andThen, List.append_assoc, failsBehind]
          refine fails_and.trans (Iff.trans ?_ (and_congr_right fun _ => fails_logical_and).symm)
          refine (or_congr hinner (and_congr hopen hlast)).trans ?_
          rw [and_assoc, ← and_or_left]
      | or =>
          simp only [Connective.join, Sql.Condition.andThen, List.append_assoc, failsBehind]
          exact fails_or.trans (or_congr hinner (and_congr (not_congr hopen) hlast))

/-- A test of the statement's condition fails for the notes that one of the query fails for. -/
theorem filterOf_fails {q : Query} {f : Option Fragment} {tree : Option (Nat → Sql.Condition)}
    (h : EmitsOption q.condition f tree) (row : NoteRow) (tables : Sql.Tables)
    (after : List Sql.Value) :
    ((filterOf q.source tree).any fun c => c.fails
      ((q.source.toList.map sourceTest ++ f.toList).flatMap (·.params) ++ after) tables
        ⟨row, none⟩) = true ↔ q.fails row (tables.tagsOf row) := by
  obtain ⟨shape, fields, source, condition, order, limit⟩ := q
  dsimp only at h ⊢
  cases h with
  | none => cases source <;> simp [filterOf, fails, sourceTree, Sql.Condition.fails]
  | @some w f tree hw =>
      cases source with
      | none =>
          have hfails := hw.fails row tables [] after
          simp only [List.nil_append, List.length_nil] at hfails
          simp [filterOf, fails, ← hfails]
      | some path =>
          have hfails := hw.fails_andThen path row tables after
          simpa [filterOf, fails] using hfails

end Failing

/-- A query that keeps to all limits. Its tests are far fewer than its placeholders may be: for some
twenty thousand tests the store may find no plan. -/
structure Accepted (q : Query) : Prop where
  depth : q.depth ≤ maxDepth
  tests : q.leaves.length ≤ 10000
  source : ∀ path ∈ q.source, path.utf8ByteSize ≤ maxTextSize
  patterns : ∀ w ∈ q.condition, w.patternsFit = true
  texts : ∀ w ∈ q.condition, w.textsFit = true

instance (q : Query) : Decidable q.Accepted :=
  decidable_of_iff
    (q.depth ≤ maxDepth ∧ q.leaves.length ≤ 10000 ∧
      (∀ path ∈ q.source, path.utf8ByteSize ≤ maxTextSize) ∧
      (∀ w ∈ q.condition, w.patternsFit = true) ∧ ∀ w ∈ q.condition, w.textsFit = true)
    ⟨fun ⟨hdepth, htests, hsource, hpatterns, htexts⟩ =>
      ⟨hdepth, htests, hsource, hpatterns, htexts⟩,
      fun h => ⟨h.depth, h.tests, h.source, h.patterns, h.texts⟩⟩

section Accepted

theorem Emits.size_le {w : Condition} {f : Fragment} {tree : Nat → Sql.Condition}
    (h : Emits w f tree) (hpatterns : w.patternsFit = true) (htexts : w.textsFit = true) :
    ∀ v ∈ f.params, v.size ≤ maxTextSize := by
  induction h with
  | @compare _ f _ op value =>
      refine List.forall_mem_singleton.mpr ?_
      cases value with
      | string s => exact of_decide_eq_true htexts
      | number x => exact Nat.zero_le _
      | boolean b =>
          rw [comparedValue]
          split
          · exact Nat.zero_le _
          · exact of_decide_eq_true htexts
  | tag | noTag | containsTag => exact List.forall_mem_singleton.mpr (of_decide_eq_true htexts)
  | @contains name f c value hname hcolumn =>
      rw [Condition.patternsFit, beq_eq_false_iff_ne.mpr (ofName?_ne_tags hname hcolumn),
        Bool.false_or, Bool.not_eq_true', isOversized, decide_eq_false_iff_not, not_lt] at hpatterns
      exact List.forall_mem_singleton.mpr (hpatterns.trans (by decide))
  | logical op _ _ ihleft ihright =>
      rw [Condition.patternsFit, Bool.and_eq_true] at hpatterns
      rw [Condition.textsFit, Bool.and_eq_true] at htexts
      exact List.forall_mem_append.mpr
        ⟨ihleft hpatterns.1 htexts.1, ihright hpatterns.2 htexts.2⟩

theorem Condition.height_le_heightBehind (w : Condition) : w.height ≤ w.heightBehind := by
  cases w <;> simp only [heightBehind, height] <;> omega

variable {q : Query}

theorem Accepted.not_fails (h : q.Accepted) (row : NoteRow) (tags : List String) :
    ¬ q.fails row tags := by
  have hfails {w : Condition} (hw : w.patternsFit = true) : ¬ w.fails row tags = true :=
    Bool.eq_false_iff.mp (Condition.fails_of_patternsFit hw row tags)
  unfold fails
  split
  · exact id
  · next w _ hw => exact hfails (h.patterns w hw)
  · next path w _ hw =>
    have hfit := h.patterns w hw
    unfold failsBehind
    split
    · rw [Condition.patternsFit, Bool.and_eq_true] at hfit
      rintro (hleft | hright)
      · exact hfails hfit.1 hleft.2
      · exact hfails hfit.2 hright.2
    · exact fun hboth => hfails hfit hboth.2

/-- What keeps to the limits is refused for no index. -/
theorem Accepted.not_refused (h : q.Accepted) {defaultLimit : Nat} {t : Translation}
    (htranslate : q.translate defaultLimit = .ok t) (ix : Index) : ¬ q.IsRefused t.params ix := by
  obtain ⟨named, g, order, -, hg, -, rfl⟩ := translate_eq_ok.mp htranslate
  rintro (hdepth | hplaceholders | ⟨v, hv, hsize⟩ | ⟨row, -, hfails⟩)
  · exact absurd h.depth (not_le.mpr hdepth)
  · have htests := h.tests
    rw [placeholders, maxPlaceholders] at hplaceholders
    split at hplaceholders <;> omega
  · refine absurd ?_ (not_le.mpr hsize)
    simp only [Translation.assemble, List.mem_append, List.mem_flatMap, List.mem_map,
      Option.mem_toList, List.mem_singleton] at hv
    rcases hv with ⟨f, ⟨path, hpath, rfl⟩ | hf, hv⟩ | rfl
    · rcases List.mem_pair.mp hv with rfl | rfl
      · exact Nat.zero_le _
      · exact h.source path hpath
    · obtain ⟨-, rfl⟩ | ⟨w, f', hw, hf', rfl⟩ := optionMapM_eq_ok.mp hg
      · cases hf
      cases hf
      obtain ⟨tree, hemits⟩ := emits_of_translate hf'
      exact hemits.size_le (h.patterns w hw) (h.texts w hw) v hv
    · exact Nat.zero_le _
  · exact h.not_fails row _ hfails

/-- The source of an accepted query is accepted on its own. -/
theorem Accepted.inside (h : q.Accepted) : Accepted { q with condition := none } where
  depth := by
    cases q.source <;> simp [Query.depth, maxDepth]
  tests := Nat.zero_le _
  source := h.source
  patterns := nofun
  texts := nofun

/-- The condition of an accepted query is accepted on its own. -/
theorem Accepted.matching (h : q.Accepted) : Accepted { q with source := none } where
  depth := by
    refine le_trans ?_ h.depth
    unfold Query.depth
    cases q.source with
    | none => exact le_rfl
    | some path =>
        cases q.condition with
        | none => exact Nat.zero_le _
        | some w => exact Nat.add_le_add_right w.height_le_heightBehind _
  tests := h.tests
  source := nofun
  patterns := h.patterns
  texts := h.texts

/-- So is the right side of a condition that is put together. -/
theorem Accepted.right (h : q.Accepted) {op : Connective} {l r : Condition}
    (hcondition : q.condition = some (.logical op l r)) :
    Accepted { q with source := none, condition := some r } where
  depth := by
    refine le_trans ?_ h.matching.depth
    simp only [Query.depth, hcondition, Condition.height, Condition.searchHeight, Option.elim_some]
    omega
  tests := by
    have htests := h.tests
    simp only [leaves, hcondition, Option.elim_some, Condition.leaves, List.length_append] at htests
    exact (Nat.le_add_left _ _).trans htests
  source := nofun
  patterns := by
    rintro _ ⟨⟩
    exact ((Bool.and_eq_true _ _).mp (h.patterns _ hcondition)).2
  texts := by
    rintro _ ⟨⟩
    exact ((Bool.and_eq_true _ _).mp (h.texts _ hcondition)).2

end Accepted

end Slipbox.Query
