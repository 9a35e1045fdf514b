import Slipbox.Proofs.Query.Contains
import Slipbox.Proofs.Query.Emission
import Slipbox.Proofs.Sql.NullCharacters
import Slipbox.Sql.Run

/-! What a condition of a query means for a note, said by recursion on the condition, and that the
SQL of the condition has this meaning, unless a pattern is too large for a test. Each leaf reads its
own placeholder, so the induction runs with any values before and behind those of a fragment. -/

namespace Slipbox

namespace Field

/-- What a row stores for a field. -/
def valueIn (row : NoteRow) : Field → Sql.Value
  | .path => .text row.info.path
  | .title => .text row.info.title
  | .type => Sql.optional row.info.type
  | .created => Sql.optional row.info.created
  | .modified => Sql.optional row.info.modified
  | .source => Sql.optional row.info.source
  | .confidence => (row.info.confidence.map Sql.Value.real).getD .null
  | .verified => .integer (if row.info.verified then 1 else 0)
  | .content => .text row.content
  | .tags => .null

def affinity : Field → Sql.Affinity
  | .confidence => .real
  | .verified => .integer
  | _ => .text

end Field

/-- The tags of a note. -/
def Sql.Tables.tagsOf (tables : Tables) (row : NoteRow) : List String :=
  (tables.tags.filter fun tag => tag.note = row.id).map TextRow.text

namespace Query

/-- The value that a literal stands for where it meets a field of this kind: a truth value is a
number among truth values and a word elsewhere. -/
def Literal.valueFor (kind : FieldKind) : Literal → Sql.Value
  | .string s => .text s
  | .number x => if x.isNaN then .null else .real x
  | .boolean b => if kind = .boolean then .integer (if b then 1 else 0) else .text (toString b)

/-- Whether two texts count as one tag: they are equal up to ASCII letter case before the first null
character, and take the same number of bytes. -/
def SameTag (a b : String) : Prop :=
  (Sql.beforeNull a).map Char.toLower = (Sql.beforeNull b).map Char.toLower ∧
    a.utf8ByteSize = b.utf8ByteSize

instance (a b : String) : Decidable (SameTag a b) :=
  inferInstanceAs (Decidable (_ ∧ _))

/-- Whether one of the tags counts as the text. -/
def hasTag (tags : List String) (text : String) : Bool :=
  tags.any fun tag => SameTag tag text

/-- Whether a pattern test for the needle finds it in the text, up to ASCII letter case: somewhere
or, if the needle has a null character, at the end. -/
def occursIn (needle text : String) : Bool :=
  let lower (s : String) := (Sql.patternChars s).map Char.toLower
  if '\x00' ∈ needle.toList then lower needle <:+ lower text else lower needle <:+: lower text

/-- Whether the pattern for a needle is too large for a test. -/
def isOversized (needle : String) : Bool :=
  Sql.maxPatternSize < (pattern needle).utf8ByteSize

/-- The truth of a comparison for a note with these tags, among which there is no order. -/
def comparison (row : NoteRow) (tags : List String) (f : Field) (op : CompareOp)
    (value : Literal) : Sql.Truth :=
  if f = .tags then
    match op with
    | .eq => some (hasTag tags value.text)
    | .ne => some (!hasTag tags value.text)
    | _ => none
  else Sql.compareTruth op.comparison .binary f.affinity (f.valueIn row) (value.valueFor f.kind)

/-- The truth of a `CONTAINS` test for a note with these tags. -/
def containment (row : NoteRow) (tags : List String) (f : Field) (value : Literal) : Sql.Truth :=
  if f = .tags then some (hasTag tags value.text)
  else (f.valueIn row).text?.map (occursIn value.text)

/-- The truth of a condition for a note with these tags. Names of no field have no meaning. -/
def Condition.meaning (row : NoteRow) (tags : List String) : Condition → Sql.Truth
  | .compare name op value => (Field.ofName? name).bind fun f => comparison row tags f op value
  | .contains name value => (Field.ofName? name).bind fun f => containment row tags f value
  | .logical .and left right => (left.meaning row tags).and (right.meaning row tags)
  | .logical .or left right => (left.meaning row tags).or (right.meaning row tags)

/-- Whether a test of a condition fails for a note with these tags. The tests are made from the
left, as long as they leave open whether the condition is true. -/
def Condition.fails (row : NoteRow) (tags : List String) : Condition → Bool
  | .compare .. => false
  | .contains name value => Field.ofName? name != some .tags && isOversized value.text
  | .logical .and left right =>
    left.fails row tags || (left.meaning row tags == some true && right.fails row tags)
  | .logical .or left right =>
    left.fails row tags || (left.meaning row tags != some true && right.fails row tags)

/-- Whether no pattern of a condition is too large for a test. -/
def Condition.patternsFit : Condition → Bool
  | .compare .. => true
  | .contains name value => Field.ofName? name == some .tags || !isOversized value.text
  | .logical _ left right => left.patternsFit && right.patternsFit

theorem Condition.fails_of_patternsFit {w : Condition} (h : w.patternsFit = true) (row : NoteRow)
    (tags : List String) : w.fails row tags = false := by
  induction w with
  | compare => rfl
  | contains name value =>
      rw [patternsFit, Bool.or_eq_true, Bool.not_eq_true'] at h
      rw [fails, Bool.and_eq_false_iff]
      rcases h with htags | hsize
      · exact .inl (by simpa using htags)
      · exact .inr hsize
  | logical op left right ihleft ihright =>
      rw [patternsFit, Bool.and_eq_true] at h
      cases op <;> rw [fails, ihleft h.1, ihright h.2, Bool.and_false, Bool.false_or]

theorem column_eq_valueIn {f : Field} {c : Sql.Column} (h : f.column = some c) (row : NoteRow) :
    (Sql.Scope.mk row none).column c = f.valueIn row := by
  cases f <;> cases h
  case confidence => cases hx : row.info.confidence <;> simp [Sql.Scope.column, Field.valueIn, hx]
  all_goals rfl

theorem affinity_of_column {f : Field} {c : Sql.Column} (h : f.column = some c) :
    Sql.comparisonAffinity c.affinity .none = f.affinity := by
  cases f <;> cases h <;> rfl

theorem bound_comparedValue (f : Field) (value : Literal) :
    (comparedValue f value).bound = value.valueFor f.kind := by
  cases value with
  | string s => rfl
  | number x => rfl
  | boolean b =>
      have hkind : f.kind = .boolean ↔ f = .verified := by cases f <;> simp [Field.kind]
      simp only [comparedValue, Literal.valueFor, hkind]
      split <;> rfl

theorem getD_middle (before after : List Sql.Value) (v : Sql.Value) :
    (before ++ [v] ++ after).getD before.length .null = v := by
  simp [List.getD]

theorem compareTruth_integer (op : Sql.Comparison) (m n : Int) :
    Sql.compareTruth op .binary .integer (.integer m) (.integer n) =
      some (op.holds (compare m n)) := rfl

theorem compareTruth_nocase (s t : String) :
    Sql.compareTruth .eq .nocase .text (.text s) (.text t) = some (decide (SameTag s t)) := by
  change some (Sql.Collation.nocase.order s t == .eq) = _
  rw [Option.some.injEq, Bool.eq_iff_iff, beq_iff_eq, Sql.nocase_eq_iff, decide_eq_true_iff]
  rfl

theorem likeTruth_contains (v : Sql.Value) (needle : String) :
    Sql.likeTruth '\\' v (.text (pattern needle)) = v.text?.map (occursIn needle) := by
  rw [Sql.likeTruth]
  cases v.text? with
  | none => rfl
  | some text =>
      refine congrArg some (Bool.eq_iff_iff.mpr ?_)
      unfold occursIn
      by_cases hnull : '\x00' ∈ needle.toList
      · rw [fits_pattern_of_null hnull, if_pos hnull, decide_eq_true_iff]
      · rw [fits_pattern hnull, if_neg hnull, decide_eq_true_iff]

/-- The search for a tag is never unknown: it tells whether the note has the tag. -/
theorem tagSearch_truth (row : NoteRow) (tables : Sql.Tables) {params : List Sql.Value} {k : Nat}
    {text : String} (hparam : params.getD k .null = .text text) :
    (Sql.tagSearch k).truth params tables ⟨row, none⟩ =
      some (hasTag (tables.tagsOf row) text) := by
  have hrow (tag : TextRow) : ((Sql.compareTruth .eq .binary .integer (.integer tag.note)
      (.integer row.id)).and (Sql.compareTruth .eq .nocase .text (.text tag.text) (.text text)) ==
        some true) = (decide (tag.note = row.id) && decide (SameTag tag.text text)) := by
    have howner : compare (tag.note : Int) row.id = .eq ↔ tag.note = row.id := by
      rw [Std.LawfulEqOrd.compare_eq_iff_eq, Int.natCast_inj]
    rw [compareTruth_integer, compareTruth_nocase, Sql.Comparison.holds]
    simp only [← howner]
    cases compare (tag.note : Int) row.id <;> cases decide (SameTag tag.text text) <;> rfl
  have hany : hasTag (tables.tagsOf row) text = tables.tags.any fun tag =>
      decide (tag.note = row.id) && decide (SameTag tag.text text) := by
    simp only [hasTag, Sql.Tables.tagsOf, List.any_map, List.any_filter, Function.comp_def]
  rw [hany, Sql.tagSearch, Sql.Condition.truth]
  congr 2
  funext tag
  rw [← hrow]
  simp only [Sql.Condition.truth, Sql.Scalar.value, hparam]
  rfl

/-- The SQL of a condition, with the values of its fragment anywhere among the bound values, has the
meaning of the condition. -/
theorem Emits.truth {w : Condition} {f : Fragment} {tree : Nat → Sql.Condition}
    (h : Emits w f tree) (row : NoteRow) (tables : Sql.Tables) (before after : List Sql.Value) :
    (tree before.length).truth (before ++ f.params ++ after) tables ⟨row, none⟩ =
      w.meaning row (tables.tagsOf row) := by
  induction h generalizing before after with
  | @compare name f c op value hname hcolumn =>
      rw [Condition.meaning, hname, Option.bind_some, comparison.eq_def,
        if_neg (Field.ne_tags hcolumn), ← column_eq_valueIn hcolumn,
        ← affinity_of_column hcolumn, ← bound_comparedValue]
      simp only [Sql.Condition.truth, Sql.Scalar.value, Sql.Scalar.affinity, getD_middle]
  | @tag name value hname =>
      rw [Condition.meaning, hname]
      exact tagSearch_truth row tables (getD_middle ..)
  | @noTag name value hname =>
      rw [Condition.meaning, hname]
      exact congrArg Sql.Truth.not (tagSearch_truth row tables (getD_middle ..))
  | @contains name f c value hname hcolumn =>
      rw [Condition.meaning, hname, Option.bind_some, containment,
        if_neg (Field.ne_tags hcolumn), ← column_eq_valueIn hcolumn]
      simp only [Sql.Condition.truth, Sql.Scalar.value, getD_middle]
      exact likeTruth_contains _ _
  | @containsTag name value hname =>
      rw [Condition.meaning, hname]
      exact tagSearch_truth row tables (getD_middle ..)
  | @logical left right l r l' r' op _ _ ihleft ihright =>
      have hleft := ihleft before (r.params ++ after)
      have hright := ihright (before ++ l.params) after
      simp only [List.length_append, List.append_assoc] at hleft hright
      cases op <;>
        simp only [Connective.join, Sql.Condition.truth, Condition.meaning, List.append_assoc,
          hleft, hright]

theorem tagSearch_fails (k : Nat) (params : List Sql.Value) (tables : Sql.Tables)
    (scope : Sql.Scope) : (Sql.tagSearch k).fails params tables scope = false := by
  simp [Sql.tagSearch, Sql.Condition.fails]

/-- The SQL of a condition fails where the condition does. -/
theorem Emits.fails {w : Condition} {f : Fragment} {tree : Nat → Sql.Condition}
    (h : Emits w f tree) (row : NoteRow) (tables : Sql.Tables) (before after : List Sql.Value) :
    (tree before.length).fails (before ++ f.params ++ after) tables ⟨row, none⟩ =
      w.fails row (tables.tagsOf row) := by
  induction h generalizing before after with
  | compare => rfl
  | tag => exact tagSearch_fails ..
  | noTag => exact tagSearch_fails ..
  | @contains name f c value hname hcolumn =>
      have hcolumn : Field.ofName? name ≠ some .tags := by
        rw [hname]
        exact fun htags => Field.ne_tags hcolumn (Option.some.inj htags)
      simp only [Sql.Condition.fails, Sql.Scalar.value, getD_middle]
      rw [Condition.fails, bne_iff_ne.mpr hcolumn, Bool.true_and]
      rfl
  | @containsTag name value hname =>
      rw [Condition.fails, hname]
      exact tagSearch_fails ..
  | @logical left right l r l' r' op hl hr ihleft ihright =>
      have htruth := hl.truth row tables before (r.params ++ after)
      have hleft := ihleft before (r.params ++ after)
      have hright := ihright (before ++ l.params) after
      simp only [List.length_append, List.append_assoc] at htruth hleft hright
      cases op <;>
        simp only [Connective.join, Sql.Condition.fails, Condition.fails, List.append_assoc,
          htruth, hleft, hright]

/-- A translated condition is read back from its text, once for all notes. -/
theorem exists_condition_of_translate {w : Condition} {f : Fragment} (hw : w.translate = .ok f) :
    ∃ c, Sql.Condition.ofText? f.sql = some c ∧ ∀ row tables,
      c.fails f.params tables ⟨row, none⟩ = w.fails row (tables.tagsOf row) ∧
      c.truth f.params tables ⟨row, none⟩ = w.meaning row (tables.tagsOf row) := by
  obtain ⟨tree, hemits⟩ := emits_of_translate hw
  obtain ⟨ls, hspells, hstands⟩ := hemits.spells 0
  have hread := Sql.Read.condition_complete hstands.1 (by simp [Sql.Read.Ends, Sql.Avoids] :
    Sql.Read.Ends [])
  refine ⟨tree 0, ?_, fun row tables => ⟨by simpa using hemits.fails row tables [] [],
    by simpa using hemits.truth row tables [] []⟩⟩
  rw [Sql.Condition.ofText?, hspells.scan_eq]
  simp only [List.append_nil] at hread
  simp [hread]

/-- The condition has a translation, its SQL fails for no note, and it is true for just those with a
property. -/
def Condition.Selects (w : Condition) (p : NoteRow → Sql.Tables → Prop) : Prop :=
  ∃ fr c, w.translate = .ok fr ∧ Sql.Condition.ofText? fr.sql = some c ∧ ∀ row tables,
    c.fails fr.params tables ⟨row, none⟩ = false ∧
    (c.truth fr.params tables ⟨row, none⟩ = some true ↔ p row tables)

namespace Condition

variable {w : Condition} {p q : NoteRow → Sql.Tables → Prop}

theorem Selects.congr (h : w.Selects p) (hsame : ∀ row tables, p row tables ↔ q row tables) :
    w.Selects q := by
  obtain ⟨fr, c, htranslate, hread, htruth⟩ := h
  exact ⟨fr, c, htranslate, hread, fun row tables =>
    ⟨(htruth row tables).1, (htruth row tables).2.trans (hsame row tables)⟩⟩

/-- A condition selects by one property only. -/
theorem Selects.unique (hp : w.Selects p) (hq : w.Selects q) (row : NoteRow)
    (tables : Sql.Tables) : p row tables ↔ q row tables := by
  obtain ⟨fr, c, htranslate, hread, htruth⟩ := hp
  obtain ⟨fr', c', htranslate', hread', htruth'⟩ := hq
  cases htranslate.symm.trans htranslate'
  cases hread.symm.trans hread'
  exact (htruth row tables).2.symm.trans (htruth' row tables).2

theorem selects_meaning {fr : Fragment} (h : w.translate = .ok fr) (hfit : w.patternsFit = true) :
    w.Selects fun row tables => w.meaning row (tables.tagsOf row) = some true := by
  obtain ⟨c, hread, htruth⟩ := exists_condition_of_translate h
  refine ⟨fr, c, h, hread, fun row tables => ?_⟩
  obtain ⟨hfails, hmeaning⟩ := htruth row tables
  exact ⟨hfails.trans (fails_of_patternsFit hfit ..), by rw [hmeaning]⟩

end Condition

/-- The text of a translated condition is one condition of SQL. Where no pattern is too large, this
can be tested for every note and its tags, and has the meaning of the condition that has been
translated. -/
theorem translate_meaning {w : Condition} {f : Fragment} (hw : w.translate = .ok f)
    (hfit : w.patternsFit = true) (row : NoteRow) (tables : Sql.Tables) :
    ∃ c, Sql.Condition.ofText? f.sql = some c ∧
      c.fails f.params tables ⟨row, none⟩ = false ∧
      c.truth f.params tables ⟨row, none⟩ = w.meaning row (tables.tagsOf row) := by
  obtain ⟨c, hread, htruth⟩ := exists_condition_of_translate hw
  obtain ⟨hfails, hmeaning⟩ := htruth row tables
  exact ⟨c, hread, hfails.trans (Condition.fails_of_patternsFit hfit ..), hmeaning⟩

/-- A comparison with an absent type is unknown, but the tags and the title still decide. -/
theorem translate_meaning_absent_type :
    let w : Condition := .logical .or (.compare "type" .eq (.string "log"))
      (.logical .and (.compare "tags" .ne (.string "OLD")) (.contains "title" (.string "50%")))
    let row : NoteRow :=
      ⟨3, ⟨"a.md", "Up 50% more", none, none, none, none, none, false⟩, "", ""⟩
    let tables : Sql.Tables := ⟨[row], [⟨1, 3, "new"⟩, ⟨2, 4, "old"⟩]⟩
    w.patternsFit = true ∧ ∃ f c, w.translate = .ok f ∧ Sql.Condition.ofText? f.sql = some c ∧
      c.fails f.params tables ⟨row, none⟩ = false ∧
      c.truth f.params tables ⟨row, none⟩ = some true := by
  intro w row tables
  have hfit : w.patternsFit = true := by decide +kernel
  obtain ⟨f, hw⟩ : ∃ f, w.translate = .ok f := ⟨_, rfl⟩
  obtain ⟨c, hread, hfails, htruth⟩ := translate_meaning hw hfit row tables
  refine ⟨hfit, f, c, hw, hread, hfails, htruth.trans ?_⟩
  decide +kernel

/-- A null character hides what is behind it, so that a search finds a tag that ends otherwise. -/
theorem tag_found_behind_null :
    let w : Condition := .compare "tags" .eq (.string "x\x00z")
    let row : NoteRow := ⟨3, ⟨"a.md", "Note", none, none, none, none, none, false⟩, "", none⟩
    let tables : Sql.Tables := ⟨[row], [⟨1, 3, "x\x00y"⟩]⟩
    (∃ f c, w.translate = .ok f ∧ Sql.Condition.ofText? f.sql = some c ∧
      c.truth f.params tables ⟨row, none⟩ = some true) ∧
    ∀ tag ∈ tables.tagsOf row, Text.asciiLower tag ≠ Text.asciiLower "x\x00z" := by
  intro w row tables
  obtain ⟨f, hw⟩ : ∃ f, w.translate = .ok f := ⟨_, rfl⟩
  obtain ⟨c, hread, htruth⟩ := exists_condition_of_translate hw
  refine ⟨⟨f, c, hw, hread, (htruth row tables).2.trans ?_⟩, ?_⟩ <;> decide +kernel

end Query

end Slipbox
