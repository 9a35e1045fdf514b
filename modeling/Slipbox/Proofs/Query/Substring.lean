import Mathlib.Data.List.Forall2
import Slipbox.Proofs.Query.Meaning
import Slipbox.Proofs.Text.Lowercase

/-! A `CONTAINS` test on a column of text finds the notes in whose text the needle stands somewhere,
one character after the other. ASCII letters match in either case and every other character matches
itself only, the signs that a pattern reads as special among them. Exceptions are the null
character, behind which neither text is read, and two noncharacters, which are read as the
replacement character. A needle whose pattern is too large is found nowhere: the test fails. -/

namespace Slipbox

namespace Text

/-- The characters are equal, or one ASCII letter in two cases. -/
def SameUpToCase (a b : Char) : Prop :=
  a = b ∨ a.isAlpha = true ∧ b.isAlpha = true ∧ a.toLower = b.toLower

theorem isAlpha_toLower (c : Char) : c.toLower.isAlpha = c.isAlpha :=
  apply_toLower (f := Char.isAlpha) (by decide +kernel) c

theorem toLower_eq_self {c : Char} (h : c.isAlpha = false) : c.toLower = c := by
  refine dif_neg fun hupper => ?_
  have hletter : (c.isUpper || c.isLower) = true :=
    (Bool.or_eq_true _ _).mpr (.inl (decide_eq_true hupper))
  exact absurd (h.symm.trans hletter) Bool.false_ne_true

theorem toLower_eq_iff {a b : Char} : a.toLower = b.toLower ↔ SameUpToCase a b := by
  constructor
  · intro h
    have hsort : a.isAlpha = b.isAlpha := by rw [← isAlpha_toLower, h, isAlpha_toLower]
    cases hletter : b.isAlpha with
    | true => exact .inr ⟨hsort.trans hletter, hletter, h⟩
    | false =>
        rw [toLower_eq_self hletter, toLower_eq_self (hsort.trans hletter)] at h
        exact .inl h
  · rintro (rfl | ⟨-, -, h⟩)
    · rfl
    · exact h

/-- What is no letter matches itself only. -/
theorem sameUpToCase_iff_eq {a b : Char} (h : a.isAlpha = false) : SameUpToCase a b ↔ a = b :=
  or_iff_left fun hletter => by
    rw [h] at hletter
    cases hletter.1

/-- Some part of the text is the needle, character by character. -/
def Occurs (needle text : List Char) : Prop :=
  ∃ before found after, text = before ++ found ++ after ∧
    List.Forall₂ SameUpToCase needle found

theorem forall₂_sameUpToCase_iff {needle found : List Char} :
    List.Forall₂ SameUpToCase needle found ↔
      found.map Char.toLower = needle.map Char.toLower := by
  rw [eq_comm, ← List.forall₂_eq_eq_eq, List.forall₂_map_left_iff, List.forall₂_map_right_iff]
  simp only [toLower_eq_iff]

theorem ends_iff {needle text : List Char} :
    needle.map Char.toLower <:+ text.map Char.toLower ↔
      ∃ before found, text = before ++ found ∧ List.Forall₂ SameUpToCase needle found := by
  constructor
  · rintro ⟨before, htext⟩
    obtain ⟨skipped, found, rfl, -, hfound⟩ := List.map_eq_append_iff.mp htext.symm
    exact ⟨skipped, found, rfl, forall₂_sameUpToCase_iff.mpr hfound⟩
  · rintro ⟨before, found, rfl, hfound⟩
    rw [List.map_append, forall₂_sameUpToCase_iff.mp hfound]
    exact List.suffix_append _ _

theorem occurs_iff {needle text : List Char} :
    Occurs needle text ↔ needle.map Char.toLower <:+: text.map Char.toLower := by
  constructor
  · rintro ⟨before, found, after, rfl, hfound⟩
    rw [List.map_append, List.map_append, forall₂_sameUpToCase_iff.mp hfound]
    exact List.infix_append _ _ _
  · rintro ⟨before, after, htext⟩
    obtain ⟨front, back, rfl, hfront, -⟩ := List.map_eq_append_iff.mp htext.symm
    obtain ⟨skipped, found, rfl, -, hfound⟩ := List.map_eq_append_iff.mp hfront
    exact ⟨skipped, found, back, rfl, forall₂_sameUpToCase_iff.mpr hfound⟩

/-- Changing characters of the text that no character of the needle tells apart changes nothing. -/
theorem occurs_map_iff {needle text : List Char} {g : Char → Char}
    (h : ∀ c ∈ needle, ∀ d, SameUpToCase c (g d) ↔ SameUpToCase c d) :
    Occurs needle (text.map g) ↔ Occurs needle text := by
  have hmatch (found : List Char) :
      List.Forall₂ SameUpToCase needle (found.map g) ↔ List.Forall₂ SameUpToCase needle found := by
    rw [List.forall₂_map_right_iff, List.forall₂_iff_zip, List.forall₂_iff_zip]
    exact and_congr_right fun _ => forall_congr' fun c => forall_congr' fun d =>
      forall_congr' fun hmem => h c (List.of_mem_zip hmem).1 d
  constructor
  · rintro ⟨before, found, after, htext, hfound⟩
    obtain ⟨front, back, rfl, hfront, -⟩ := List.map_eq_append_iff.mp htext
    obtain ⟨skipped, found, rfl, -, rfl⟩ := List.map_eq_append_iff.mp hfront
    exact ⟨skipped, found, back, rfl, (hmatch found).mp hfound⟩
  · rintro ⟨before, found, after, rfl, hfound⟩
    exact ⟨before.map g, found.map g, after.map g, by simp, (hmatch found).mpr hfound⟩

/-- A needle without letters is looked for as it is written. -/
theorem occurs_iff_infix {needle text : List Char} (h : ∀ c ∈ needle, c.isAlpha = false) :
    Occurs needle text ↔ needle <:+: text := by
  have hmatch (found : List Char) : List.Forall₂ SameUpToCase needle found ↔ needle = found := by
    induction needle generalizing found with
    | nil => rw [List.forall₂_nil_left_iff, eq_comm]
    | cons c cs ih =>
        rw [List.forall_mem_cons] at h
        cases found with
        | nil => simp
        | cons d ds => rw [List.forall₂_cons, sameUpToCase_iff_eq h.1, ih h.2, List.cons.injEq]
  constructor
  · rintro ⟨before, found, after, rfl, hfound⟩
    obtain rfl := (hmatch found).mp hfound
    exact List.infix_append _ _ _
  · rintro ⟨before, after, rfl⟩
    exact ⟨before, needle, after, rfl, (hmatch needle).mpr rfl⟩

end Text

namespace Query

open Text (Occurs)

/-- Whether a pattern test for the needle finds it in the text: the characters that it reads of the
needle stand among those that it reads of the text or, if the needle has a null character, at the
end of them. -/
def Finds (needle text : String) : Prop :=
  if '\x00' ∈ needle.toList then
    ∃ before found, Sql.patternChars text = before ++ found ∧
      List.Forall₂ Text.SameUpToCase (Sql.patternChars needle) found
  else Occurs (Sql.patternChars needle) (Sql.patternChars text)

theorem occursIn_iff {needle text : String} : occursIn needle text = true ↔ Finds needle text := by
  rw [occursIn, Finds]
  split
  · rw [decide_eq_true_iff, Text.ends_iff]
  · rw [decide_eq_true_iff, Text.occurs_iff]

/-- A character that a pattern test reads as itself, and which it reads no other one as. -/
def IsOrdinary (c : Char) : Prop :=
  c ∉ ['\x00', '\uFFFD', '\uFFFE', '\uFFFF']

instance : DecidablePred IsOrdinary := fun c =>
  inferInstanceAs (Decidable (c ∉ ['\x00', '\uFFFD', '\uFFFE', '\uFFFF']))

/-- A needle of ordinary characters is looked for as it is, in the text before a null character. -/
theorem finds_iff_occurs {needle : String} (h : ∀ c ∈ needle.toList, IsOrdinary c) (text : String) :
    Finds needle text ↔ Occurs needle.toList (Sql.beforeNull text) := by
  have hnull : '\x00' ∉ needle.toList := fun hmem => h _ hmem (.head _)
  have hread : Sql.patternChars needle = needle.toList := by
    rw [Sql.patternChars, Sql.beforeNull_eq hnull]
    refine (List.map_congr_left fun c hc => if_neg ?_).trans (List.map_id _)
    simp only [Bool.or_eq_true, beq_iff_eq]
    rintro (rfl | rfl) <;> exact h _ hc (by simp)
  rw [Finds, if_neg hnull, hread, Sql.patternChars]
  refine Text.occurs_map_iff fun c hc d => ?_
  unfold Sql.patternChar
  split
  · next hd =>
    -- an ordinary character is neither what has been read nor what stands there
    have hne (e : Char) (hletter : e.isAlpha = false) (he : ¬ IsOrdinary e) :
        ¬ Text.SameUpToCase c e := by
      rintro (rfl | ⟨-, halpha, -⟩)
      · exact he (h _ hc)
      · exact Bool.false_ne_true (hletter.symm.trans halpha)
    refine iff_of_false (hne _ (by decide) (by decide)) ?_
    rcases (Bool.or_eq_true _ _).mp hd with hd | hd <;> rw [beq_iff_eq.mp hd] <;>
      exact hne _ (by decide) (by decide)
  · rfl

/-- A column of text holds a text or nothing. -/
theorem valueIn_text {f : Field} (hf : f.kind = .text) (row : NoteRow) :
    f.valueIn row = .null ∨ ∃ text, f.valueIn row = .text text := by
  have hoptional (s : Option String) :
      Sql.optional s = .null ∨ ∃ text, Sql.optional s = .text text := by
    cases s with
    | none => exact .inl rfl
    | some text => exact .inr ⟨text, rfl⟩
  cases f with
  | path | title | content => exact .inr ⟨_, rfl⟩
  | type | created | modified | source => exact hoptional _
  | confidence | verified | tags => cases hf

theorem containment_eq_true {f : Field} (hf : f.kind = .text) {row : NoteRow} {tags : List String}
    {value : Literal} : containment row tags f value = some true ↔
      ∃ text, f.valueIn row = .text text ∧ Finds value.text text := by
  have htags : f ≠ .tags := by
    rintro rfl
    cases hf
  rw [containment, if_neg htags]
  rcases valueIn_text hf row with hnull | ⟨text, htext⟩
  · simp [hnull, Sql.Value.text?]
  · simp [htext, Sql.Value.text?, occursIn_iff]

theorem exists_translate_contains {name : String} {f : Field} (hname : Field.ofName? name = some f)
    (value : Literal) : ∃ fr, (Condition.contains name value).translate = .ok fr := by
  rw [Condition.translate, field_eq_ok.mpr hname, ok_bind]
  split <;> exact ⟨_, rfl⟩

theorem selects_contains {name : String} {f : Field} (hname : Field.ofName? name = some f)
    (hf : f.kind = .text) (value : Literal) (hsize : isOversized value.text = false) :
    (Condition.contains name value).Selects fun row _ =>
      ∃ text, f.valueIn row = .text text ∧ Finds value.text text := by
  obtain ⟨fr, hfr⟩ := exists_translate_contains hname value
  have hfit : (Condition.contains name value).patternsFit = true := by
    rw [Condition.patternsFit, hsize, Bool.not_false, Bool.or_true]
  refine (Condition.selects_meaning hfr hfit).congr fun row tables => ?_
  rw [Condition.meaning, hname, Option.bind_some, containment_eq_true hf]

theorem selects_contains_ordinary {name : String} {f : Field} (hname : Field.ofName? name = some f)
    (hf : f.kind = .text) (value : Literal) (hsize : isOversized value.text = false)
    (hordinary : ∀ c ∈ value.text.toList, IsOrdinary c) :
    (Condition.contains name value).Selects fun row _ =>
      ∃ text, f.valueIn row = .text text ∧
        Occurs value.text.toList (Sql.beforeNull text) := by
  refine (selects_contains hname hf value hsize).congr fun row tables => ?_
  simp only [finds_iff_occurs hordinary]

/-- The SQL of a `CONTAINS` test on a column of text is true for just those notes in whose text a
pattern test finds the needle, and fails if the pattern is too large. A needle of ordinary
characters is found where it stands in the text before a null character, up to ASCII letter case; if
it has no letters either, such as one of the signs that a pattern reads as special, exactly
there. -/
theorem contains_finds_substring {name : String} {f : Field} (hname : Field.ofName? name = some f)
    (hf : f.kind = .text) (value : Literal) :
    (isOversized value.text = true →
      ∃ fr c, (Condition.contains name value).translate = .ok fr ∧
        Sql.Condition.ofText? fr.sql = some c ∧
        ∀ row tables, c.fails fr.params tables ⟨row, none⟩ = true) ∧
    (isOversized value.text = false →
      (Condition.contains name value).Selects (fun row _ =>
        ∃ text, f.valueIn row = .text text ∧ Finds value.text text) ∧
      ((∀ ch ∈ value.text.toList, IsOrdinary ch) →
        (Condition.contains name value).Selects (fun row _ =>
          ∃ text, f.valueIn row = .text text ∧
            Occurs value.text.toList (Sql.beforeNull text)) ∧
        ((∀ ch ∈ value.text.toList, ch.isAlpha = false) →
          (Condition.contains name value).Selects fun row _ =>
            ∃ text, f.valueIn row = .text text ∧
              value.text.toList <:+: Sql.beforeNull text))) := by
  refine ⟨fun hsize => ?_, fun hsize =>
    ⟨selects_contains hname hf value hsize, fun hordinary => ?_⟩⟩
  · obtain ⟨fr, hfr⟩ := exists_translate_contains hname value
    obtain ⟨c, hread, htruth⟩ := exists_condition_of_translate hfr
    have htags : f ≠ .tags := by
      rintro rfl
      cases hf
    refine ⟨fr, c, hfr, hread, fun row tables => (htruth row tables).1.trans ?_⟩
    simp [Condition.fails, hname, htags, hsize]
  · have hfinds := selects_contains_ordinary hname hf value hsize hordinary
    refine ⟨hfinds, fun hsigns => hfinds.congr fun row tables => ?_⟩
    simp only [Text.occurs_iff_infix hsigns]

/-- The special signs, behind a letter and on their own, the last of them at the end of the
needle. -/
theorem contains_finds_special_signs :
    let row (title : String) : NoteRow :=
      ⟨1, ⟨"a.md", title, none, none, none, none, none, false⟩, "", ""⟩
    let signs := "%_\\"
    Field.ofName? "Title" = some .title ∧ Field.kind .title = .text ∧
      isOversized ("r" ++ signs) = false ∧ (∀ ch ∈ ("r" ++ signs).toList, IsOrdinary ch) ∧
      (∃ fr c, (Condition.contains "Title" (.string ("r" ++ signs))).translate = .ok fr ∧
        Sql.Condition.ofText? fr.sql = some c ∧ ∀ tables,
          c.truth fr.params tables ⟨row "C:\\DIR%_\\x", none⟩ = some true ∧
          c.truth fr.params tables ⟨row "C:\\DIR-_\\x", none⟩ ≠ some true) ∧
      (∀ ch ∈ signs.toList, ch.isAlpha = false) ∧
      (Condition.contains "Title" (.string signs)).Selects fun row _ =>
        ∃ text, Field.title.valueIn row = .text text ∧
          signs.toList <:+: Sql.beforeNull text := by
  intro row signs
  have hname : Field.ofName? "Title" = some .title := by decide +kernel
  have hsize : isOversized ("r" ++ signs) = false := by decide +kernel
  have hall : (("r" ++ signs).toList.all fun ch => decide (IsOrdinary ch)) = true := by
    decide +kernel
  have hnone : (signs.toList.all fun ch => !ch.isAlpha) = true := by decide +kernel
  have hordinary : ∀ ch ∈ ("r" ++ signs).toList, IsOrdinary ch := fun ch hch =>
    of_decide_eq_true (List.all_eq_true.mp hall ch hch)
  have hsigns : ∀ ch ∈ signs.toList, ch.isAlpha = false := by simpa using hnone
  obtain ⟨-, hfits⟩ := contains_finds_substring hname rfl (.string ("r" ++ signs))
  obtain ⟨-, hread⟩ := hfits hsize
  obtain ⟨⟨fr, c, hfr, hread, hfinds⟩, -⟩ := hread hordinary
  obtain ⟨-, hfits⟩ := contains_finds_substring hname rfl (.string signs)
  obtain ⟨-, hexact⟩ := (hfits (by decide +kernel)).2 fun ch hch =>
    hordinary ch (String.toList_append ▸ List.mem_append_right _ hch)
  refine ⟨hname, rfl, hsize, hordinary, ⟨fr, c, hfr, hread, fun tables => ⟨?_, fun htrue => ?_⟩⟩,
    hsigns, hexact hsigns⟩
  · refine (hfinds _ tables).2.mpr ⟨_, rfl, Text.occurs_iff.mpr ?_⟩
    decide +kernel
  · obtain ⟨text, htext, hoccurs⟩ := (hfinds _ tables).2.mp htrue
    cases htext
    exact absurd (Text.occurs_iff.mp hoccurs) (by decide +kernel)

/-- A noncharacter as the needle finds a replacement character, which is another one. -/
theorem noncharacter_found_as_replacement :
    let row : NoteRow := ⟨1, ⟨"a.md", "\uFFFD", none, none, none, none, none, false⟩, "", ""⟩
    (∃ fr c, (Condition.contains "title" (.string "\uFFFE")).translate = .ok fr ∧
      Sql.Condition.ofText? fr.sql = some c ∧
      ∀ tables, c.truth fr.params tables ⟨row, none⟩ = some true) ∧
    ¬ Occurs "\uFFFE".toList "\uFFFD".toList := by
  intro row
  have hname : Field.ofName? "title" = some .title := by decide +kernel
  obtain ⟨fr, c, hfr, hread, hfinds⟩ :=
    selects_contains hname rfl (.string "\uFFFE") (by decide +kernel)
  refine ⟨⟨fr, c, hfr, hread, fun tables => (hfinds row tables).2.mpr ⟨_, rfl, ?_⟩⟩, fun h => ?_⟩
  · exact occursIn_iff.mp (by decide +kernel)
  · exact absurd (Text.occurs_iff.mp h) (by decide +kernel)

end Query

end Slipbox
