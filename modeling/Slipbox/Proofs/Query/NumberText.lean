import Slipbox.Proofs.Decimal.Characters
import Slipbox.Proofs.Decimal.Size
import Slipbox.Proofs.Query.Substring

/-! Numbers against columns of text. A number is bound as a double, which a column of text turns
into a text of its own before it compares. A `CONTAINS` test and a search for a tag bind the plain
decimal of the number instead, so a text that is this decimal is not always found as equal to the
number. -/

namespace Slipbox.Query

open Decimal (IsNumeric ShortFraction columnText plain)

theorem exists_translate_eq {name : String} {f : Field} (hname : Field.ofName? name = some f)
    (value : Literal) : ∃ fr, (Condition.compare name .eq value).translate = .ok fr := by
  rw [Condition.translate, field_eq_ok.mpr hname, ok_bind]
  split <;> exact ⟨_, rfl⟩

/-- A note can have any text in a column of text. -/
theorem exists_valueIn_text {f : Field} (hf : f.kind = .text) (text : String) :
    ∃ row : NoteRow, f.valueIn row = .text text := by
  let info : Metadata :=
    ⟨text, text, some text, some text, some text, some text, none, false⟩
  refine ⟨⟨1, info, text, none⟩, ?_⟩
  cases f with
  | confidence | verified | tags => cases hf
  | _ => rfl

/-- The test for equality with a number is true where the stored text is the one that the column
makes of the number. -/
theorem comparison_number {f : Field} (hf : f.kind = .text) {row : NoteRow} {tags : List String}
    {x : Float} : comparison row tags f .eq (.number x) = some true ↔
      x.isNaN = false ∧ f.valueIn row = .text (columnText x) := by
  have hcolumn : f ≠ .tags ∧ f.affinity = .text := by
    cases f with
    | confidence | verified | tags => cases hf
    | _ => exact ⟨Field.noConfusion, rfl⟩
  rw [comparison.eq_def, if_neg hcolumn.1, hcolumn.2, Literal.valueFor]
  rcases valueIn_text hf row with hnull | ⟨text, htext⟩
  · simp [hnull, Sql.compareTruth, Sql.Value.coerce, Sql.Value.text?]
  · rw [htext]
    cases hx : x.isNaN with
    | true => simp [Sql.compareTruth, Sql.Value.coerce, Sql.Value.text?]
    | false =>
        change some (compare text (columnText x) == .eq) = some true ↔ _
        rw [Option.some.injEq, beq_iff_eq, Std.LawfulEqOrd.compare_eq_iff_eq]
        simp

theorem IsOrdinary.of_isNumeric {c : Char} (h : IsNumeric c) : IsOrdinary c := by
  intro hc
  rcases h with hdigit | rfl | rfl | rfl
  · fin_cases hc <;> exact absurd hdigit (by decide)
  · exact absurd hc (by decide)
  · exact absurd hc (by decide)
  · exact absurd hc (by decide)

theorem isOrdinary_plain (x : Float) : ∀ c ∈ (plain x).toList, IsOrdinary c := by
  have hwords : (["NaN", "inf", "-inf"].all fun word =>
      word.toList.all fun c => decide (IsOrdinary c)) = true := by decide +kernel
  simp only [List.all_eq_true, decide_eq_true_iff] at hwords
  rcases Decimal.plain_characters x with hword | hnumeric
  · exact hwords _ hword
  · exact fun c hc => .of_isNumeric (hnumeric c hc)

/-- The escapes at most double a text, and a character takes at most four bytes. -/
theorem utf8ByteSize_pattern_le (needle : String) :
    (pattern needle).utf8ByteSize ≤ 8 * needle.toList.length + 8 := by
  have hescaped (cs : List Char) : (cs.flatMap escapeChar).length ≤ 2 * cs.length := by
    induction cs with
    | nil => exact Nat.le_refl 0
    | cons c cs ih =>
        have hchar : (escapeChar c).length ≤ 2 := by
          unfold escapeChar
          split <;> simp
        rw [List.flatMap_cons, List.length_append, List.length_cons]
        omega
  have hbytes := Text.byteLength_le (pattern needle).toList
  have hlength := hescaped needle.toList
  rw [Text.byteLength_toList] at hbytes
  refine hbytes.trans ?_
  rw [toList_pattern, List.length_cons, List.length_append, List.length_singleton]
  omega

theorem isOversized_plain (x : Float) : isOversized (plain x) = false := by
  have hpattern := utf8ByteSize_pattern_le (plain x)
  have hlength := Decimal.length_plain_le x
  rw [isOversized, decide_eq_false_iff_not, not_lt, Sql.maxPatternSize]
  omega

/-- A test for equality with a number finds just the notes with the text that the column makes of
the number. This is the plain decimal, by which `CONTAINS` and the search for a tag find the number,
if and only if the number is a fraction of few digits. `CONTAINS` looks for it in front of the first
null character. -/
theorem number_equality_selects {name : String} {f : Field} (hname : Field.ofName? name = some f)
    (hf : f.kind = .text) (x : Float) :
    (Condition.compare name .eq (.number x)).Selects (fun row _ =>
      x.isNaN = false ∧ f.valueIn row = .text (columnText x)) ∧
    (Condition.contains name (.number x)).Selects (fun row _ =>
      ∃ text, f.valueIn row = .text text ∧
        Text.Occurs (plain x).toList (Sql.beforeNull text)) ∧
    (∀ tags, Field.ofName? tags = some .tags →
      (Condition.compare tags .eq (.number x)).Selects fun row tables =>
        hasTag (tables.tagsOf row) (plain x) = true) ∧
    ((Condition.compare name .eq (.number x)).Selects (fun row _ =>
      f.valueIn row = .text (plain x)) ↔ ShortFraction x) := by
  obtain ⟨fr, hfr⟩ := exists_translate_eq hname (.number x)
  have hfound : (Condition.compare name .eq (.number x)).Selects fun row _ =>
      x.isNaN = false ∧ f.valueIn row = .text (columnText x) := by
    refine (Condition.selects_meaning hfr rfl).congr fun row tables => ?_
    rw [Condition.meaning, hname, Option.bind_some, comparison_number hf]
  have hcontains := selects_contains_ordinary hname hf (.number x) (isOversized_plain x)
    (isOrdinary_plain x)
  refine ⟨hfound, hcontains, fun tags htags => ?_, fun hplain => ?_, fun hshort => ?_⟩
  · obtain ⟨fr, hfr⟩ := exists_translate_eq htags (.number x)
    refine (Condition.selects_meaning hfr rfl).congr fun row tables => ?_
    rw [Condition.meaning, htags, Option.bind_some, comparison.eq_def]
    exact Option.some_inj
  · obtain ⟨row, hrow⟩ := exists_valueIn_text hf (plain x)
    obtain ⟨-, hcolumn⟩ := (hplain.unique hfound row ⟨[], []⟩).mp hrow
    rw [hrow] at hcolumn
    exact (Decimal.columnText_eq_plain_iff x).mp (Sql.Value.text.inj hcolumn).symm
  · refine hfound.congr fun row tables => ?_
    rw [(Decimal.columnText_eq_plain_iff x).mpr hshort, and_iff_right hshort.not_isNaN]

/-- A fraction finds its plain decimal, as a title and as a tag. -/
theorem number_equality_selects_fraction :
    Field.ofName? "Title" = some .title ∧ Field.kind .title = .text ∧
      Field.ofName? "tags" = some .tags ∧ ShortFraction 2.5 ∧ plain 2.5 = "2.5" ∧
      ((Condition.compare "Title" .eq (.number 2.5)).Selects fun row _ =>
        Field.title.valueIn row = .text (plain 2.5)) ∧
      (Condition.compare "tags" .eq (.number 2.5)).Selects fun row tables =>
        hasTag (tables.tagsOf row) (plain 2.5) = true := by
  have hname : Field.ofName? "Title" = some .title := by decide +kernel
  have htags : Field.ofName? "tags" = some .tags := by decide +kernel
  have hshort : ShortFraction 2.5 := by
    refine ⟨false, ⟨5629499534213120, -51⟩, 25, 1, rfl,
      ⟨by norm_num, by norm_num, by norm_num, by norm_num⟩, ?_⟩
    convert Decimal.Binary.covers_value _ using 1
    norm_num [Decimal.Binary.value]
  obtain ⟨-, -, htag, hequal⟩ := number_equality_selects hname rfl 2.5
  exact ⟨hname, rfl, htags, hshort, by decide +kernel, hequal.mpr hshort, htag "tags" htags⟩

/-- A whole number does not: the column writes it with a point. -/
theorem number_equality_misses_whole_number :
    let w : Condition := .compare "title" .eq (.number 2024)
    let row (title : String) : NoteRow :=
      ⟨1, ⟨"a.md", title, none, none, none, none, none, false⟩, "", none⟩
    plain 2024 = "2024" ∧ ∃ fr c, w.translate = .ok fr ∧ Sql.Condition.ofText? fr.sql = some c ∧
      ∀ tables, c.truth fr.params tables ⟨row "2024", none⟩ = some false ∧
        c.truth fr.params tables ⟨row "2024.0", none⟩ = some true := by
  intro w row
  obtain ⟨fr, hfr⟩ : ∃ fr, w.translate = .ok fr := ⟨_, rfl⟩
  obtain ⟨c, hread, htruth⟩ := exists_condition_of_translate hfr
  refine ⟨by decide +kernel, fr, c, hfr, hread, fun tables => ?_⟩
  have hmeaning (title : String) : w.meaning (row title) (tables.tagsOf (row title)) =
      Sql.compareTruth .eq .binary .text (.text title) (Literal.valueFor .text (.number 2024)) := by
    have hname : Field.ofName? "title" = some .title := by decide +kernel
    rw [Condition.meaning, hname]
    rfl
  rw [(htruth _ tables).2, (htruth _ tables).2, hmeaning, hmeaning]
  exact ⟨by decide +kernel, by decide +kernel⟩

end Slipbox.Query
