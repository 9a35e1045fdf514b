import Mathlib.Data.List.Infix
import Slipbox.Query.Translate
import Slipbox.Sql.Like

/-! The pattern of a `CONTAINS` test fits exactly the texts in which the written text occurs, up to
ASCII letter case: its escapes leave no character with a special meaning, and the percent signs
around it stand for what is before and behind. A null character in the written text cuts the pattern
off, and the percent sign behind it is lost. -/

namespace Slipbox

namespace Sql

theorem fits_percent {escape : Char} (ps cs : List Char) :
    fits escape ('%' :: ps) cs = true ↔
      ∃ skipped rest, cs = skipped ++ rest ∧ fits escape ps rest = true := by
  rw [fits.eq_def]
  simp only [if_true]
  induction cs with
  | nil => simp [fitsLater]
  | cons c cs ih =>
      rw [fitsLater, Bool.or_eq_true, ih]
      constructor
      · rintro (hnow | ⟨skipped, rest, rfl, hlater⟩)
        · exact ⟨[], c :: cs, rfl, hnow⟩
        · exact ⟨c :: skipped, rest, rfl, hlater⟩
      · rintro ⟨skipped, rest, hcs, hfits⟩
        cases skipped with
        | nil => exact Or.inl (by rw [List.nil_append] at hcs; rwa [hcs])
        | cons d skipped =>
            obtain ⟨rfl, rfl⟩ := List.cons.inj hcs
            exact Or.inr ⟨skipped, rest, rfl, hfits⟩

theorem fits_percent_end {escape : Char} (cs : List Char) : fits escape ['%'] cs = true :=
  (fits_percent [] cs).mpr ⟨cs, [], (List.append_nil cs).symm, rfl⟩

end Sql

namespace Query

open Sql

/-- What a character of the written text is in the pattern. -/
def escapeChar (c : Char) : List Char :=
  if c == '%' || c == '_' || c == '\\' then ['\\', c] else [c]

theorem fits_escapeChar (c : Char) (ps cs : List Char) :
    fits '\\' (escapeChar c ++ ps) cs = true ↔
      ∃ d rest, cs = d :: rest ∧ c.toLower = d.toLower ∧ fits '\\' ps rest = true := by
  by_cases hspecial : (c == '%' || c == '_' || c == '\\') = true
  · rw [escapeChar, if_pos hspecial, List.cons_append, List.singleton_append, fits.eq_def]
    simp only [Char.reduceEq, if_false, if_true]
    cases cs with
    | nil => simp
    | cons d rest => simp [sameLetter]
  · rw [escapeChar, if_neg hspecial, List.singleton_append, fits.eq_def]
    simp only [Bool.or_eq_true, beq_iff_eq, not_or] at hspecial
    obtain ⟨⟨hpercent, hunderscore⟩, hescape⟩ := hspecial
    simp only [hpercent, hescape, if_false]
    cases cs with
    | nil => simp
    | cons d rest => simp [sameLetter, hunderscore]

theorem fits_escaped (needle ps cs : List Char) :
    fits '\\' (needle.flatMap escapeChar ++ ps) cs = true ↔
      ∃ found rest, cs = found ++ rest ∧ needle.map Char.toLower = found.map Char.toLower ∧
        fits '\\' ps rest = true := by
  induction needle generalizing cs with
  | nil =>
      constructor
      · intro h
        exact ⟨[], cs, rfl, rfl, h⟩
      · rintro ⟨found, rest, rfl, hfound, h⟩
        rw [List.map_nil, eq_comm, List.map_eq_nil_iff] at hfound
        rwa [hfound]
  | cons c needle ih =>
      rw [List.flatMap_cons, List.append_assoc, fits_escapeChar]
      constructor
      · rintro ⟨d, rest, rfl, hletter, h⟩
        obtain ⟨found, rest, rfl, hfound, h⟩ := (ih rest).mp h
        exact ⟨d :: found, rest, rfl, by simp [hletter, hfound], h⟩
      · rintro ⟨found, rest, rfl, hfound, h⟩
        cases found with
        | nil => cases hfound
        | cons d found =>
            obtain ⟨hletter, hfound⟩ := List.cons.inj hfound
            exact ⟨d, found ++ rest, rfl, hletter, (ih _).mpr ⟨found, rest, rfl, hfound, h⟩⟩

/-- The pattern of a `CONTAINS` test. -/
def pattern (needle : String) : String :=
  "%" ++ escapePattern needle ++ "%"

theorem toList_pattern (needle : String) :
    (pattern needle).toList = '%' :: (needle.toList.flatMap escapeChar ++ ['%']) := by
  simp only [pattern, escapePattern, String.toList_append, String.toList_ofList]
  rfl

theorem map_escapeChar (c : Char) :
    (escapeChar c).map patternChar = escapeChar (patternChar c) := by
  have hplain : (patternChar c == '%' || patternChar c == '_' || patternChar c == '\\') =
      (c == '%' || c == '_' || c == '\\') := by
    unfold patternChar
    split
    · next hread =>
      rcases (Bool.or_eq_true _ _).mp hread with h | h <;> rw [beq_iff_eq.mp h] <;> rfl
    · rfl
  rw [escapeChar, escapeChar, hplain]
  split
  · next hspecial =>
    have hread : (c == '\uFFFE' || c == '\uFFFF') = false := by
      rcases (Bool.or_eq_true _ _).mp hspecial with h | h
      · rcases (Bool.or_eq_true _ _).mp h with h | h <;> rw [beq_iff_eq.mp h] <;> rfl
      · rw [beq_iff_eq.mp h]
        rfl
    have hkept : patternChar c = c := if_neg (by simp [hread])
    rw [List.map_cons, List.map_singleton, hkept]
    rfl
  · rfl

theorem takeWhile_escaped (needle rest : List Char) :
    (needle.flatMap escapeChar ++ rest).takeWhile (· != '\x00') =
      (needle.takeWhile (· != '\x00')).flatMap escapeChar ++
        if '\x00' ∈ needle then [] else rest.takeWhile (· != '\x00') := by
  induction needle with
  | nil => rfl
  | cons c needle ih =>
      by_cases hc : c = '\x00'
      · subst hc
        rfl
      · have hescape : ∀ d ∈ escapeChar c, (d != '\x00') = true := by
          unfold escapeChar
          split <;> simp [hc]
        have hmem : '\x00' ∈ c :: needle ↔ '\x00' ∈ needle := by simp [Ne.symm hc]
        rw [List.flatMap_cons, List.append_assoc, List.takeWhile_append_of_pos hescape, ih,
          List.takeWhile_cons_of_pos (by simpa using hc), List.flatMap_cons, List.append_assoc]
        simp only [hmem]

/-- What a test reads of the pattern: the escaped text between percent signs, the second of which is
behind a null character if the text has one. -/
theorem patternChars_pattern (needle : String) :
    patternChars (pattern needle) = '%' :: ((patternChars needle).flatMap escapeChar ++
      if '\x00' ∈ needle.toList then [] else ['%']) := by
  have hread (cs : List Char) :
      (cs.flatMap escapeChar).map patternChar = (cs.map patternChar).flatMap escapeChar := by
    simp only [List.map_flatMap, List.flatMap_map, map_escapeChar]
  rw [patternChars, beforeNull, toList_pattern, List.takeWhile_cons_of_pos rfl, takeWhile_escaped,
    List.map_cons, List.map_append, hread]
  split <;> rfl

/-- The pattern finds the text, in any letter case. -/
theorem fits_pattern {needle : String} (h : '\x00' ∉ needle.toList) (cs : List Char) :
    fits '\\' (patternChars (pattern needle)) cs = true ↔
      (patternChars needle).map Char.toLower <:+: cs.map Char.toLower := by
  rw [patternChars_pattern, if_neg h, fits_percent]
  constructor
  · rintro ⟨before, rest, rfl, h⟩
    obtain ⟨found, after, rfl, hfound, _⟩ := (fits_escaped _ _ _).mp h
    exact ⟨before.map Char.toLower, after.map Char.toLower, by simp [hfound]⟩
  · rintro ⟨before, after, hcs⟩
    obtain ⟨front, back, rfl, hfront, _⟩ := List.map_eq_append_iff.mp hcs.symm
    obtain ⟨skipped, found, rfl, _, hfound⟩ := List.map_eq_append_iff.mp hfront
    refine ⟨skipped, found ++ back, List.append_assoc .., ?_⟩
    exact (fits_escaped _ _ _).mpr ⟨found, back, rfl, hfound.symm, fits_percent_end back⟩

/-- A pattern that is cut off finds the text at the end only. -/
theorem fits_pattern_of_null {needle : String} (h : '\x00' ∈ needle.toList) (cs : List Char) :
    fits '\\' (patternChars (pattern needle)) cs = true ↔
      (patternChars needle).map Char.toLower <:+ cs.map Char.toLower := by
  rw [patternChars_pattern, if_pos h, fits_percent]
  constructor
  · rintro ⟨before, rest, rfl, h⟩
    obtain ⟨found, after, rfl, hfound, hend⟩ := (fits_escaped _ _ _).mp h
    have hafter : after = [] := List.isEmpty_iff.mp hend
    exact ⟨before.map Char.toLower, by simp [hafter, hfound]⟩
  · rintro ⟨before, hcs⟩
    obtain ⟨skipped, found, rfl, _, hfound⟩ := List.map_eq_append_iff.mp hcs.symm
    exact ⟨skipped, found, rfl, (fits_escaped _ _ _).mpr
      ⟨found, [], (List.append_nil found).symm, hfound.symm, rfl⟩⟩

end Query

end Slipbox
