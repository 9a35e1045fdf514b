import Slipbox.Document.Frontmatter
import Slipbox.Proofs.Text.Trimming

/-! The front matter of a document. Of all lines behind the opening one the first that consists of
three dashes closes it. A line is cut off where the next line feed is, so a closing line of a text is
its first line or a closing line of what follows that. -/

namespace Slipbox.Document

/-- An opening line: three dashes and a line feed, with or without a carriage return in between. -/
inductive Opens : List Char → Prop where
  | feed : Opens "---\n".toList
  | returnFeed : Opens "---\r\n".toList

/-- The line between these parts of a text is a closing one. It begins at the start of the text or
behind a line feed, and three dashes and any number of carriage returns stand in front of its line
feed or the end of the text. -/
structure Closes (before line after : List Char) : Prop where
  starts : ∀ c ∈ before.getLast?, c = '\n'
  dashes : ∃ n, line = "---".toList ++ List.replicate n '\r' ++ ['\n'] ∨
    line = "---".toList ++ List.replicate n '\r' ∧ after = []

/-- No line of the text is a closing one. -/
def Unclosed (text : List Char) : Prop :=
  ∀ before line after, text = before ++ line ++ after → ¬ Closes before line after

/-- The text is an opening line, the front matter, the first closing line and the body. -/
def Fenced (text yaml body : List Char) : Prop :=
  ∃ opening line, Opens opening ∧ text = opening ++ yaml ++ line ++ body ∧
    Closes yaml line body ∧ Unclosed yaml

/-- The text has an opening line and a closing one behind it. -/
def HasFences (text : List Char) : Prop :=
  ∃ opening before line after, Opens opening ∧ text = opening ++ before ++ line ++ after ∧
    Closes before line after

section Lines

variable {content rest text line before after : List Char}

theorem firstLine_feed (h : '\n' ∉ content) :
    firstLine (content ++ '\n' :: rest) = ⟨content ++ ['\n'], rest⟩ := by
  induction content with
  | nil => rfl
  | cons c content ih =>
      rw [List.mem_cons, not_or] at h
      rw [List.cons_append, firstLine, if_neg (Ne.symm h.1), ih h.2]
      rfl

theorem firstLine_last (h : '\n' ∉ text) : firstLine text = ⟨text, []⟩ := by
  induction text with
  | nil => rfl
  | cons c text ih =>
      rw [List.mem_cons, not_or] at h
      rw [firstLine, if_neg (Ne.symm h.1), ih h.2]

/-- What follows the first line stands behind a line feed, if there is anything. -/
theorem firstLine_ends (text : List Char) :
    (firstLine text).rest = [] ∨ (firstLine text).line.getLast? = some '\n' := by
  by_cases hfeed : '\n' ∈ text
  · obtain ⟨content, rest, rfl, hcontent⟩ := List.eq_append_cons_of_mem hfeed
    rw [firstLine_feed hcontent]
    exact .inr List.getLast?_concat
  · rw [firstLine_last hfeed]
    exact .inl rfl

theorem isFence_iff : isFence line = true ↔
    ∃ n, line = "---".toList ++ List.replicate n '\r' ++ ['\n'] ∨
      line = "---".toList ++ List.replicate n '\r' := by
  have hends (rest : List Char) :
      ((rest.dropWhile (· == '\r')).isEmpty || rest.dropWhile (· == '\r') == ['\n']) = true ↔
        ∃ n, rest = List.replicate n '\r' ++ ['\n'] ∨ rest = List.replicate n '\r' := by
    rw [Bool.or_eq_true, List.isEmpty_iff, beq_iff_eq, dropWhile_beq_eq_iff, dropWhile_beq_eq_iff,
      ← exists_or]
    simp [or_comm]
  have hdashes (tail : List Char) : line = "---".toList ++ tail ↔
      Text.after? "---".toList line = some tail := Text.after?_eq_some.symm
  simp only [List.append_assoc, hdashes]
  unfold isFence
  cases hafter : Text.after? "---".toList line with
  | none => simp [show Text.after? ['-', '-', '-'] line = none from hafter]
  | some rest =>
      simp only [show Text.after? ['-', '-', '-'] line = some rest from hafter, hends,
        Option.some.injEq]

theorem feed_not_mem_dashes (n : Nat) : '\n' ∉ "---".toList ++ List.replicate n '\r' := by
  simp

theorem Closes.ne_nil (h : Closes before line after) : line ≠ [] := by
  obtain ⟨n, rfl | ⟨rfl, -⟩⟩ := h.dashes <;> exact List.cons_ne_nil _ _

theorem not_closes_nil (hparts : [] = before ++ line ++ after) : ¬ Closes before line after := by
  intro h
  obtain ⟨-, hline, -⟩ : before = [] ∧ line = [] ∧ after = [] := by simpa using hparts.symm
  exact h.ne_nil hline

theorem Closes.firstLine_eq (h : Closes [] line after) :
    firstLine (line ++ after) = ⟨line, after⟩ ∧ isFence line = true := by
  obtain ⟨n, hline⟩ := h.dashes
  refine ⟨?_, isFence_iff.mpr ⟨n, hline.imp id And.left⟩⟩
  rcases hline with rfl | ⟨rfl, rfl⟩
  · rw [List.append_assoc, List.singleton_append]
    exact firstLine_feed (feed_not_mem_dashes n)
  · rw [List.append_nil]
    exact firstLine_last (feed_not_mem_dashes n)

theorem closes_firstLine (h : isFence (firstLine text).line = true) :
    Closes [] (firstLine text).line (firstLine text).rest := by
  obtain ⟨n, hline⟩ := isFence_iff.mp h
  refine ⟨by simp, n, hline.imp id fun hline => ⟨hline, ?_⟩⟩
  rcases firstLine_ends text with hnone | hfeed
  · exact hnone
  · rw [hline] at hfeed
    exact absurd (List.mem_of_mem_getLast? hfeed) (feed_not_mem_dashes n)

/-- What stands in front of a later closing line ends with a line feed, so the first line of the text
ends within it. -/
theorem Closes.exists_firstLine (h : Closes before line after) (hbefore : before ≠ []) :
    ∃ between, before = (firstLine (before ++ line ++ after)).line ++ between ∧
      (firstLine (before ++ line ++ after)).rest = between ++ line ++ after ∧
        Closes between line after := by
  obtain ⟨c, hc⟩ := Option.isSome_iff_exists.mp (List.getLast?_isSome.mpr hbefore)
  have hfeed : '\n' ∈ before := h.starts c hc ▸ List.mem_of_mem_getLast? hc
  obtain ⟨content, between, rfl, hcontent⟩ := List.eq_append_cons_of_mem hfeed
  have hfirst : firstLine (content ++ '\n' :: between ++ line ++ after) =
      ⟨content ++ ['\n'], between ++ line ++ after⟩ := by
    rw [List.append_assoc, List.append_assoc, List.cons_append, firstLine_feed hcontent,
      List.append_assoc]
  rw [hfirst]
  refine ⟨between, List.append_cons _ _ _, rfl, fun d hd => h.starts d ?_, h.dashes⟩
  rw [List.getLast?_append, List.getLast?_cons, hd]
  rfl

theorem Closes.behind_firstLine (h : Closes before line after)
    (hrest : (firstLine text).rest = before ++ line ++ after) :
    Closes ((firstLine text).line ++ before) line after := by
  refine ⟨fun c hc => ?_, h.dashes⟩
  rcases firstLine_ends text with hnone | hfeed
  · rw [hnone] at hrest
    exact absurd h (not_closes_nil hrest)
  · rw [List.getLast?_append, hfeed] at hc
    cases hlast : before.getLast? with
    | none =>
        rw [hlast] at hc
        exact (Option.some.inj hc).symm
    | some d =>
        rw [hlast] at hc
        exact h.starts c (hlast.trans hc)

/-- A closing line is the first line of the text or stands in what follows that. -/
theorem closes_iff (text before line after : List Char) :
    text = before ++ line ++ after ∧ Closes before line after ↔
      (before = [] ∧ firstLine text = ⟨line, after⟩ ∧ isFence line = true) ∨
        ∃ between, before = (firstLine text).line ++ between ∧
          (firstLine text).rest = between ++ line ++ after ∧ Closes between line after := by
  refine ⟨fun ⟨hparts, hcloses⟩ => ?_, fun h => ?_⟩
  · subst hparts
    by_cases hbefore : before = []
    · subst hbefore
      exact .inl ⟨rfl, hcloses.firstLine_eq⟩
    · exact .inr (hcloses.exists_firstLine hbefore)
  · have hparts := firstLine_append text
    rcases h with ⟨rfl, hfirst, hfence⟩ | ⟨between, rfl, hrest, hcloses⟩
    · have hline : isFence (firstLine text).line = true := by
        rw [hfirst, hfence]
      have hcloses := closes_firstLine hline
      rw [hfirst] at hparts hcloses
      exact ⟨hparts.symm, hcloses⟩
    · refine ⟨?_, hcloses.behind_firstLine hrest⟩
      rw [List.append_assoc, List.append_assoc, ← List.append_assoc between, ← hrest, hparts]

theorem unclosed_iff (text : List Char) :
    Unclosed text ↔ isFence (firstLine text).line = false ∧ Unclosed (firstLine text).rest := by
  refine ⟨fun h => ⟨?_, fun between line after hrest hcloses => ?_⟩, fun ⟨hfence, hrest⟩ => ?_⟩
  · rw [← Bool.not_eq_true]
    intro hfence
    obtain ⟨hparts, hcloses⟩ := (closes_iff text [] _ _).mpr (.inl ⟨rfl, rfl, hfence⟩)
    exact h _ _ _ hparts hcloses
  · obtain ⟨hparts, hcloses⟩ := (closes_iff text _ line after).mpr
      (.inr ⟨between, rfl, hrest, hcloses⟩)
    exact h _ _ _ hparts hcloses
  · intro before line after hparts hcloses
    rcases (closes_iff text before line after).mp ⟨hparts, hcloses⟩ with
      ⟨-, hfirst, hline⟩ | ⟨between, -, hbetween, hcloses⟩
    · rw [hfirst, hline] at hfence
      cases hfence
    · exact hrest _ _ _ hbetween hcloses

theorem beforeFence?_of_fence (h : isFence (firstLine text).line = true) :
    beforeFence? text = some ([], (firstLine text).rest) := by
  cases text with
  | nil => cases h
  | cons c cs => rw [beforeFence?, if_pos h]

theorem beforeFence?_of_not_fence (h : isFence (firstLine text).line = false) :
    beforeFence? text = (beforeFence? (firstLine text).rest).map fun (yaml, body) =>
      ((firstLine text).line ++ yaml, body) := by
  cases text with
  | nil => simp [beforeFence?, firstLine]
  | cons c cs =>
      rw [beforeFence?, if_neg (by simp [h])]

theorem beforeFence?_nil : beforeFence? [] = none := by
  rw [beforeFence?]

/-- A statement about texts by what follows their first lines. -/
theorem lines_induction {motive : List Char → Prop} (nil : motive [])
    (line : ∀ text, text ≠ [] → motive (firstLine text).rest → motive text) (text : List Char) :
    motive text := by
  induction hlength : text.length using Nat.strong_induction_on generalizing text with
  | h n ih =>
      cases text with
      | nil => exact nil
      | cons c cs =>
          apply line (c :: cs) (List.cons_ne_nil c cs)
          exact ih _ (hlength ▸ firstLine_rest_length c cs) _ rfl

theorem beforeFence?_eq_none (text : List Char) : beforeFence? text = none ↔ Unclosed text := by
  induction text using lines_induction with
  | nil => exact iff_of_true beforeFence?_nil fun _ _ _ => not_closes_nil
  | line text _ ih =>
      rw [unclosed_iff]
      by_cases hfence : isFence (firstLine text).line = true
      · rw [beforeFence?_of_fence hfence, hfence]
        simp
      · rw [Bool.not_eq_true] at hfence
        rw [beforeFence?_of_not_fence hfence, Option.map_eq_none_iff, ih, and_iff_right hfence]

/-- A closing line behind the first line leaves that one whole in what stands in front. -/
theorem unclosed_firstLine_append {between : List Char}
    (hrest : (firstLine text).rest = between ++ line ++ after) (h : Closes between line after) :
    Unclosed ((firstLine text).line ++ between) ↔
      isFence (firstLine text).line = false ∧ Unclosed between := by
  have hfirst : firstLine ((firstLine text).line ++ between) = ⟨(firstLine text).line, between⟩ := by
    by_cases hfeed : '\n' ∈ text
    · obtain ⟨content, rest, rfl, hcontent⟩ := List.eq_append_cons_of_mem hfeed
      rw [firstLine_feed hcontent, List.append_assoc, List.singleton_append, firstLine_feed hcontent]
    · rw [firstLine_last hfeed] at hrest
      exact absurd h (not_closes_nil hrest)
  rw [unclosed_iff, hfirst]

/-- The first closing line of the text stands between these parts. -/
def ClosedBetween (text yaml body : List Char) : Prop :=
  ∃ line, text = yaml ++ line ++ body ∧ Closes yaml line body ∧ Unclosed yaml

variable {yaml body : List Char}

theorem not_closedBetween_nil : ¬ ClosedBetween [] yaml body :=
  fun ⟨_, hparts, hcloses, _⟩ => not_closes_nil hparts hcloses

theorem closedBetween_of_fence (hfence : isFence (firstLine text).line = true) :
    ClosedBetween text yaml body ↔ yaml = [] ∧ body = (firstLine text).rest := by
  refine ⟨fun ⟨line, hparts, hcloses, hunclosed⟩ => ?_, fun ⟨hyaml, hbody⟩ => ?_⟩
  · rcases (closes_iff text yaml line body).mp ⟨hparts, hcloses⟩ with
      ⟨hyaml, hfirst, -⟩ | ⟨between, rfl, hrest, hcloses⟩
    · rw [hfirst]
      exact ⟨hyaml, rfl⟩
    · have hnofence := ((unclosed_firstLine_append hrest hcloses).mp hunclosed).1
      rw [hfence] at hnofence
      cases hnofence
  · subst hyaml hbody
    have hnone : Unclosed [] := fun _ _ _ => not_closes_nil
    exact ⟨_, (firstLine_append text).symm, closes_firstLine hfence, hnone⟩

theorem closedBetween_of_not_fence (hfence : isFence (firstLine text).line = false) :
    ClosedBetween text yaml body ↔ ∃ between, ClosedBetween (firstLine text).rest between body ∧
      (firstLine text).line ++ between = yaml := by
  refine ⟨fun ⟨line, hparts, hcloses, hunclosed⟩ => ?_,
    fun ⟨between, ⟨line, hrest, hcloses, hunclosed⟩, hyaml⟩ => ?_⟩
  · rcases (closes_iff text yaml line body).mp ⟨hparts, hcloses⟩ with
      ⟨-, hfirst, hline⟩ | ⟨between, rfl, hrest, hcloses⟩
    · rw [hfirst, hline] at hfence
      cases hfence
    · have hbetween := ((unclosed_firstLine_append hrest hcloses).mp hunclosed).2
      exact ⟨between, ⟨line, hrest, hcloses, hbetween⟩, rfl⟩
  · subst hyaml
    obtain ⟨hparts, hcloses'⟩ := (closes_iff text _ line body).mpr
      (.inr ⟨between, rfl, hrest, hcloses⟩)
    exact ⟨line, hparts, hcloses',
      (unclosed_firstLine_append hrest hcloses).mpr ⟨hfence, hunclosed⟩⟩

theorem beforeFence?_eq_some :
    beforeFence? text = some (yaml, body) ↔ ClosedBetween text yaml body := by
  induction text using lines_induction generalizing yaml with
  | nil =>
      rw [beforeFence?_nil]
      exact iff_of_false (by simp) not_closedBetween_nil
  | line text _ ih =>
      by_cases hfence : isFence (firstLine text).line = true
      · rw [beforeFence?_of_fence hfence, closedBetween_of_fence hfence, Option.some.injEq,
          Prod.mk.injEq, eq_comm (a := []), eq_comm (b := body)]
      · rw [Bool.not_eq_true] at hfence
        rw [beforeFence?_of_not_fence hfence, closedBetween_of_not_fence hfence,
          Option.map_eq_some_iff]
        simp [ih]

end Lines

section Split

variable {raw text rest yaml body : List Char}

/-- What stands behind the opening line. -/
def opened? (text : List Char) : Option (List Char) :=
  (Text.after? "---\n".toList text).or (Text.after? "---\r\n".toList text)

theorem opened?_eq_some :
    opened? text = some rest ↔ ∃ opening, Opens opening ∧ text = opening ++ rest := by
  rw [opened?, Option.or_eq_some_iff, Text.after?_eq_some, Text.after?_eq_some]
  refine ⟨fun h => ?_, fun ⟨opening, hopens, htext⟩ => ?_⟩
  · rcases h with h | ⟨-, h⟩
    · exact ⟨_, .feed, h⟩
    · exact ⟨_, .returnFeed, h⟩
  · cases hopens with
    | feed => exact .inl htext
    | returnFeed =>
        refine .inr ⟨?_, htext⟩
        rw [htext]
        rfl

theorem split_eq (raw : List Char) : split raw =
    ((opened? (withoutMark raw)).bind beforeFence?).elim (none, withoutMark raw) fun found =>
      (some found.1, found.2) := by
  have hopened : (Text.after? "---\n".toList (withoutMark raw)).or
      (Text.after? "---\r\n".toList (withoutMark raw)) = opened? (withoutMark raw) := rfl
  unfold split
  dsimp only
  rw [hopened]
  cases opened? (withoutMark raw) with
  | none => rfl
  | some rest =>
      dsimp only [Option.bind_some]
      cases beforeFence? rest <;> rfl

theorem split_cases (raw : List Char) :
    (split raw = (none, withoutMark raw) ∧
      ∀ rest, opened? (withoutMark raw) = some rest → beforeFence? rest = none) ∨
    ∃ rest yaml body, split raw = (some yaml, body) ∧ opened? (withoutMark raw) = some rest ∧
      beforeFence? rest = some (yaml, body) := by
  rw [split_eq]
  cases hfound : (opened? (withoutMark raw)).bind beforeFence? with
  | none => exact .inl ⟨rfl, Option.bind_eq_none_iff.mp hfound⟩
  | some found =>
      obtain ⟨rest, hopened, hfound⟩ := Option.bind_eq_some_iff.mp hfound
      exact .inr ⟨rest, found.1, found.2, rfl, hopened, hfound⟩

theorem split_eq_some : split raw = (some yaml, body) ↔ Fenced (withoutMark raw) yaml body := by
  refine ⟨fun h => ?_, fun ⟨opening, line, hopens, htext, hcloses, hunclosed⟩ => ?_⟩
  · rcases split_cases raw with ⟨hsplit, -⟩ | ⟨rest, yaml', body', hsplit, hopened, hfound⟩
    · cases hsplit.symm.trans h
    · cases hsplit.symm.trans h
      obtain ⟨opening, hopens, htext⟩ := opened?_eq_some.mp hopened
      obtain ⟨line, rfl, hcloses, hunclosed⟩ := beforeFence?_eq_some.mp hfound
      refine ⟨opening, line, hopens, ?_, hcloses, hunclosed⟩
      rw [htext]
      simp only [List.append_assoc]
  · have hopened : opened? (withoutMark raw) = some (yaml ++ line ++ body) := by
      refine opened?_eq_some.mpr ⟨opening, hopens, ?_⟩
      rw [htext]
      simp only [List.append_assoc]
    have hfound := beforeFence?_eq_some.mpr ⟨line, rfl, hcloses, hunclosed⟩
    rcases split_cases raw with ⟨-, hnone⟩ | ⟨rest, yaml', body', hsplit, hopened', hfound'⟩
    · rw [hnone _ hopened] at hfound
      cases hfound
    · cases hopened.symm.trans hopened'
      cases hfound.symm.trans hfound'
      exact hsplit

theorem exists_split_iff :
    (∃ yaml body, split raw = (some yaml, body)) ↔ HasFences (withoutMark raw) := by
  refine ⟨fun ⟨yaml, body, h⟩ => ?_, fun ⟨opening, before, line, after, hopens, htext, hcloses⟩ => ?_⟩
  · obtain ⟨opening, line, hopens, htext, hcloses, -⟩ := split_eq_some.mp h
    exact ⟨opening, yaml, line, body, hopens, htext, hcloses⟩
  · rcases split_cases raw with ⟨-, hnone⟩ | ⟨rest, yaml, body, hsplit, -, -⟩
    · have hopened : opened? (withoutMark raw) = some (before ++ line ++ after) := by
        refine opened?_eq_some.mpr ⟨opening, hopens, ?_⟩
        rw [htext]
        simp only [List.append_assoc]
      have hunclosed := (beforeFence?_eq_none _).mp (hnone _ hopened)
      exact absurd hcloses (hunclosed before line after rfl)
    · exact ⟨yaml, body, hsplit⟩

theorem withoutMark_of_opens {opening : List Char} (h : Opens opening) (rest : List Char) :
    withoutMark (opening ++ rest) = opening ++ rest := by
  cases h <;> rfl

end Split

/-- A text with both fences is split between the opening line and the first closing one, and nothing
is lost. Any other text is all body. -/
theorem split_fences (raw : List Char) :
    ((∃ yaml body, split raw = (some yaml, body)) ↔ HasFences (withoutMark raw)) ∧
      (∀ yaml body, split raw = (some yaml, body) ↔ Fenced (withoutMark raw) yaml body) ∧
      (¬ HasFences (withoutMark raw) → split raw = (none, withoutMark raw)) ∧
      ∀ opening yaml line body, Opens opening → Closes yaml line body → Unclosed yaml →
        split (opening ++ yaml ++ line ++ body) = (some yaml, body) := by
  refine ⟨exists_split_iff, fun _ _ => split_eq_some, fun hnone => ?_,
    fun opening yaml line body hopens hcloses hunclosed => ?_⟩
  · rcases split_cases raw with ⟨hsplit, -⟩ | ⟨_, yaml, body, hsplit, -, -⟩
    · exact hsplit
    · exact absurd (exists_split_iff.mp ⟨yaml, body, hsplit⟩) hnone
  · apply split_eq_some.mpr
    refine ⟨opening, line, hopens, ?_, hcloses, hunclosed⟩
    rw [List.append_assoc, List.append_assoc, withoutMark_of_opens hopens]

example : split "\ufeff---\na: 1\n----\n---\r\r\nrest\n---".toList =
    (some "a: 1\n----\n".toList, "rest\n---".toList) := by
  decide +kernel

end Slipbox.Document
