import Slipbox.Proofs.Text.Sigma

/-! The parts of a text: what it begins with, what is left of it without outer white space, and its
pieces between separators. -/

namespace Slipbox

/-- A run of characters stops where the text does not go on with one. -/
theorem takeWhile_run {α : Type} {p : α → Bool} {run rest : List α} (hrun : ∀ c ∈ run, p c = true)
    (hrest : ∀ c ∈ rest.head?, p c = false) :
    (run ++ rest).takeWhile p = run ∧ (run ++ rest).dropWhile p = rest := by
  rw [List.takeWhile_append_of_pos hrun, List.dropWhile_append_of_pos hrun]
  cases rest with
  | nil => exact ⟨List.append_nil run, rfl⟩
  | cons c rest =>
      have hc := hrest c rfl
      rw [List.takeWhile_cons_of_neg (by simp [hc]), List.dropWhile_cons_of_neg (by simp [hc])]
      exact ⟨List.append_nil run, rfl⟩

/-- What follows the run at the start of a text does not go on with it. -/
theorem of_mem_head?_dropWhile {α : Type} {p : α → Bool} {l : List α} {c : α}
    (h : c ∈ (l.dropWhile p).head?) : p c = false := by
  have hstop := List.head?_dropWhile_not p l
  rw [h] at hstop
  exact hstop

/-- What is left of a list without the copies of a member that it begins with. -/
theorem dropWhile_beq_eq_iff {α : Type} [BEq α] [LawfulBEq α] {a : α} {l rest : List α} :
    l.dropWhile (· == a) = rest ↔ ∃ n, l = List.replicate n a ++ rest ∧ rest.head? ≠ some a := by
  refine ⟨fun h => ⟨(l.takeWhile (· == a)).length, ?_, ?_⟩, fun ⟨n, hl, hhead⟩ => ?_⟩
  · have hcopies : l.takeWhile (· == a) = List.replicate (l.takeWhile (· == a)).length a := by
      apply List.eq_replicate_of_mem
      intro b hb
      have hsame := List.mem_takeWhile_imp hb
      exact eq_of_beq hsame
    rw [← hcopies, ← h, List.takeWhile_append_dropWhile]
  · intro hhead
    rw [← h] at hhead
    have hstop := of_mem_head?_dropWhile (p := (· == a)) hhead
    rw [beq_self_eq_true] at hstop
    cases hstop
  · rw [hl]
    apply (takeWhile_run _ _).2
    · exact fun b hb => beq_iff_eq.mpr (List.eq_of_mem_replicate hb)
    · intro b hb
      rw [beq_eq_false_iff_ne]
      rintro rfl
      exact hhead hb

namespace Text

theorem after?_eq_some {head text rest : List Char} :
    after? head text = some rest ↔ text = head ++ rest := by
  induction head generalizing text with
  | nil => simp [after?, eq_comm]
  | cons h hs ih =>
      cases text with
      | nil => simp [after?]
      | cons c cs =>
          rw [after?, List.cons_append, List.cons.injEq]
          split
          · next hsame => rw [ih, and_iff_right hsame.symm]
          · next hne => exact iff_of_false (by simp) fun h => hne h.1.symm

/-- The core is what is left of a text without the white space at its two ends. -/
structure Trimmed (text core : List Char) : Prop where
  cut : ∃ front back, text = front ++ core ++ back ∧ (∀ c ∈ front, isBlank c = true) ∧
    ∀ c ∈ back, isBlank c = true
  head : ∀ c ∈ core.head?, isBlank c = false
  last : ∀ c ∈ core.getLast?, isBlank c = false

theorem trim_of_no_blank {text : List Char} (h : ∀ c ∈ text, isBlank c = false) :
    trim text = text :=
  trim_eq_self.mpr
    ⟨fun c hc => h c (List.mem_of_mem_head? hc), fun c hc => h c (List.mem_of_mem_getLast? hc)⟩

theorem trim_trim (text : List Char) : trim (trim text) = trim text := by
  have hend : trimEnd (trim text) = trim text := List.rdropWhile_idempotent isBlank _
  have hstart : trimStart (trim text) = trim text := by
    rw [trimStart_eq_self]
    intro c hc
    obtain ⟨back, hback⟩ : trim text <+: trimStart text := List.rdropWhile_prefix isBlank _
    have hhead : c ∈ (trimStart text).head? := by
      rw [← hback, List.head?_append, hc]
      rfl
    exact trimStart_eq_self.mp (List.dropWhile_idempotent isBlank text) c hhead
  rw [trim, hstart, hend]

theorem trimmed_trim (text : List Char) : Trimmed text (trim text) := by
  obtain ⟨hhead, hlast⟩ := trim_eq_self.mp (trim_trim text)
  refine ⟨⟨text.takeWhile isBlank, (trimStart text).rtakeWhile isBlank, ?_, ?_, ?_⟩, hhead, hlast⟩
  · rw [List.append_assoc]
    have hback : trim text ++ (trimStart text).rtakeWhile isBlank = trimStart text :=
      List.rdropWhile_append_rtakeWhile
    rw [hback]
    exact List.takeWhile_append_dropWhile.symm
  · exact fun c hc => List.mem_takeWhile_imp hc
  · exact fun c hc => List.mem_rtakeWhile_imp hc

theorem Trimmed.eq {text core : List Char} (h : Trimmed text core) : trim text = core := by
  obtain ⟨⟨front, back, rfl, hfront, hback⟩, hhead, hlast⟩ := h
  have hstart : trimStart (front ++ core ++ back) = trimStart (core ++ back) := by
    rw [List.append_assoc]
    exact List.dropWhile_append_of_pos hfront
  have hend (cs : List Char) : trimEnd (cs ++ back) = trimEnd cs := by
    rw [trimEnd, List.reverse_append, List.dropWhile_append_of_pos, trimEnd]
    exact fun c hc => hback c (List.mem_reverse.mp hc)
  cases core with
  | nil =>
      have hnil : trimStart ([] ++ back) = [] := by
        rw [trimStart, List.dropWhile_eq_nil_iff]
        exact hback
      rw [trim, hstart, hnil]
      rfl
  | cons c core =>
      have hkept : trimStart (c :: core ++ back) = c :: core ++ back :=
        trimStart_eq_self.mpr hhead
      have hcore : trim (c :: core) = c :: core := trim_eq_self.mpr ⟨hhead, hlast⟩
      rw [trim, trimStart_eq_self.mpr hhead] at hcore
      rw [trim, hstart, hkept, hend, hcore]

theorem trimmed_iff {text core : List Char} : Trimmed text core ↔ trim text = core :=
  ⟨Trimmed.eq, fun h => h ▸ trimmed_trim text⟩

/-- The pieces of a list are those of the library. -/
theorem pieces_eq_splitOnP {α : Type} (p : α → Bool) (l : List α) : pieces p l = l.splitOnP p := by
  induction l with
  | nil => rfl
  | cons a l ih =>
      rw [pieces, ih, List.splitOnP_cons_eq_if_modifyHead]
      cases hpieces : l.splitOnP p with
      | nil => exact absurd hpieces (List.splitOnP_ne_nil p l)
      | cons piece rest => rfl

end Text

end Slipbox
