import Mathlib.Data.List.Nodup
import Slipbox.Index.Tags
import Slipbox.Proofs.Sorted

/-! What is fetched for many notes at once is what each note has, in the order of the texts, however
many batches it takes: a key stands in one batch only, and the answer to one request comes in the
order of its texts for each note. -/

namespace Slipbox

theorem flatten_batches {α : Type} (size : Nat) (l : List α) : (batches size l).flatten = l := by
  fun_induction batches size l with
  | case1 => rfl
  | case2 a rest ih => rw [List.flatten_cons, ih, List.cons_append, List.take_append_drop]

/-- The texts of a note among some rows, in order. -/
def sortedTexts (rows : List TextRow) (note : Nat) : List String :=
  ((rows.filter fun r => r.note == note).map TextRow.text).mergeSort fun a b => a ≤ b

namespace TagsByNote

theorem get_empty (note : Nat) : empty.get note = [] :=
  Std.HashMap.getD_empty

theorem get_enter (t : TagsByNote) (entry : Nat × String) (note : Nat) :
    (t.enter entry).get note = t.get note ++ if entry.1 = note then [entry.2] else [] := by
  rw [get, enter, Std.HashMap.getD_insert]
  by_cases hnote : entry.1 = note
  · subst hnote
    simp
  · simp [hnote, get]

theorem get_erase_of_ne {t : TagsByNote} {gone note : Nat} (h : gone ≠ note) :
    (t.erase gone).get note = t.get note := by
  rw [get, erase, Std.HashMap.getD_erase]
  simp [h, get]

theorem get_foldl_enter (t : TagsByNote) (entries : List (Nat × String)) (note : Nat) :
    (entries.foldl enter t).get note =
      t.get note ++ (entries.filter fun entry => entry.1 == note).map Prod.snd := by
  induction entries generalizing t with
  | nil => rw [List.foldl_nil, List.filter_nil, List.map_nil, List.append_nil]
  | cons entry entries ih =>
      rw [List.foldl_cons, ih, get_enter, List.append_assoc]
      by_cases hnote : entry.1 = note
      · rw [if_pos hnote, List.filter_cons_of_pos (by simpa using hnote), List.map_cons]
        rfl
      · rw [if_neg hnote, List.filter_cons_of_neg (by simpa using hnote), List.nil_append]

theorem request_pairwise (rows : List TextRow) (notes : List Nat) :
    (request rows notes).Pairwise fun a b => a.1 < b.1 ∨ a.1 = b.1 ∧ a.2 ≤ b.2 := by
  refine (List.pairwise_mergeSort (fun a b c => ?_) (fun a b => ?_) _).imp fun h => ?_
  · simp only [Bool.or_eq_true, Bool.and_eq_true, decide_eq_true_eq, beq_iff_eq]
    grind
  · simp only [Bool.or_eq_true, Bool.and_eq_true, decide_eq_true_eq, beq_iff_eq]
    grind
  · simpa using h

/-- The answer to a request has the texts of each note in order. -/
theorem texts_request {rows : List TextRow} {notes : List Nat} {note : Nat} (h : note ∈ notes) :
    ((request rows notes).filter fun entry => entry.1 == note).map Prod.snd =
      sortedTexts rows note := by
  have hsorted : (((request rows notes).filter fun entry => entry.1 == note).map
      Prod.snd).Pairwise (· ≤ ·) := by
    refine List.pairwise_map.mpr
      (((request_pairwise rows notes).sublist List.filter_sublist).imp_of_mem fun ha hb hab => ?_)
    have hfirst := List.of_mem_filter ha
    have hsecond := List.of_mem_filter hb
    rw [beq_iff_eq] at hfirst hsecond
    exact (hab.resolve_left (by omega)).2
  have hsame : (((rows.filter fun r => notes.contains r.note).map TextRow.entry).filter
      fun entry => entry.1 == note).map Prod.snd =
        (rows.filter fun r => r.note == note).map TextRow.text := by
    rw [List.filter_map, List.map_map, List.filter_filter]
    congr 1
    refine List.filter_congr fun r _ => ?_
    by_cases hnote : r.note = note <;> simp [TextRow.entry, hnote, h]
  have hperm : (((request rows notes).filter fun entry => entry.1 == note).map Prod.snd).Perm
      (sortedTexts rows note) := by
    refine (((List.mergeSort_perm _ _).filter _).map _).trans ?_
    rw [hsame]
    exact (List.mergeSort_perm _ _).symm
  exact hperm.eq_of_pairwise (fun _ _ _ _ => String.le_antisymm) hsorted
    (pairwise_mergeSort_text id _)

theorem texts_request_of_notMem {rows : List TextRow} {notes : List Nat} {note : Nat}
    (h : note ∉ notes) :
    ((request rows notes).filter fun entry => entry.1 == note).map Prod.snd = [] := by
  rw [List.map_eq_nil_iff, List.filter_eq_nil_iff]
  intro entry hentry
  rw [request, List.mem_mergeSort, List.mem_map] at hentry
  obtain ⟨r, hr, rfl⟩ := hentry
  have hnote : r.note ∈ notes := by simpa using List.of_mem_filter hr
  rw [beq_iff_eq]
  rintro rfl
  exact h hnote

/-- Batch by batch each note gets its texts when its key comes up, and nothing at other times. -/
theorem get_foldl_request (rows : List TextRow) (t : TagsByNote) {parts : List (List Nat)}
    (hnodup : parts.flatten.Nodup) (note : Nat) :
    (parts.foldl (fun t batch => (request rows batch).foldl enter t) t).get note =
      t.get note ++ if note ∈ parts.flatten then sortedTexts rows note else [] := by
  induction parts generalizing t with
  | nil => simp
  | cons batch parts ih =>
      rw [List.flatten_cons, List.nodup_append] at hnodup
      obtain ⟨-, hrest, hapart⟩ := hnodup
      rw [List.foldl_cons, ih _ hrest, get_foldl_enter, List.append_assoc, List.flatten_cons]
      by_cases hfirst : note ∈ batch
      · have hlater : note ∉ parts.flatten := fun hmem => hapart note hfirst note hmem rfl
        simp [texts_request hfirst, hfirst, hlater]
      · simp only [texts_request_of_notMem hfirst, List.nil_append, List.mem_append, hfirst,
          false_or]

/-- For notes with keys of their own the tags of each of them are fetched, in order. -/
theorem get_ofNotes (rows : List TextRow) {notes : List Nat} (hnodup : notes.Nodup) {note : Nat}
    (h : note ∈ notes) : (ofNotes rows notes).get note = sortedTexts rows note := by
  rw [ofNotes, get_foldl_request rows empty (by rwa [flatten_batches]), flatten_batches, if_pos h,
    get_empty, List.nil_append]

end TagsByNote

end Slipbox
