import Mathlib.Data.List.Nodup

/-! Lists in an order. A list can be sorted in one way only when its order tells all its members
apart, so the sorted list does not depend on where the members have stood. -/

namespace Slipbox

variable {α : Type} {le : α → α → Bool} {l l' : List α}

/-- Sorting needs an order only among the members of the list. -/
theorem pairwise_mergeSort_of_mem
    (htrans : ∀ a ∈ l, ∀ b ∈ l, ∀ c ∈ l, le a b = true → le b c = true → le a c = true)
    (htotal : ∀ a ∈ l, ∀ b ∈ l, (le a b || le b a) = true) :
    (l.mergeSort le).Pairwise fun a b => le a b = true := by
  have hmembers := @List.pairwise_mergeSort _ (fun a b : { a // a ∈ l } => le a b)
    (fun a b c => htrans a a.2 b b.2 c c.2) (fun a b => htotal a a.2 b b.2) l.attach
  have hsame : (l.attach.mergeSort fun a b => le a b).map Subtype.val = l.mergeSort le := by
    rw [List.map_mergeSort (s := le) fun _ _ _ _ => rfl, List.attach_map_subtype_val]
  rw [← hsame, List.pairwise_map]
  exact hmembers

theorem mergeSort_eq_of_perm (hperm : l.Perm l')
    (htrans : ∀ a ∈ l, ∀ b ∈ l, ∀ c ∈ l, le a b = true → le b c = true → le a c = true)
    (htotal : ∀ a ∈ l, ∀ b ∈ l, (le a b || le b a) = true)
    (hanti : ∀ a ∈ l, ∀ b ∈ l, le a b = true → le b a = true → a = b) :
    l.mergeSort le = l'.mergeSort le := by
  have hsorted := pairwise_mergeSort_of_mem htrans htotal
  have hsorted' : (l'.mergeSort le).Pairwise fun a b => le a b = true := by
    refine pairwise_mergeSort_of_mem ?_ ?_ <;> simpa only [← hperm.mem_iff]
  refine List.Perm.eq_of_pairwise (fun a b ha hb => ?_) hsorted hsorted'
    ((List.mergeSort_perm l le).trans (hperm.trans (List.mergeSort_perm l' le).symm))
  rw [List.mem_mergeSort] at ha hb
  exact hanti a ha b (hperm.mem_iff.mpr hb)

section Texts

/-! The order of texts tells all texts apart, so lists are sorted by a text that tells their members
apart. -/

variable (key : α → String)

theorem pairwise_mergeSort_text (l : List α) :
    (l.mergeSort fun a b => key a ≤ key b).Pairwise fun a b => key a ≤ key b := by
  refine (List.pairwise_mergeSort (fun a b c hab hbc => ?_) (fun a b => ?_) l).imp
    of_decide_eq_true
  · rw [decide_eq_true_eq] at *
    exact String.le_trans hab hbc
  · rw [Bool.or_eq_true, decide_eq_true_eq, decide_eq_true_eq]
    exact String.le_total (key a) (key b)

theorem mergeSort_text_eq_of_perm (hperm : l.Perm l')
    (hkey : ∀ a ∈ l, ∀ b ∈ l, key a = key b → a = b) :
    (l.mergeSort fun a b => key a ≤ key b) = l'.mergeSort fun a b => key a ≤ key b := by
  refine List.Perm.eq_of_pairwise (fun a b ha hb hab hba => ?_) (pairwise_mergeSort_text key l)
    (pairwise_mergeSort_text key l')
    ((List.mergeSort_perm l _).trans (hperm.trans (List.mergeSort_perm l' _).symm))
  rw [List.mem_mergeSort] at ha hb
  exact hkey a ha b (hperm.mem_iff.mpr hb) (String.le_antisymm hab hba)

end Texts

end Slipbox
