import Mathlib.Data.List.Basic

/-! What stands at each place of a list. A search from left to right that passes over what it has
matched is compared with this. -/

namespace Slipbox

variable {α β : Type} (here : Option α → List α → Option β)

/-- What `here` finds at the places of a list, each with its place. It is shown the member in front
and the list from the place on. -/
def findings (before : Option α) (place : Nat) : List α → List (Nat × β)
  | [] => []
  | c :: cs =>
    match here before (c :: cs) with
    | some found => (place, found) :: findings (some c) (place + 1) cs
    | none => findings (some c) (place + 1) cs

variable {here} {before : Option α} {place : Nat} {c : α} {cs : List α}

theorem findings_of_some {found : β} (h : here before (c :: cs) = some found) :
    findings here before place (c :: cs) =
      (place, found) :: findings here (some c) (place + 1) cs := by
  rw [findings, h]

theorem findings_of_none (h : here before (c :: cs) = none) :
    findings here before place (c :: cs) = findings here (some c) (place + 1) cs := by
  rw [findings, h]

/-- Nothing is found in a part of the list whose members are quiet and show nothing behind a quiet
one. -/
theorem findings_quiet (quiet : Option α → Prop) {part : List α}
    (hpart : ∀ c ∈ part, quiet (some c) ∧ ∀ before cs, quiet before → here before (c :: cs) = none)
    (before : Option α) (hbefore : quiet before) (place : Nat) (rest : List α) :
    ∃ before' place', quiet before' ∧
      findings here before place (part ++ rest) = findings here before' place' rest := by
  induction part generalizing before place with
  | nil => exact ⟨before, place, hbefore, rfl⟩
  | cons c part ih =>
      obtain ⟨hquiet, hnone⟩ := hpart c List.mem_cons_self
      obtain ⟨before', place', hbefore', hrest⟩ :=
        ih (fun d hd => hpart d (List.mem_cons_of_mem c hd)) (some c) hquiet (place + 1)
      refine ⟨before', place', hbefore', ?_⟩
      rw [List.cons_append, findings_of_none (hnone _ _ hbefore), hrest]

theorem getLast?_cons_or (c : α) (front : List α) (before : Option α) :
    (c :: front).getLast?.or before = front.getLast?.or (some c) := by
  rw [List.getLast?_cons]
  cases front.getLast? <;> rfl

theorem mem_findings {l : List α} {q : Nat} {found : β} :
    (q, found) ∈ findings here before place l ↔ ∃ front c back, l = front ++ c :: back ∧
      q = place + front.length ∧ here (front.getLast?.or before) (c :: back) = some found := by
  induction l generalizing before place with
  | nil => simp [findings]
  | cons c cs ih =>
      have hmem : (q, found) ∈ findings here before place (c :: cs) ↔
          (q = place ∧ here before (c :: cs) = some found) ∨
            (q, found) ∈ findings here (some c) (place + 1) cs := by
        cases hhere : here before (c :: cs) with
        | none => simp [findings_of_none hhere]
        | some found' => simp [findings_of_some hhere, eq_comm]
      rw [hmem, ih]
      have hplace (n : Nat) : place + (n + 1) = place + 1 + n := by omega
      refine ⟨fun h => ?_, fun ⟨front, d, back, hsplit, hq, hfound⟩ => ?_⟩
      · rcases h with ⟨hq, hfound⟩ | ⟨front, d, back, rfl, hq, hfound⟩
        · exact ⟨[], c, cs, rfl, hq, hfound⟩
        · refine ⟨c :: front, d, back, rfl, hq.trans (hplace _).symm, ?_⟩
          rw [getLast?_cons_or]
          exact hfound
      · cases front with
        | nil =>
            cases hsplit
            exact .inl ⟨hq, hfound⟩
        | cons x front =>
            cases hsplit
            rw [getLast?_cons_or] at hfound
            exact .inr ⟨front, d, back, rfl, hq.trans (hplace _), hfound⟩

theorem le_of_mem_findings {l : List α} {s : Nat × β}
    (h : s ∈ findings here before place l) : place ≤ s.1 := by
  obtain ⟨q, found⟩ := s
  obtain ⟨front, _, _, _, hq, _⟩ := mem_findings.mp h
  exact hq ▸ Nat.le_add_right place front.length

theorem findings_increasing (l : List α) :
    (findings here before place l).Pairwise fun s t => s.1 < t.1 := by
  induction l generalizing before place with
  | nil => exact .nil
  | cons c cs ih =>
      cases hhere : here before (c :: cs) with
      | none =>
          rw [findings_of_none hhere]
          exact ih
      | some found =>
          rw [findings_of_some hhere]
          exact List.pairwise_cons.mpr ⟨fun s hs => le_of_mem_findings hs, ih⟩

end Slipbox
