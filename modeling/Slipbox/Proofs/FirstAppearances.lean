import Mathlib.Data.List.Nodup
import Mathlib.Order.Basic

/-! What stands at the places of an order, taken once each. Things count as one when they have the
same key; of these the one at the first place stays. -/

namespace Slipbox

variable {P α κ : Type}

/-- The list has one member for each key of what stands at the places: the one that stands there
first. The members follow each other as their first places do. -/
structure FirstAppearances [Preorder P] (key : α → κ) (stands : P → α → Prop) (l : List α) :
    Prop where
  distinct : l.Pairwise fun a b => key a ≠ key b
  first : ∀ a ∈ l, ∃ p, stands p a ∧ ∀ q b, stands q b → key b = key a → p ≤ q
  covers : ∀ p a, stands p a → ∃ b ∈ l, key b = key a
  ordered : l.Pairwise fun a b => ∃ p, stands p a ∧ ∀ q c, stands q c → key c = key b → p < q

section Firsts

variable [DecidableEq κ] (key : α → κ)

/-- The members whose key no earlier one has. -/
def firsts : List α → List α
  | [] => []
  | a :: l => a :: (firsts l).filter fun b => key b ≠ key a

variable {key}

theorem mem_of_mem_firsts {l : List α} {a : α} (h : a ∈ firsts key l) : a ∈ l := by
  induction l with
  | nil => exact h
  | cons b l ih =>
      rcases List.mem_cons.mp h with rfl | h
      · exact List.mem_cons_self
      · exact List.mem_cons_of_mem b (ih (List.mem_filter.mp h).1)

theorem firsts_of_distinct {l : List α} (h : l.Pairwise fun a b => key a ≠ key b) :
    firsts key l = l := by
  induction l with
  | nil => rfl
  | cons a l ih =>
      obtain ⟨hne, hrest⟩ := List.pairwise_cons.mp h
      rw [firsts, ih hrest, List.filter_eq_self.mpr]
      exact fun b hb => decide_eq_true (Ne.symm (hne b hb))

/-- Of a second list what the first one has not got comes behind. -/
theorem firsts_append (l l' : List α) : firsts key (l ++ l') =
    firsts key l ++ (firsts key l').filter fun b => ∀ a ∈ l, key b ≠ key a := by
  induction l with
  | nil => simp [firsts]
  | cons a l ih =>
      rw [List.cons_append, firsts, firsts, ih, List.filter_append, List.cons_append,
        List.filter_filter]
      congr 3
      funext b
      simp

/-- Nothing is added by what the list already has. -/
theorem firsts_append_of_covered {l l' : List α} (hdistinct : l.Pairwise fun a b => key a ≠ key b)
    (hcovered : ∀ b ∈ l', ∃ a ∈ l, key a = key b) : firsts key (l ++ l') = l := by
  have hnone : (firsts key l').filter (fun b => ∀ a ∈ l, key b ≠ key a) = [] := by
    rw [List.filter_eq_nil_iff]
    intro b hb hnew
    obtain ⟨a, ha, hsame⟩ := hcovered b (mem_of_mem_firsts hb)
    exact of_decide_eq_true hnew a ha hsame.symm
  rw [firsts_append, hnone, List.append_nil, firsts_of_distinct hdistinct]

/-- Something at a place in front of all others takes the place of what has its key. -/
theorem FirstAppearances.cons [Preorder P] {stands : P → α → Prop} {l : List α} {p : P} {a : α}
    (h : FirstAppearances key stands l) (hbefore : ∀ q b, stands q b → p < q) :
    FirstAppearances key (fun q b => (q, b) = (p, a) ∨ stands q b)
      (a :: l.filter fun b => key b ≠ key a) := by
  have hkept {b : α} (hb : b ∈ l.filter fun b => key b ≠ key a) : b ∈ l ∧ key b ≠ key a :=
    ⟨(List.mem_filter.mp hb).1, of_decide_eq_true (List.mem_filter.mp hb).2⟩
  -- What has another key than the new one stands where it has stood before.
  have hothers {q : P} {c : α} (hstands : (q, c) = (p, a) ∨ stands q c) (hne : key c ≠ key a) :
      stands q c :=
    hstands.resolve_left fun hsame => hne (by rw [(Prod.mk.inj hsame).2])
  refine ⟨?_, ?_, ?_, ?_⟩
  · exact List.pairwise_cons.mpr ⟨fun b hb => (hkept hb).2.symm, h.distinct.filter _⟩
  · intro b hb
    by_cases hnew : b = a
    · subst hnew
      refine ⟨p, .inl rfl, fun q c hstands _ => ?_⟩
      rcases hstands with hsame | hstands
      · rw [(Prod.mk.inj hsame).1]
      · exact le_of_lt (hbefore q c hstands)
    · obtain ⟨hmem, hne⟩ := hkept ((List.mem_cons.mp hb).resolve_left hnew)
      obtain ⟨q, hq, hleast⟩ := h.first b hmem
      exact ⟨q, .inr hq, fun q' c hstands hsame => hleast q' c (hothers hstands (hsame ▸ hne)) hsame⟩
  · intro q b hstands
    by_cases hsame : key a = key b
    · exact ⟨a, List.mem_cons_self, hsame⟩
    · obtain ⟨c, hc, hkey⟩ := h.covers q b (hothers hstands (Ne.symm hsame))
      have hne : key c ≠ key a := fun h => hsame (h.symm.trans hkey)
      exact ⟨c, List.mem_cons_of_mem a (List.mem_filter.mpr ⟨hc, decide_eq_true hne⟩), hkey⟩
  · apply List.pairwise_cons.mpr
    refine ⟨fun b hb => ⟨p, .inl rfl, fun q c hstands hsame => ?_⟩, ?_⟩
    · exact hbefore q c (hothers hstands (hsame ▸ (hkept hb).2))
    · apply (h.ordered.filter _).imp_of_mem
      intro b c _ hc ⟨q, hq, hleast⟩
      exact ⟨q, .inr hq, fun q' d hstands hsame =>
        hleast q' d (hothers hstands (hsame ▸ (hkept hc).2)) hsame⟩

/-- When things are listed with their places in order, the first members of the list are the first
appearances. -/
theorem firstAppearances_firsts [Preorder P] {placed : List (P × α)}
    (hplaces : placed.Pairwise fun s t => s.1 < t.1) :
    FirstAppearances key (fun p a => (p, a) ∈ placed) (firsts key (placed.map Prod.snd)) := by
  induction placed with
  | nil =>
      refine ⟨.nil, ?_, ?_, .nil⟩
      · intro a ha
        cases ha
      · intro p a ha
        cases ha
  | cons s placed ih =>
      obtain ⟨p, a⟩ := s
      obtain ⟨hbefore, hrest⟩ := List.pairwise_cons.mp hplaces
      have hcons := (ih hrest).cons (a := a) fun q b hstands => hbefore (q, b) hstands
      simpa only [List.mem_cons, List.map_cons, firsts] using hcons

/-- A condition that sees the key only may be put first. -/
theorem firsts_filter {keep : α → Bool} (hkeep : ∀ a b, key a = key b → keep a = keep b)
    (l : List α) : firsts key (l.filter keep) = (firsts key l).filter keep := by
  induction l with
  | nil => rfl
  | cons a l ih =>
      by_cases ha : keep a = true
      · rw [List.filter_cons_of_pos ha, firsts, firsts, List.filter_cons_of_pos ha, ih,
          List.filter_comm]
      · rw [List.filter_cons_of_neg ha, firsts, List.filter_cons_of_neg ha, ih, List.filter_filter]
        apply List.filter_congr
        intro b _
        by_cases hb : keep b = true
        · have hne : key b ≠ key a := fun hsame => ha (hkeep b a hsame ▸ hb)
          simp [hb, hne]
        · simp [hb]

end Firsts

theorem eraseDups_eq_firsts [DecidableEq α] : (l : List α) → l.eraseDups = firsts id l
  | [] => rfl
  | a :: l => by
      have hfilter : l.filter (fun b => !b == a) = l.filter fun b => id b ≠ id a := by
        apply List.filter_congr
        intro b _
        by_cases hsame : b = a <;> simp [hsame]
      rw [List.eraseDups_cons, eraseDups_eq_firsts, hfilter, firsts_filter, firsts]
      intro b c hsame
      rw [hsame]
termination_by l => l.length
decreasing_by exact Nat.lt_succ_of_le (List.length_filter_le _ _)

end Slipbox
