import Slipbox.Document.Basic
import Slipbox.Proofs.FirstAppearances
import Slipbox.Proofs.Places
import Slipbox.Proofs.Text.Trimming

/-! The links of a document. The search passes over what it has matched. Since no bracket stands
within a link, nothing that it passes over is a link of its own, and the links that it finds are all
there are. -/

namespace Slipbox.Document

open Text

/-- Double brackets around a text without brackets stand at the place. -/
structure BracketsAt (body : List Char) (place : Nat) (inner : List Char) : Prop where
  stands : ∃ front back, front.length = place ∧
    body = front ++ ("[[".toList ++ inner ++ "]]".toList ++ back)
  inner_ne : inner ≠ []
  plain : ∀ c ∈ inner, c ≠ '[' ∧ c ≠ ']'

/-- The target is what stands between the brackets before the first bar and the first hash sign,
without outer white space. -/
def Targets (inner target : List Char) : Prop :=
  ∃ stem rest, inner = stem ++ rest ∧ (∀ c ∈ stem, c ≠ '|' ∧ c ≠ '#') ∧
    (∀ c ∈ rest.head?, c = '|' ∨ c = '#') ∧ Trimmed stem target

/-- A link to the target stands at the place. -/
def LinkAt (body : List Char) (place : Nat) (t : String) : Prop :=
  t ≠ "" ∧ ∃ inner, BracketsAt body place inner ∧ Targets inner t.toList

section Brackets

variable {c : Char} {cs text inner : List Char}

theorem isInner_iff : isInner c = true ↔ c ≠ '[' ∧ c ≠ ']' := by
  simp [isInner]

theorem inner?_of_ne (h : c ≠ '[') : inner? (c :: cs) = none := by
  unfold inner?
  split
  · next heq => exact absurd (List.cons.inj heq).1 h
  · rfl

theorem inner?_of_second_ne (h : c ≠ '[') : inner? ('[' :: c :: cs) = none := by
  unfold inner?
  split
  · next heq => exact absurd (List.cons.inj (List.cons.inj heq).2).1 h
  · rfl

theorem inner?_eq_some : inner? text = some inner ↔ inner ≠ [] ∧
    (∀ c ∈ inner, isInner c = true) ∧ ∃ back, text = '[' :: '[' :: (inner ++ ']' :: ']' :: back) := by
  refine ⟨fun h => ?_, fun ⟨hne, hplain, back, htext⟩ => ?_⟩
  · unfold inner? at h
    split at h
    · next cs =>
      dsimp only at h
      split at h
      · next back hback =>
        split at h
        · cases h
        · next hne =>
          cases h
          refine ⟨by simpa using hne, fun c hc => List.mem_takeWhile_imp hc, back, ?_⟩
          rw [← hback, List.takeWhile_append_dropWhile]
      · cases h
    · cases h
  · have hclose : ∀ c ∈ (']' :: ']' :: back).head?, isInner c = false := by
      rintro _ ⟨⟩
      rfl
    obtain ⟨htake, hdrop⟩ := takeWhile_run hplain hclose
    rw [htext, inner?, htake, hdrop]
    simp [hne]

/-- What stands in double brackets at the places of a text. -/
abbrev innerHere (_ : Option Char) (text : List Char) : Option (List Char) :=
  inner? text

/-- Nothing is found in what a link takes behind its first bracket. -/
theorem findings_brackets (h : inner? text = some inner) (before : Option Char) (place : Nat) :
    ∃ before' place', findings innerHere before place text =
      (place, inner) :: findings innerHere before' place' (text.drop (inner.length + 4)) := by
  obtain ⟨hne, hplain, back, htext⟩ := inner?_eq_some.mp h
  obtain ⟨x, xs, hx⟩ := List.exists_cons_of_ne_nil hne
  have hsecond : x ≠ '[' := (isInner_iff.mp (hplain x (hx ▸ List.mem_cons_self))).1
  have hpart : ∀ c ∈ inner ++ "]]".toList, True ∧ ∀ (before : Option Char) cs, True →
      innerHere before (c :: cs) = none := by
    intro c hc
    refine ⟨trivial, fun _ _ _ => inner?_of_ne ?_⟩
    rcases List.mem_append.mp hc with hc | hc
    · exact (isInner_iff.mp (hplain c hc)).1
    · obtain rfl : c = ']' := by simpa using hc
      decide
  obtain ⟨before', place', _, hfindings⟩ :=
    findings_quiet (fun _ => True) hpart (some '[') trivial (place + 2) back
  refine ⟨before', place', ?_⟩
  have hrest : text.drop (inner.length + 4) = back := by
    have hcut : text = ("[[".toList ++ (inner ++ "]]".toList)) ++ back := by
      rw [htext]
      simp
    rw [hcut]
    exact List.drop_left' (by simp)
  have hclose : inner ++ ']' :: ']' :: back = inner ++ "]]".toList ++ back := by simp
  have hnone : innerHere (some '[') ('[' :: (inner ++ ']' :: ']' :: back)) = none := by
    rw [hx]
    exact inner?_of_second_ne hsecond
  rw [hrest, htext, findings_of_some (htext ▸ h), findings_of_none hnone, hclose, hfindings]

theorem linkPattern_bang (atStart : Bool) (cs : List Char) :
    linkPattern.match? atStart ('!' :: cs) =
      (inner? cs).map fun inner => ⟨inner, inner.length + 5⟩ := rfl

theorem linkPattern_of_ne (atStart : Bool) (h : c ≠ '!') (cs : List Char) :
    linkPattern.match? atStart (c :: cs) =
      (inner? (c :: cs)).map fun inner => ⟨inner, inner.length + 4⟩ := by
  unfold linkPattern
  dsimp only
  split
  · next heq => exact absurd (List.cons.inj heq).1 h
  · rfl

/-- The search for links leaves nothing out that stands in double brackets. -/
theorem linkPattern_partsFrom (atStart : Bool) (before : Option Char) (place : Nat)
    (text : List Char) : linkPattern.partsFrom atStart 0 text =
      (findings innerHere before place text).map Prod.snd := by
  induction hlength : text.length using Nat.strong_induction_on
    generalizing atStart before place text with
  | h n ih =>
      cases text with
      | nil => rfl
      | cons c cs =>
          have hbehind (k : Nat) (before : Option Char) (place : Nat) :
              linkPattern.partsFrom false 0 (cs.drop k) =
                (findings innerHere before place (cs.drop k)).map Prod.snd := by
            refine ih (cs.drop k).length ?_ false before place (cs.drop k) rfl
            rw [← hlength, List.length_cons, List.length_drop]
            omega
          by_cases hbang : c = '!'
          · subst hbang
            have hmatch := linkPattern_bang atStart cs
            rw [findings_of_none (inner?_of_ne (by decide))]
            cases hinner : inner? cs with
            | none =>
                rw [hinner] at hmatch
                rw [linkPattern.partsFrom_of_none hmatch]
                exact hbehind 0 _ _
            | some inner =>
                rw [hinner] at hmatch
                obtain ⟨before', place', hfindings⟩ := findings_brackets hinner (some '!') (place + 1)
                rw [linkPattern.partsFrom_of_some hmatch (Nat.succ_pos _) rfl, hfindings,
                  List.map_cons, List.drop_succ_cons, hbehind]
          · have hmatch := linkPattern_of_ne atStart hbang cs
            cases hinner : inner? (c :: cs) with
            | none =>
                rw [hinner] at hmatch
                rw [linkPattern.partsFrom_of_none hmatch, findings_of_none hinner]
                exact hbehind 0 _ _
            | some inner =>
                rw [hinner] at hmatch
                obtain ⟨before', place', hfindings⟩ := findings_brackets hinner before place
                rw [linkPattern.partsFrom_of_some hmatch (Nat.succ_pos _) rfl, hfindings,
                  List.map_cons, List.drop_succ_cons, hbehind]

end Brackets

variable {body inner : List Char}

theorem mem_findings_innerHere {place : Nat} :
    (place, inner) ∈ findings innerHere none 0 body ↔ BracketsAt body place inner := by
  rw [mem_findings]
  refine ⟨fun ⟨front, c, back, hbody, hplace, hinner⟩ => ?_, fun ⟨⟨front, back, hplace, hbody⟩, hne,
    hplain⟩ => ?_⟩
  · obtain ⟨hne, hplain, rest, htext⟩ := inner?_eq_some.mp hinner
    refine ⟨⟨front, rest, by omega, ?_⟩, hne, fun c hc => isInner_iff.mp (hplain c hc)⟩
    rw [hbody, htext]
    simp
  · refine ⟨front, '[', '[' :: (inner ++ ']' :: ']' :: back), ?_, by omega, ?_⟩
    · rw [hbody]
      simp
    · exact inner?_eq_some.mpr ⟨hne, fun c hc => isInner_iff.mpr (hplain c hc), back, rfl⟩

theorem targets_iff {t : List Char} : Targets inner t ↔ target inner = t := by
  let isStem (c : Char) : Bool := c ≠ '#' ∧ c ≠ '|'
  have hstem : (inner.takeWhile (· != '|')).takeWhile (· != '#') = inner.takeWhile isStem := by
    rw [List.takeWhile_takeWhile]
    congr 1
    funext c
    simp [isStem]
  have hiff (c : Char) : isStem c = true ↔ c ≠ '|' ∧ c ≠ '#' := by
    rw [and_comm]
    exact decide_eq_true_iff
  rw [target, hstem, ← trimmed_iff]
  refine ⟨fun ⟨stem, rest, hinner, hplain, hrest, htrim⟩ => ?_, fun htrim =>
    ⟨inner.takeWhile isStem, inner.dropWhile isStem, ?_, ?_, ?_, htrim⟩⟩
  · have hstop : ∀ c ∈ rest.head?, isStem c = false := by
      intro c hc
      rw [← Bool.not_eq_true, hiff, not_and_or, not_not, not_not]
      exact hrest c hc
    rw [hinner, (takeWhile_run (fun c hc => (hiff c).mpr (hplain c hc)) hstop).1]
    exact htrim
  · exact List.takeWhile_append_dropWhile.symm
  · exact fun c hc => (hiff c).mp (List.mem_takeWhile_imp hc)
  · intro c hc
    have hstop := of_mem_head?_dropWhile hc
    rwa [← Bool.not_eq_true, hiff, not_and_or, not_not, not_not] at hstop

/-- The targets of a text that are not empty, with the places of their links. -/
def placedTargets (body : List Char) : List (Nat × String) :=
  (((findings innerHere none 0 body).map fun s => (s.1, target s.2)).filter
    fun s => !s.2.isEmpty).map fun s => (s.1, String.ofList s.2)

theorem mem_placedTargets {place : Nat} {t : String} :
    (place, t) ∈ placedTargets body ↔ LinkAt body place t := by
  have hempty (cs : List Char) : (!cs.isEmpty) = true ↔ String.ofList cs ≠ "" := by
    rw [Bool.not_eq_true', ← Bool.not_eq_true, List.isEmpty_iff, Ne, String.ofList_eq_empty_iff]
  simp only [placedTargets, List.mem_map, List.mem_filter, Prod.mk.injEq, Prod.exists, hempty]
  refine ⟨?_, fun ⟨hne, inner, hbrackets, htarget⟩ => ?_⟩
  · intro ⟨_, cs, ⟨⟨_, inner, hfound, hplace, htarget⟩, hne⟩, hplace', htext⟩
    subst hplace hplace' htext
    refine ⟨hne, inner, mem_findings_innerHere.mp hfound, targets_iff.mpr ?_⟩
    rw [String.toList_ofList]
    exact htarget
  · refine ⟨place, t.toList, ⟨⟨place, inner, mem_findings_innerHere.mpr hbrackets, rfl,
      targets_iff.mp htarget⟩, ?_⟩, rfl, String.ofList_toList⟩
    rw [String.ofList_toList]
    exact hne

theorem links_eq (body : List Char) : links body = firsts id ((placedTargets body).map Prod.snd) := by
  rw [links, eraseDups_eq_firsts, Text.Pattern.parts, linkPattern_partsFrom true none 0,
    placedTargets]
  simp only [List.map_map, List.filter_map, Function.comp_def]

/-- The links of a document are the first appearances of the targets in its body. -/
theorem firstAppearances_links (body : List Char) :
    FirstAppearances id (LinkAt body) (links body) := by
  have hplaces : (placedTargets body).Pairwise fun s t => s.1 < t.1 := by
    rw [placedTargets, List.pairwise_map]
    apply List.Pairwise.filter
    rw [List.pairwise_map]
    exact findings_increasing body
  have hstands : (fun place t => (place, t) ∈ placedTargets body) = LinkAt body := by
    funext place t
    exact propext mem_placedTargets
  rw [links_eq, ← hstands]
  exact firstAppearances_firsts hplaces

theorem Targets.plain {t : List Char} (hinner : ∀ c ∈ inner, c ≠ '[' ∧ c ≠ ']')
    (h : Targets inner t) : ∀ c ∈ t, c ≠ '[' ∧ c ≠ ']' ∧ c ≠ '|' ∧ c ≠ '#' := by
  obtain ⟨stem, rest, rfl, hstem, -, ⟨⟨front, back, rfl, -, -⟩, -, -⟩⟩ := h
  intro c hc
  have hmem : c ∈ front ++ t ++ back := by simp [hc]
  obtain ⟨hopen, hclose⟩ := hinner c (List.mem_append_left rest hmem)
  exact ⟨hopen, hclose, hstem c hmem⟩

/-- A document links to each target of double brackets in its body, wherever they stand, once and in
the order of first appearance. -/
theorem linkTargets_complete (d : Document) :
    FirstAppearances id (LinkAt d.body.toList) d.linkTargets ∧
      ∀ t ∈ d.linkTargets, ∀ c ∈ t.toList, c ≠ '[' ∧ c ≠ ']' ∧ c ≠ '|' ∧ c ≠ '#' := by
  have hfirst := firstAppearances_links d.body.toList
  refine ⟨hfirst, fun t ht => ?_⟩
  obtain ⟨place, ⟨-, inner, hbrackets, htarget⟩, -⟩ := hfirst.first t ht
  exact htarget.plain hbrackets.plain

example : links "![[a]] [[[b|c]]][[ a #x]][[d\ne]]".toList = ["a", "b", "d\ne"] := by
  decide +kernel

end Slipbox.Document
