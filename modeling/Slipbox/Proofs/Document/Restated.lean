import Slipbox.Proofs.Decimal.Characters
import Slipbox.Proofs.Document.Tags

/-! Documents that state the tags of another one over the same body. A stated text has no white space
at its ends, but behind its hash signs it may have some, and then the tag begins with it. Stated in
its turn such a tag is trimmed, so it can come back only from a longer one of the kind. -/

namespace Slipbox.Document

open Text

/-- The document has the body of the other one and states the other one's tags. -/
structure Restates (d' d : Document) : Prop where
  body : d'.body = d.body
  tags : property? d'.metadata "tags" = some (.array (d.tags.map .string))

/-- The document with its tags for all properties. -/
def restated (d : Document) : Document :=
  { d with metadata := [("tags", .array (d.tags.map .string))] }

theorem restates_restated (d : Document) : Restates d.restated d :=
  ⟨rfl, rfl⟩

/-- White space stands behind the hash signs with which the text begins, if with any. -/
def BlankBehindHashes (text : String) : Prop :=
  ∃ n c rest, text.toList = List.replicate n '#' ++ c :: rest ∧ isBlank c = true

/-- The text begins with white space. -/
def BeginsBlank (text : String) : Prop :=
  ∃ c ∈ text.toList.head?, isBlank c = true

theorem isBlank_of_isNumeric {c : Char} (h : Decimal.IsNumeric c) : isBlank c = false := by
  rcases h with h | rfl | rfl | rfl
  · apply isBlank_of_isTagChar
    simp [isTagChar, Char.isAlphanum, h]
  all_goals rfl

/-- The text of a scalar has no white space at its ends. -/
theorem trim_scalarText? {v : Json} {text : String} (h : scalarText? v = some text) :
    trim text.toList = text.toList := by
  match v with
  | .string s =>
      cases h
      rw [onChars, String.toList_ofList, trim_trim]
  | .int n =>
      cases h
      exact trim_of_no_blank fun c hc => isBlank_of_isNumeric (Decimal.isNumeric_toString n c hc)
  | .double x =>
      exact trim_of_no_blank fun c hc => isBlank_of_isNumeric (Decimal.isNumeric_json? h c hc)
  | .bool b =>
      cases h
      cases b <;> rfl

section Tags

variable {d d' : Document}

theorem StatedAt.trim_eq {i : Nat} {text : String} (h : StatedAt d i text) :
    trim text.toList = text.toList := by
  cases h with
  | item _ _ htext => exact trim_scalarText? htext
  | piece _ _ htrim => rw [← htrim.eq, trim_trim]

theorem beginsBlank_iff {text : String} :
    ¬ BeginsBlank text ↔ ∀ c ∈ text.toList.head?, isBlank c = false := by
  simp [BeginsBlank]

theorem beginsBlank_congr {s t : String} (h : lowercase s = lowercase t) :
    BeginsBlank s ↔ BeginsBlank t := by
  have hlower : lower s.toList = lower t.toList := String.ofList_injective h
  rw [← not_iff_not, beginsBlank_iff, beginsBlank_iff, ← isBlank_head?_lower, hlower,
    isBlank_head?_lower]

/-- White space can stand at the beginning of a tag only. -/
theorem TagAt.trim_eq {place : Nat ⊕ₗ Nat} {tag : String} (h : TagAt d place tag)
    (hhead : ¬ BeginsBlank tag) : trim tag.toList = tag.toList := by
  cases h with
  | stated hstated htext _ hne =>
      refine trim_eq_self.mpr ⟨beginsBlank_iff.mp hhead, ?_⟩
      have hlast := (trim_eq_self.mp hstated.trim_eq).2
      rw [htext, List.getLast?_append_of_ne_nil _ (String.toList_eq_nil_iff.not.mpr hne)] at hlast
      exact hlast
  | inline hinline =>
      exact trim_of_no_blank fun c hc => isBlank_of_isTagChar (hinline.plain c hc)

/-- Only behind hash signs can a tag begin with white space. -/
theorem TagAt.exists_hashes {place : Nat ⊕ₗ Nat} {tag : String} (h : TagAt d place tag)
    (hhead : BeginsBlank tag) :
    ∃ i n text, StatedAt d i text ∧ text.toList = List.replicate n '#' ++ tag.toList := by
  cases h with
  | stated hstated htext => exact ⟨_, _, _, hstated, htext⟩
  | inline hinline =>
      obtain ⟨c, hc, hblank⟩ := hhead
      have hplain := isBlank_of_isTagChar (hinline.plain c (List.mem_of_mem_head? hc))
      rw [hplain] at hblank
      cases hblank

theorem exists_beginsBlank_iff : (∃ t ∈ d.tags, BeginsBlank t) ↔
    ∃ i text, StatedAt d i text ∧ BlankBehindHashes text := by
  have hfirst := firstAppearances_tags d
  refine ⟨fun ⟨t, ht, hhead⟩ => ?_, fun ⟨i, text, hstated, n, c, rest, htext, hblank⟩ => ?_⟩
  · obtain ⟨place, hstands, -⟩ := hfirst.first t ht
    obtain ⟨i, n, text, hstated, htext⟩ := hstands.exists_hashes hhead
    obtain ⟨c, hc, hblank⟩ := hhead
    obtain ⟨rest, hrest⟩ := List.head?_eq_some_iff.mp hc
    exact ⟨i, text, hstated, n, c, rest, hrest ▸ htext, hblank⟩
  · have hstands : TagAt d (Sum.inlₗ i) (String.ofList (c :: rest)) := by
      refine .stated (n := n) hstated ?_ ?_ ?_
      · rw [String.toList_ofList, htext]
      · rw [String.toList_ofList]
        rintro ⟨rfl⟩
        cases hblank
      · rw [Ne, String.ofList_eq_empty_iff]
        exact List.cons_ne_nil c rest
    obtain ⟨t, ht, hsame⟩ := hfirst.covers _ _ hstands
    refine ⟨t, ht, (beginsBlank_congr hsame).mpr ⟨c, ?_, hblank⟩⟩
    rw [String.toList_ofList]
    rfl

theorem Restates.statedTags (h : Restates d' d) : d'.statedTags = d.tags.map (onChars trim) := by
  unfold Document.statedTags
  rw [h.tags]
  dsimp only
  rw [List.filterMap_map, ← List.filterMap_eq_map]
  rfl

theorem mem_carriedTags {t : String} : t ∈ d.carriedTags ↔ ∃ place, TagAt d place t := by
  rw [← map_placedTags, List.mem_map]
  refine ⟨fun ⟨⟨place, _⟩, hplaced, ht⟩ => ⟨place, ?_⟩, fun ⟨place, hstands⟩ => ?_⟩
  · rw [← ht]
    exact mem_placedTags.mp hplaced
  · exact ⟨(place, t), mem_placedTags.mpr hstands, rfl⟩

/-- Tags that do not begin with white space are stated as they are. -/
theorem Restates.tags_eq (h : Restates d' d) (hheads : ∀ t ∈ d.tags, ¬ BeginsBlank t) :
    d'.tags = d.tags := by
  have hfirst := firstAppearances_tags d
  have hstates : d'.statedTags = d.tags := by
    rw [h.statedTags]
    refine (List.map_congr_left fun t ht => ?_).trans (List.map_id _)
    obtain ⟨place, hstands, -⟩ := hfirst.first t ht
    rw [onChars, hstands.trim_eq (hheads t ht), String.ofList_toList]
    rfl
  have hkept : (d.tags.map withoutHashes).filter (fun s => !s.isEmpty) = d.tags := by
    have hsame : d.tags.map withoutHashes = d.tags := by
      refine (List.map_congr_left fun t ht => ?_).trans (List.map_id _)
      obtain ⟨place, hstands, -⟩ := hfirst.first t ht
      exact withoutHashes_eq_iff.mpr ⟨0, rfl, hstands.proper.2⟩
    rw [hsame, List.filter_eq_self]
    intro t ht
    obtain ⟨place, hstands, -⟩ := hfirst.first t ht
    simpa using hstands.proper.1
  have hcarried : d'.carriedTags = d.tags ++
      ((inlineTags d.body.toList).map withoutHashes).filter fun s => !s.isEmpty := by
    conv_rhs => rw [← hkept]
    rw [carriedTags, hstates, h.body, List.map_append, List.filter_append]
    rfl
  rw [tags_eq_firsts, hcarried]
  apply firsts_append_of_covered hfirst.distinct
  intro t ht
  have hmem : t ∈ d.carriedTags := by
    rw [carriedTags, List.map_append, List.filter_append]
    exact List.mem_append_right _ ht
  obtain ⟨place, hstands⟩ := mem_carriedTags.mp hmem
  exact hfirst.covers place t hstands

/-- A tag that begins with white space comes back only from a longer one: that one is trimmed and
loses its hash signs. -/
theorem Restates.exists_longer (h : Restates d' d) {t : String} (ht : t ∈ d'.tags)
    (hhead : BeginsBlank t) : ∃ s ∈ d.tags, BeginsBlank s ∧ t.length < s.length := by
  obtain ⟨place, hstands, -⟩ := (firstAppearances_tags d').first t ht
  obtain ⟨i, n, text, hstated, htext⟩ := hstands.exists_hashes hhead
  have hmem : text ∈ d'.statedTags := by
    rw [statedTags_eq, List.mem_filterMap]
    exact ⟨some text, List.mem_of_getElem? (statedAt_iff.mp hstated), rfl⟩
  rw [h.statedTags, List.mem_map] at hmem
  obtain ⟨s, hs, rfl⟩ := hmem
  obtain ⟨⟨front, back, hcut, hfront, -⟩, hedge, -⟩ := trimmed_trim s.toList
  rw [onChars, String.toList_ofList] at htext
  rw [htext] at hcut hedge
  have hhash : n ≠ 0 := by
    rintro rfl
    exact beginsBlank_iff.mpr hedge hhead
  obtain ⟨m, rfl⟩ := Nat.exists_eq_succ_of_ne_zero hhash
  -- No tag begins with a hash sign, so the white space that was trimmed off stands in front.
  obtain ⟨splace, hsstands, -⟩ := (firstAppearances_tags d).first s hs
  cases front with
  | nil =>
      refine absurd ?_ hsstands.proper.2
      rw [hcut]
      rfl
  | cons c front =>
      refine ⟨s, hs, ⟨c, ?_, hfront c List.mem_cons_self⟩, ?_⟩
      · rw [hcut]
        rfl
      · have hlength := congrArg List.length hcut
        simp only [List.length_append, List.length_cons, List.length_replicate,
          String.length_toList] at hlength
        omega

/-- When restating changes nothing, no tag begins with white space: a longest one of those would
come from a longer one. -/
theorem Restates.not_beginsBlank (h : Restates d' d) (hsame : d'.tags = d.tags) :
    ∀ t ∈ d.tags, ¬ BeginsBlank t := by
  classical
  intro t ht hhead
  have hmem {s : String} : s ∈ d.tags.toFinset.filter BeginsBlank ↔ s ∈ d.tags ∧ BeginsBlank s := by
    simp
  obtain ⟨longest, hlongest, hmax⟩ :=
    Finset.exists_max_image (d.tags.toFinset.filter BeginsBlank) String.length
      ⟨t, hmem.mpr ⟨ht, hhead⟩⟩
  obtain ⟨hlisted, hblank⟩ := hmem.mp hlongest
  obtain ⟨s, hs, hsblank, hlonger⟩ := h.exists_longer (hsame ▸ hlisted) hblank
  exact absurd (hmax s (hmem.mpr ⟨hs, hsblank⟩)) (Nat.not_le.mpr hlonger)

/-- A document that states the tags of another one over the same body has just these tags, unless
the other one states a text with white space behind its hash signs. -/
theorem restated_tags (h : Restates d' d) :
    d'.tags = d.tags ↔ ∀ i text, StatedAt d i text → ¬ BlankBehindHashes text := by
  have hheads : (∀ t ∈ d.tags, ¬ BeginsBlank t) ↔
      ∀ i text, StatedAt d i text → ¬ BlankBehindHashes text := by
    rw [← not_iff_not]
    push Not
    exact exists_beginsBlank_iff
  rw [← hheads]
  exact ⟨h.not_beginsBlank, h.tags_eq⟩

theorem restated_tags_hashed : ∃ d, parse? "a.md" "---\ntags: [\"#b\"]\n---\n" = some d ∧
    Restates d.restated d ∧ d.tags = ["b"] ∧ d.restated.tags = d.tags := by
  have hread : (parse? "a.md" "---\ntags: [\"#b\"]\n---\n").map
      (fun d => (d.statedTexts, d.tags)) = some ([some "#b"], ["b"]) := by decide +kernel
  obtain ⟨d, hd, hread⟩ := Option.map_eq_some_iff.mp hread
  obtain ⟨hstated, htags⟩ := Prod.mk.inj hread
  refine ⟨d, hd, restates_restated d, htags, (restated_tags (restates_restated d)).mpr ?_⟩
  intro i text h ⟨n, c, rest, htext, hblank⟩
  rw [statedAt_iff, hstated, List.getElem?_singleton] at h
  obtain rfl : "#b" = text := by
    split at h
    · exact Option.some.inj (Option.some.inj h)
    · cases h
  match n with
  | 0 | 1 =>
      obtain ⟨rfl, -⟩ : _ ∧ _ := by simpa using htext
      cases hblank
  | n + 2 => simp [List.replicate_succ] at htext

/-- The hash sign hides the white space behind it, so the tag keeps that until it is stated in its
turn. -/
theorem exists_restated_ne : ∃ d, parse? "a.md" "---\ntags: [\"# b\"]\n---\n" = some d ∧
    Restates d.restated d ∧ d.tags = [" b"] ∧ d.restated.tags = ["b"] := by
  have hread : (parse? "a.md" "---\ntags: [\"# b\"]\n---\n").map
      (fun d => (d.tags, d.restated.tags)) = some ([" b"], ["b"]) := by decide +kernel
  obtain ⟨d, hd, hread⟩ := Option.map_eq_some_iff.mp hread
  obtain ⟨htags, hrestated⟩ := Prod.mk.inj hread
  exact ⟨d, hd, restates_restated d, htags, hrestated⟩

end Tags

end Slipbox.Document
