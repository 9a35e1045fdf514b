import Mathlib
import Slipbox.Document.Basic
import Slipbox.Proofs.FirstAppearances
import Slipbox.Proofs.Places
import Slipbox.Proofs.Text.Trimming

/-! The tags of a document. The search for inline tags takes the white space in front of a tag along;
since no white space stands within a tag, every tag still has its own in front. A tag that the
properties state is trimmed before its hash signs are taken off. White space behind the hash signs
is left, and lost only when the tag is stated in its turn. -/

namespace Slipbox.Document

open Text

/-- The tags that a document carries, in each of their spellings: the stated ones and the inline
ones, without leading hash signs. -/
def carriedTags (d : Document) : List String :=
  ((d.statedTags ++ inlineTags d.body.toList).map
    (Text.onChars fun cs => cs.dropWhile (· == '#'))).filter fun s => !s.isEmpty

theorem tags_eq (d : Document) : d.tags = distinctIgnoringCase d.carriedTags := rfl

/-- The text is stated as the tag with this number: as an item of a list that is no collection, or
as what is left of a piece between commas and spaces. -/
inductive StatedAt (d : Document) (i : Nat) (text : String) : Prop where
  | item {items : List Json} {v : Json} (hlist : property? d.metadata "tags" = some (.array items))
      (hitem : items[i]? = some v) (htext : scalarText? v = some text)
  | piece {s : String} {piece : List Char} (hstring : property? d.metadata "tags" = some (.string s))
      (hpiece : (s.toList.splitOnP fun c => c == ',' || c == ' ')[i]? = some piece)
      (htrim : Trimmed piece text.toList)

/-- A hash sign stands at the place, at the start of the body or behind white space, and the tag
behind it: a letter and all letters, digits and marks that follow. -/
structure InlineAt (body : List Char) (place : Nat) (tag : List Char) : Prop where
  stands : ∃ front back, front.length = place ∧ body = front ++ '#' :: (tag ++ back) ∧
    (∀ c ∈ front.getLast?, isBlank c = true) ∧ ∀ c ∈ back.head?, isTagChar c = false
  letter : ∃ c ∈ tag.head?, c.isAlpha = true
  plain : ∀ c ∈ tag, isTagChar c = true

/-- A tag of the document stands at the place: a stated one behind any number of hash signs, or an
inline one. All stated tags stand before the inline ones. -/
inductive TagAt (d : Document) : Nat ⊕ₗ Nat → String → Prop where
  | stated {i n : Nat} {text tag : String} (hstated : StatedAt d i text)
      (htext : text.toList = List.replicate n '#' ++ tag.toList)
      (hhash : tag.toList.head? ≠ some '#') (hne : tag ≠ "") : TagAt d (Sum.inlₗ i) tag
  | inline {place : Nat} {tag : String} (hinline : InlineAt d.body.toList place tag.toList) :
      TagAt d (Sum.inrₗ place) tag

section Inline

variable {c : Char} {cs text tag : List Char}

theorem isTagChar_of_isAlpha (h : c.isAlpha = true) : isTagChar c = true := by
  simp [isTagChar, Char.isAlphanum, h]

theorem isTagChar_bounds (h : isTagChar c = true) : 45 ≤ c.toNat ∧ c.toNat ≤ 122 := by
  simp only [isTagChar, Char.isAlphanum, Char.isAlpha, Char.isUpper, Char.isLower, Char.isDigit,
    Bool.or_eq_true, Bool.and_eq_true, decide_eq_true_eq, beq_iff_eq, ge_iff_le,
    UInt32.le_iff_toNat_le, ← Char.toNat_inj, Char.toNat_val, Char.reduceToNat] at h
  omega

theorem isBlank_of_isTagChar (h : isTagChar c = true) : isBlank c = false := by
  have hbounds := isTagChar_bounds h
  simp only [isBlank, Bool.or_eq_false_iff, Bool.and_eq_false_iff, decide_eq_false_iff_not,
    beq_eq_false_iff_ne]
  omega

theorem tag?_eq_some : tag? text = some tag ↔ (∃ c ∈ tag.head?, c.isAlpha = true) ∧
    (∀ c ∈ tag, isTagChar c = true) ∧
      ∃ back, text = '#' :: (tag ++ back) ∧ ∀ c ∈ back.head?, isTagChar c = false := by
  refine ⟨fun h => ?_, fun ⟨⟨c, hc, halpha⟩, hplain, back, htext, hback⟩ => ?_⟩
  · unfold tag? at h
    split at h
    · next c cs =>
      split at h
      · next halpha =>
        cases h
        refine ⟨⟨c, rfl, halpha⟩, ?_, cs.dropWhile isTagChar, ?_, ?_⟩
        · intro d hd
          rcases List.mem_cons.mp hd with rfl | hd
          · exact isTagChar_of_isAlpha halpha
          · exact List.mem_takeWhile_imp hd
        · rw [List.cons_append, List.takeWhile_append_dropWhile]
        · exact fun d hd => of_mem_head?_dropWhile hd
      · cases h
    · cases h
  · cases tag with
    | nil => cases hc
    | cons x tag =>
        cases hc
        have hrun : ∀ d ∈ tag, isTagChar d = true := fun d hd => hplain d (List.mem_cons_of_mem _ hd)
        rw [htext, List.cons_append, tag?, if_pos halpha, (takeWhile_run hrun hback).1]

theorem tag?_of_ne (h : c ≠ '#') : tag? (c :: cs) = none := by
  unfold tag?
  split
  · next heq => exact absurd (List.cons.inj heq).1 h
  · rfl

/-- The tag that stands here behind white space or at the start of the text. -/
def tagHere (before : Option Char) (text : List Char) : Option (List Char) :=
  if before.all isBlank then tag? text else none

theorem tagHere_of_not_blank {before : Option Char} (h : before.all isBlank = false)
    (text : List Char) : tagHere before text = none := by
  rw [tagHere, h]
  rfl

/-- No tag stands within another one. -/
theorem findings_tag (h : tag? text = some tag) (before : Option Char)
    (hbefore : before.all isBlank = true) (place : Nat) :
    ∃ before' place', before'.all isBlank = false ∧ findings tagHere before place text =
      (place, tag) :: findings tagHere before' place' (text.drop (tag.length + 1)) := by
  obtain ⟨-, hplain, back, htext, -⟩ := tag?_eq_some.mp h
  have hpart : ∀ c ∈ tag, (some c).all isBlank = false ∧ ∀ before cs,
      before.all isBlank = false → tagHere before (c :: cs) = none :=
    fun c hc => ⟨isBlank_of_isTagChar (hplain c hc), fun _ _ hquiet => tagHere_of_not_blank hquiet _⟩
  obtain ⟨before', place', hbefore', hfindings⟩ :=
    findings_quiet (fun before => before.all isBlank = false) hpart (some '#') rfl (place + 1) back
  have hhere : tagHere before text = some tag := by
    rw [tagHere, if_pos hbefore, h]
  have hrest : text.drop (tag.length + 1) = back := by
    rw [htext, List.drop_succ_cons, List.drop_left]
  refine ⟨before', place', hbefore', ?_⟩
  rw [hrest]
  subst htext
  rw [findings_of_some hhere, hfindings]

theorem tag?_of_blank (h : isBlank c = true) : tag? (c :: cs) = none := by
  apply tag?_of_ne
  rintro rfl
  cases h

theorem tagPattern_of_blank (atStart : Bool) (h : isBlank c = true) (cs : List Char) :
    tagPattern.match? atStart (c :: cs) = (tag? cs).map fun tag => ⟨tag, tag.length + 2⟩ := by
  simp [tagPattern, tag?_of_blank h, h]

theorem tagPattern_of_not_blank (atStart : Bool) (h : isBlank c = false) (cs : List Char) :
    tagPattern.match? atStart (c :: cs) =
      if atStart then (tag? (c :: cs)).map fun tag => ⟨tag, tag.length + 1⟩ else none := by
  cases atStart <;> simp [tagPattern, h]

/-- The search for tags leaves none out that stands at the start of the text or behind white space,
except at the very place where it goes on: the white space in front of that is passed over. -/
theorem tagPattern_partsFrom (atStart : Bool) (before : Option Char) (place : Nat)
    (text : List Char) (hstart : atStart = true → before = none)
    (hbefore : atStart = false → tagHere before text = none) :
    tagPattern.partsFrom atStart 0 text = (findings tagHere before place text).map Prod.snd := by
  induction hlength : text.length using Nat.strong_induction_on
    generalizing atStart before place text with
  | h n ih =>
      cases text with
      | nil => rfl
      | cons c cs =>
          have hbehind (k : Nat) (before : Option Char) (place : Nat)
              (hnone : tagHere before (cs.drop k) = none) :
              tagPattern.partsFrom false 0 (cs.drop k) =
                (findings tagHere before place (cs.drop k)).map Prod.snd := by
            refine ih (cs.drop k).length ?_ false before place (cs.drop k) (by simp) (fun _ => hnone)
              rfl
            rw [← hlength, List.length_cons, List.length_drop]
            omega
          cases hc : isBlank c with
          | true =>
              have hmatch := tagPattern_of_blank atStart hc cs
              have hhere : tagHere before (c :: cs) = none := by
                rw [tagHere, tag?_of_blank hc, ite_self]
              rw [findings_of_none hhere]
              cases htag : tag? cs with
              | none =>
                  rw [htag] at hmatch
                  rw [tagPattern.partsFrom_of_none hmatch]
                  refine hbehind 0 (some c) (place + 1) ?_
                  rw [tagHere, List.drop_zero, htag, ite_self]
              | some tag =>
                  rw [htag] at hmatch
                  obtain ⟨before', place', hbefore', hfindings⟩ :=
                    findings_tag htag (some c) hc (place + 1)
                  rw [tagPattern.partsFrom_of_some hmatch (Nat.succ_pos _) rfl, hfindings,
                    List.map_cons, List.drop_succ_cons,
                    hbehind _ _ _ (tagHere_of_not_blank hbefore' _)]
          | false =>
              have hmatch := tagPattern_of_not_blank atStart hc cs
              have hquiet : (some c).all isBlank = false := hc
              cases atStart with
              | false =>
                  rw [tagPattern.partsFrom_of_none hmatch, findings_of_none (hbefore rfl)]
                  exact hbehind 0 (some c) (place + 1) (tagHere_of_not_blank hquiet cs)
              | true =>
                  obtain rfl := hstart rfl
                  rw [if_pos rfl] at hmatch
                  cases htag : tag? (c :: cs) with
                  | none =>
                      rw [htag] at hmatch
                      rw [tagPattern.partsFrom_of_none hmatch, findings_of_none htag]
                      exact hbehind 0 (some c) (place + 1) (tagHere_of_not_blank hquiet cs)
                  | some tag =>
                      rw [htag] at hmatch
                      obtain ⟨before', place', hbefore', hfindings⟩ :=
                        findings_tag htag none rfl place
                      rw [tagPattern.partsFrom_of_some hmatch (Nat.succ_pos _) rfl, hfindings,
                        List.map_cons, List.drop_succ_cons,
                        hbehind _ _ _ (tagHere_of_not_blank hbefore' _)]

end Inline

section Stated

variable {d : Document}

/-- The texts of the stated tags with gaps where an item is a collection. -/
def statedTexts (d : Document) : List (Option String) :=
  match property? d.metadata "tags" with
  | some (.array items) => items.map scalarText?
  | some (.string s) => (s.toList.splitOnP fun c => c == ',' || c == ' ').map fun piece =>
      some (String.ofList (trim piece))
  | _ => []

theorem statedTags_eq (d : Document) : d.statedTags = d.statedTexts.filterMap id := by
  unfold statedTags statedTexts
  generalize property? d.metadata "tags" = v
  match v with
  | some (.array items) =>
      rw [List.filterMap_map]
      rfl
  | some (.string s) =>
      dsimp only
      rw [List.filterMap_map, pieces_eq_splitOnP, ← List.filterMap_eq_map]
      rfl
  | none | some .null | some (.bool _) | some (.int _) | some (.double _) | some (.object _) => rfl

theorem statedAt_iff {i : Nat} {text : String} :
    StatedAt d i text ↔ d.statedTexts[i]? = some (some text) := by
  unfold statedTexts
  refine ⟨fun h => ?_, fun h => ?_⟩
  · cases h with
    | item hlist hitem htext =>
        rw [hlist]
        simp [hitem, htext]
    | piece hstring hpiece htrim =>
        rw [hstring]
        simp [hpiece, htrim.eq]
  · split at h
    · next items hlist =>
      rw [List.getElem?_map, Option.map_eq_some_iff] at h
      obtain ⟨v, hitem, htext⟩ := h
      exact .item hlist hitem htext
    · next s hstring =>
      rw [List.getElem?_map, Option.map_eq_some_iff] at h
      obtain ⟨piece, hpiece, htext⟩ := h
      refine .piece hstring hpiece ?_
      rw [← Option.some.inj htext, String.toList_ofList]
      exact trimmed_trim piece
    · cases h

/-- The stated text at the head. -/
def statedHere (_ : Option (Option String)) (texts : List (Option String)) : Option String :=
  texts.head?.join

theorem findings_stated (before : Option (Option String)) (place : Nat)
    (texts : List (Option String)) :
    (findings statedHere before place texts).map Prod.snd = texts.filterMap id := by
  induction texts generalizing before place with
  | nil => rfl
  | cons text texts ih =>
      cases text with
      | none =>
          rw [findings_of_none rfl, ih]
          rfl
      | some text =>
          rw [findings_of_some rfl, List.map_cons, ih]
          rfl

theorem mem_findings_stated {i : Nat} {text : String} :
    (i, text) ∈ findings statedHere none 0 d.statedTexts ↔ StatedAt d i text := by
  rw [mem_findings, statedAt_iff]
  refine ⟨fun ⟨front, c, back, htexts, hi, hhere⟩ => ?_, fun h => ?_⟩
  · obtain rfl : c = some text := hhere
    rw [htexts, hi, Nat.zero_add, List.getElem?_append_right le_rfl, Nat.sub_self]
    rfl
  · obtain ⟨hi, hget⟩ := List.getElem?_eq_some_iff.mp h
    refine ⟨d.statedTexts.take i, some text, d.statedTexts.drop (i + 1), ?_, ?_, rfl⟩
    · rw [← hget, List.getElem_cons_drop, List.take_append_drop]
    · rw [List.length_take, Nat.zero_add, Nat.min_eq_left (Nat.le_of_lt hi)]

end Stated

section Tags

variable {d : Document}

theorem mem_findings_tagHere {body tag : List Char} {place : Nat} :
    (place, tag) ∈ findings tagHere none 0 body ↔ InlineAt body place tag := by
  have hfree (front : List Char) : (front.getLast?.or none).all isBlank = true ↔
      ∀ c ∈ front.getLast?, isBlank c = true := by
    cases front.getLast? <;> simp
  have hhere (front text : List Char) : tagHere (front.getLast?.or none) text = some tag ↔
      (∀ c ∈ front.getLast?, isBlank c = true) ∧ tag? text = some tag := by
    rw [← hfree, tagHere]
    split
    · next h => exact (and_iff_right h).symm
    · next h =>
      refine ⟨fun hnone => ?_, fun hsome => absurd hsome.1 h⟩
      cases hnone
  rw [mem_findings]
  refine ⟨fun ⟨front, c, text, hbody, hplace, h⟩ => ?_, fun ⟨⟨front, back, hplace, hbody, hfront,
    hback⟩, hletter, hplain⟩ => ?_⟩
  · obtain ⟨hfront, htag⟩ := (hhere front _).mp h
    obtain ⟨hletter, hplain, back, htext, hback⟩ := tag?_eq_some.mp htag
    exact ⟨⟨front, back, by omega, by rw [hbody, htext], hfront, hback⟩, hletter, hplain⟩
  · refine ⟨front, '#', tag ++ back, hbody, by omega, (hhere front _).mpr ⟨hfront, ?_⟩⟩
    exact tag?_eq_some.mpr ⟨hletter, hplain, back, rfl, hback⟩

/-- The text without leading hash signs. -/
def withoutHashes : String → String :=
  Text.onChars fun cs => cs.dropWhile (· == '#')

theorem toList_withoutHashes (s : String) :
    (withoutHashes s).toList = s.toList.dropWhile (· == '#') :=
  String.toList_ofList

theorem withoutHashes_eq_iff {s t : String} : withoutHashes s = t ↔
    ∃ n, s.toList = List.replicate n '#' ++ t.toList ∧ t.toList.head? ≠ some '#' := by
  rw [← String.toList_inj, toList_withoutHashes, dropWhile_beq_eq_iff]

/-- The stated tags with their places. -/
def placedStated (d : Document) : List ((Nat ⊕ₗ Nat) × String) :=
  (findings statedHere none 0 d.statedTexts).map fun (i, text) => (Sum.inlₗ i, withoutHashes text)

/-- The inline tags with their places. -/
def placedInline (d : Document) : List ((Nat ⊕ₗ Nat) × String) :=
  (findings tagHere none 0 d.body.toList).map fun (place, tag) =>
    (Sum.inrₗ place, withoutHashes (String.ofList tag))

/-- The tags with their places, in each of their spellings. -/
def placedTags (d : Document) : List ((Nat ⊕ₗ Nat) × String) :=
  (d.placedStated ++ d.placedInline).filter fun s => !s.2.isEmpty

/-- An inline tag begins with a letter, so it stays as it is. -/
theorem InlineAt.withoutHashes {body tag : List Char} {place : Nat} (h : InlineAt body place tag) :
    withoutHashes (String.ofList tag) = String.ofList tag ∧ String.ofList tag ≠ "" := by
  obtain ⟨c, hc, halpha⟩ := h.letter
  refine ⟨withoutHashes_eq_iff.mpr ⟨0, rfl, ?_⟩, ?_⟩
  · rw [String.toList_ofList]
    intro hhash
    rw [hc] at hhash
    cases hhash
    cases halpha
  · rw [Ne, String.ofList_eq_empty_iff]
    rintro rfl
    cases hc

theorem mem_placedTags {place : Nat ⊕ₗ Nat} {t : String} :
    (place, t) ∈ placedTags d ↔ TagAt d place t := by
  have hempty : (!t.isEmpty) = true ↔ t ≠ "" := by
    simp
  simp only [placedTags, placedStated, placedInline, List.mem_filter, List.mem_append, List.mem_map,
    Prod.exists, Prod.mk.injEq, mem_findings_stated, mem_findings_tagHere, hempty]
  refine ⟨fun ⟨hplaced, hne⟩ => ?_, fun h => ?_⟩
  · rcases hplaced with ⟨i, text, hstated, rfl, htext⟩ | ⟨place, tag, hinline, rfl, htag⟩
    · obtain ⟨n, htext, hhash⟩ := withoutHashes_eq_iff.mp htext
      exact .stated hstated htext hhash hne
    · rw [hinline.withoutHashes.1] at htag
      subst htag
      apply TagAt.inline
      rw [String.toList_ofList]
      exact hinline
  · cases h with
    | stated hstated htext hhash hne =>
        exact ⟨.inl ⟨_, _, hstated, rfl, withoutHashes_eq_iff.mpr ⟨_, htext, hhash⟩⟩, hne⟩
    | inline hinline =>
        obtain ⟨hkept, hne⟩ := hinline.withoutHashes
        rw [String.ofList_toList] at hkept hne
        refine ⟨.inr ⟨_, _, hinline, rfl, ?_⟩, hne⟩
        rw [String.ofList_toList]
        exact hkept

theorem placedTags_increasing (d : Document) :
    (placedTags d).Pairwise fun s t => s.1 < t.1 := by
  apply List.Pairwise.filter
  rw [List.pairwise_append]
  refine ⟨?_, ?_, ?_⟩
  · rw [placedStated, List.pairwise_map]
    exact (findings_increasing _).imp fun h => Sum.Lex.inl_lt_inl_iff.mpr h
  · rw [placedInline, List.pairwise_map]
    exact (findings_increasing _).imp fun h => Sum.Lex.inr_lt_inr_iff.mpr h
  · intro s hs t ht
    obtain ⟨_, _, rfl⟩ := List.mem_map.mp hs
    obtain ⟨_, _, rfl⟩ := List.mem_map.mp ht
    exact Sum.Lex.inl_lt_inr _ _

theorem map_placedTags (d : Document) : (placedTags d).map Prod.snd = d.carriedTags := by
  have hinline : inlineTags d.body.toList =
      ((findings tagHere none 0 d.body.toList).map Prod.snd).map String.ofList := by
    rw [inlineTags, Text.Pattern.parts, tagPattern_partsFrom true none 0 _ (fun _ => rfl) (by simp)]
  have hfilter : (fun s : (Nat ⊕ₗ Nat) × String => !s.2.isEmpty) =
      (fun s : String => !s.isEmpty) ∘ Prod.snd := rfl
  rw [placedTags, hfilter, ← List.filter_map, List.map_append, carriedTags, statedTags_eq,
    ← findings_stated none 0, hinline, List.map_append, placedStated, placedInline]
  simp only [List.map_map, Function.comp_def]
  rfl

theorem distinctIgnoringCase_eq_firsts (tags : List String) :
    distinctIgnoringCase tags = firsts Text.lowercase tags := by
  induction tags with
  | nil => rfl
  | cons s tags ih =>
      rw [distinctIgnoringCase, firsts, ih]
      congr 2
      funext t
      simp [bne, beq_eq_decide]

theorem tags_eq_firsts (d : Document) : d.tags = firsts Text.lowercase d.carriedTags := by
  rw [tags_eq, distinctIgnoringCase_eq_firsts]

theorem firstAppearances_tags (d : Document) :
    FirstAppearances Text.lowercase (TagAt d) d.tags := by
  have hstands : (fun place t => (place, t) ∈ placedTags d) = TagAt d := by
    funext place t
    exact propext mem_placedTags
  rw [tags_eq_firsts, ← hstands, ← map_placedTags]
  exact firstAppearances_firsts (placedTags_increasing d)

/-- A tag is not empty, and no hash sign is left in front of it. -/
theorem TagAt.proper {place : Nat ⊕ₗ Nat} {tag : String} (h : TagAt d place tag) :
    tag ≠ "" ∧ tag.toList.head? ≠ some '#' := by
  cases h with
  | stated _ _ hhash hne => exact ⟨hne, hhash⟩
  | inline hinline =>
      obtain ⟨c, hc, halpha⟩ := hinline.letter
      refine ⟨?_, fun hhash => ?_⟩
      · rintro rfl
        cases hc
      · obtain rfl : c = '#' := Option.some.inj (hc.symm.trans hhash)
        cases halpha

/-- A document has each tag that it states or that stands in its body, in the spelling that comes
first and in the order of first appearance. -/
theorem tags_complete (d : Document) :
    FirstAppearances Text.lowercase (TagAt d) d.tags ∧
      ∀ t ∈ d.tags, t ≠ "" ∧ t.toList.head? ≠ some '#' := by
  have hfirst := firstAppearances_tags d
  refine ⟨hfirst, fun t ht => ?_⟩
  obtain ⟨place, hstands, -⟩ := hfirst.first t ht
  exact hstands.proper

example : inlineTags "#a #b-1 #1 x#c\n#A #d#e".toList = ["a", "b-1", "A", "d"] := by
  decide +kernel

end Tags

end Slipbox.Document
