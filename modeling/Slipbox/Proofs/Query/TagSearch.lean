import Slipbox.Proofs.Document.Tags
import Slipbox.Proofs.Index.Contents
import Slipbox.Proofs.Query.Contents
import Slipbox.Proofs.Query.RoundTrip
import Slipbox.Proofs.Text.Lowercase

/-! Finding a document by one of its tags. Of several spellings of a tag a document keeps the first,
and spellings count as one tag if they have the same lower case in all of Unicode. A query compares
tags up to ASCII letter case only, so it misses a document that keeps another spelling than the one
asked for, when the two differ in the case of a letter beyond ASCII. Behind a null character it does
not compare them at all. -/

namespace Slipbox

open Text (asciiLower lowercase_eq_of_asciiLower)

namespace Document

/-- The spelling that stands for a tag: the first one with its lower case. -/
def spelling? (tags : List String) (tag : String) : Option String :=
  tags.find? fun t => Text.lowercase t == Text.lowercase tag

theorem spelling?_isSome {tags : List String} {tag : String} (h : tag ∈ tags) :
    ∃ first, spelling? tags tag = some first :=
  Option.isSome_iff_exists.mp (List.find?_isSome.mpr ⟨tag, h, beq_self_eq_true _⟩)

theorem spelling?_congr {tags : List String} {s t : String}
    (h : Text.lowercase s = Text.lowercase t) : spelling? tags s = spelling? tags t := by
  rw [spelling?, spelling?, h]

theorem mem_distinctIgnoringCase {tags : List String} {tag : String} :
    tag ∈ distinctIgnoringCase tags ↔ spelling? tags tag = some tag := by
  induction tags with
  | nil => simp [distinctIgnoringCase, spelling?]
  | cons s tags ih =>
      rw [distinctIgnoringCase, List.mem_cons, List.mem_filter, ih]
      by_cases hsame : Text.lowercase s = Text.lowercase tag
      · simp [spelling?, hsame, eq_comm]
      · have hne : tag ≠ s := fun h => hsame (h ▸ rfl)
        simp [spelling?, hne, hsame, Ne.symm hsame]

end Document

namespace Query

open Document (spelling? mem_distinctIgnoringCase)

/-- Without null characters it is the whole tag that counts. -/
theorem sameTag_iff_asciiLower {tag : String} (htag : '\x00' ∉ tag.toList) (t : String) :
    SameTag t tag ↔ asciiLower t = asciiLower tag :=
  Sql.nocase_eq_iff.symm.trans (Sql.nocase_eq_iff_asciiLower htag)

/-- A search among the spellings that stand for tags finds the one that stands for this tag or
none. -/
theorem exists_sameTag_iff {tags : List String} {tag first : String}
    (hfirst : spelling? tags tag = some first) (htag : '\x00' ∉ tag.toList) :
    (∃ t ∈ Document.distinctIgnoringCase tags, SameTag t tag) ↔
      asciiLower first = asciiLower tag := by
  simp only [sameTag_iff_asciiLower htag, mem_distinctIgnoringCase]
  constructor
  · rintro ⟨t, ht, hequal⟩
    rw [Document.spelling?_congr (lowercase_eq_of_asciiLower hequal), hfirst] at ht
    cases ht
    exact hequal
  · intro hequal
    refine ⟨first, ?_, hequal⟩
    rw [Document.spelling?_congr (lowercase_eq_of_asciiLower hequal), hfirst]

/-- The query for the notes that have a tag. -/
def tagQuery (tag : String) (limit : Nat) : Query :=
  { bare .list with
    condition := some (.contains "tags" (.string tag))
    limit := some limit }

/-- The query as text, with the tag in quotes. -/
def tagQueryText (tag : String) (limit : Nat) : String :=
  String.ofList (spaced ["LIST".toList, "WHERE".toList, "CONTAINS".toList, ['('], "tags".toList,
    [','], quote tag, [')'], "LIMIT".toList, Decimal.digitChars limit])

example : tagQueryText "a \"b\"" 10 = "LIST WHERE CONTAINS(tags, \"a \\\"b\\\"\") LIMIT 10" := by
  decide +kernel

theorem parse_tagQueryText (tag : String) {limit : Nat} (hlimit : limit ≤ 2 ^ 53) :
    parse (tagQueryText tag limit) = .ok (tagQuery tag limit) := by
  have hexpressible : (tagQuery tag limit).Expressible :=
    { fields := by rintro _ ⟨⟩
      condition := by
        rintro _ ⟨⟩
        exact ⟨by decide +kernel, trivial⟩
      order := by rintro _ ⟨⟩
      limit := by
        rintro _ ⟨⟩
        exact hlimit }
  refine parse_layout hexpressible (.refl _) ?_
  rw [tagQueryText, String.toList_ofList]
  exact layout_spaced _

theorem accepted_tagQuery {tag : String} (hsize : tag.utf8ByteSize ≤ Sql.maxTextSize)
    (limit : Nat) : (tagQuery tag limit).Accepted := by
  have hname : Field.ofName? "tags" = some .tags := by decide +kernel
  refine ⟨?_, Nat.le_of_ble_eq_true rfl, nofun, ?_, ?_⟩
  · simp [depth, tagQuery, bare, Condition.height, Condition.searchHeight, hname, Sql.maxDepth]
  · rintro _ ⟨⟩
    simp [Condition.patternsFit, hname]
  · rintro _ ⟨⟩
    exact decide_eq_true hsize

/-- The query returns the path of a note if and only if the note has the tag. -/
theorem mem_paths_tagQuery {ix : Index} {n : Note} (hn : n ∈ ix.all) {tag : String}
    (hsize : tag.utf8ByteSize ≤ Sql.maxTextSize) {limit : Nat}
    (hlimit : ix.notes.rows.length ≤ limit) (hbound : limit ≤ 2 ^ 53) (defaultLimit : Nat) :
    ∃ r, runText (tagQueryText tag limit) ix defaultLimit = .ok r ∧
      (n.path ∈ r.paths ↔ ∃ t ∈ n.tags, SameTag t tag) := by
  obtain ⟨t, htranslate⟩ : ∃ t, (tagQuery tag limit).translate defaultLimit = .ok t := ⟨_, rfl⟩
  have hmax : limit ≤ maxInteger := le_trans hbound (by decide)
  have hall : ix.notes.rows.length ≤ min limit maxInteger := le_min hlimit (hlimit.trans hmax)
  obtain ⟨r, hrun, hpaths⟩ := run_paths htranslate (accepted_tagQuery hsize limit) hall
  refine ⟨r, by rw [runText, parse_tagQueryText tag hbound]; exact hrun, ?_⟩
  obtain ⟨row, hrow, rfl⟩ := List.mem_map.mp hn
  have hadmits : (tagQuery tag limit).admits row ((Sql.Tables.ofIndex ix).tagsOf row) ↔
      ∃ t ∈ (ix.noteOf row).tags, SameTag t tag := by
    have hfound : hasTag (ix.noteOf row).tags tag = true ↔
        ∃ t ∈ (ix.noteOf row).tags, SameTag t tag := by
      simp only [hasTag, List.any_eq_true, decide_eq_true_iff]
    rw [← hfound, tagsOf_eq]
    exact Option.some_inj
  rw [hpaths, ← hadmits]
  exact exists_row_iff ix (fun row => (tagQuery tag limit).admits row _) hrow

/-- The query returns an indexed document if and only if one of the kept tags is the one asked
for. -/
theorem mem_paths_of_document (ix : Index) (d : Document) (times : Document.FileTimes)
    (hash : Option String) {tag : String} (hsize : tag.utf8ByteSize ≤ Sql.maxTextSize) {limit : Nat}
    (hlimit : (ix.upsert (d.toNote times hash)).notes.rows.length ≤ limit)
    (hbound : limit ≤ 2 ^ 53) (defaultLimit : Nat) :
    ∃ r, runText (tagQueryText tag limit) (ix.upsert (d.toNote times hash)) defaultLimit = .ok r ∧
      (d.path ∈ r.paths ↔ ∃ t ∈ d.tags, SameTag t tag) := by
  have hnote : (d.toNote times hash).kept ∈ (ix.upsert (d.toNote times hash)).all :=
    Index.mem_all.mpr ((Index.find?_upsert ix _ _).trans (if_pos rfl))
  obtain ⟨r, hrun, hpaths⟩ := mem_paths_tagQuery hnote hsize hlimit hbound defaultLimit
  have htags (t : String) : t ∈ (d.toNote times hash).kept.tags ↔ t ∈ d.tags :=
    List.mem_eraseDups
  simp only [htags] at hpaths
  exact ⟨r, hrun, hpaths⟩

/-- A document is found by a tag that it carries if and only if one of the tags that it keeps is
equal to it up to ASCII letter case, as far as the store compares them. For a tag without null
characters this is so if and only if its first spelling, which is the one that is kept, is the one
asked for up to ASCII letter case. -/
theorem document_found_by_tag_iff (ix : Index) (d : Document) (times : Document.FileTimes)
    (hash : Option String) {tag : String} {limit : Nat} (htag : tag ∈ d.carriedTags)
    (hsize : tag.utf8ByteSize ≤ Sql.maxTextSize)
    (hlimit : (ix.upsert (d.toNote times hash)).notes.rows.length ≤ limit)
    (hbound : limit ≤ 2 ^ 53) (defaultLimit : Nat) :
    ∃ kept r, d.carriedTags.find? (fun t => Text.lowercase t == Text.lowercase tag) = some kept ∧
      kept ∈ d.tags ∧
      runText (tagQueryText tag limit) (ix.upsert (d.toNote times hash)) defaultLimit = .ok r ∧
      (d.path ∈ r.paths ↔ ∃ t ∈ d.tags, SameTag t tag) ∧
      ('\x00' ∉ tag.toList → (d.path ∈ r.paths ↔ asciiLower kept = asciiLower tag)) := by
  obtain ⟨kept, hkept⟩ := Document.spelling?_isSome htag
  obtain ⟨r, hrun, hpaths⟩ := mem_paths_of_document ix d times hash hsize hlimit hbound defaultLimit
  have hsame : Text.lowercase kept = Text.lowercase tag := by simpa using List.find?_some hkept
  refine ⟨kept, r, hkept, ?_, hrun, hpaths, fun hplain => hpaths.trans ?_⟩
  · rw [Document.tags_eq, mem_distinctIgnoringCase, Document.spelling?_congr hsame, hkept]
  · rw [Document.tags_eq, exists_sameTag_iff hkept hplain]

/-- A document with three spellings of a tag that differ in the case of ASCII letters is found by
each of them. -/
theorem document_found_by_inline_tag :
    ∃ d, Document.parse? "a.md" "---\ntags: [Docker, \"#docker\"]\n---\nOn #DOCKER." = some d ∧
      "DOCKER" ∈ d.carriedTags ∧
      (Index.empty.upsert (d.toNote ⟨none, none⟩ none)).notes.rows.length ≤ 10 ∧
      ∃ kept r, d.carriedTags.find? (fun t => Text.lowercase t == Text.lowercase "DOCKER") =
        some kept ∧ kept ∈ d.tags ∧
        runText (tagQueryText "DOCKER" 10) (Index.empty.upsert (d.toNote ⟨none, none⟩ none)) 100 =
          .ok r ∧
        asciiLower kept = asciiLower "DOCKER" ∧ d.path ∈ r.paths := by
  have hcarried : (Document.parse? "a.md"
      "---\ntags: [Docker, \"#docker\"]\n---\nOn #DOCKER.").map Document.carriedTags =
        some ["Docker", "docker", "DOCKER"] := by decide +kernel
  obtain ⟨d, hd, hcarried⟩ := Option.map_eq_some_iff.mp hcarried
  have htag : "DOCKER" ∈ d.carriedTags := by simp [hcarried]
  have hlimit : (Index.empty.upsert (d.toNote ⟨none, none⟩ none)).notes.rows.length ≤ 10 :=
    show 1 ≤ 10 by decide
  have hsize : "DOCKER".utf8ByteSize ≤ Sql.maxTextSize := by decide +kernel
  obtain ⟨kept, r, hfirst, hkept, hrun, -, hpaths⟩ := document_found_by_tag_iff Index.empty d
    ⟨none, none⟩ none htag hsize hlimit (by norm_num) 100
  have hdocker : some kept = some "Docker" := by
    rw [← hfirst, hcarried]
    decide +kernel
  cases hdocker
  have hequal : asciiLower "Docker" = asciiLower "DOCKER" := by decide
  exact ⟨d, hd, htag, hlimit, _, r, hfirst, hkept, hrun, hequal,
    (hpaths (by decide)).mpr hequal⟩

/-- A document that states a tag with a capital letter beyond ASCII and then with the small one
carries the second, and no limit makes a query for it find the document. -/
theorem document_not_found_by_accented_tag :
    ∃ d, Document.parse? "a.md" "---\ntags: [É, é]\n---\n" = some d ∧ "é" ∈ d.carriedTags ∧
      ∀ limit, 1 ≤ limit → limit ≤ 2 ^ 53 →
        ∃ r, runText (tagQueryText "é" limit)
          (Index.empty.upsert (d.toNote ⟨none, none⟩ none)) 100 = .ok r ∧ d.path ∉ r.paths := by
  have hcarried : (Document.parse? "a.md" "---\ntags: [É, é]\n---\n").map Document.carriedTags =
      some ["É", "é"] := by decide +kernel
  obtain ⟨d, hd, hcarried⟩ := Option.map_eq_some_iff.mp hcarried
  have hmissing : ¬ ∃ t ∈ d.tags, SameTag t "é" := by
    rw [Document.tags_eq, hcarried]
    decide +kernel
  have hsize : "é".utf8ByteSize ≤ Sql.maxTextSize := by decide +kernel
  refine ⟨d, hd, by simp [hcarried], fun limit hlimit hbound => ?_⟩
  obtain ⟨r, hrun, hpaths⟩ := mem_paths_of_document Index.empty d ⟨none, none⟩ none
    hsize hlimit hbound 100
  exact ⟨r, hrun, fun hpath => hmissing (hpaths.mp hpath)⟩

end Query

end Slipbox
