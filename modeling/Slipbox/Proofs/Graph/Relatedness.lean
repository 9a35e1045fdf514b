import Slipbox.Proofs.Decimal.Arithmetic
import Slipbox.Proofs.Graph.Keys
import Slipbox.Proofs.Graph.Statistics

/-! Which notes are related to a note, how closely and in which order. A score is computed from the
sizes of two sets, each of which is the same from either side, and stays a positive double, so the
scores can be ordered and two notes are as closely related one way as the other. -/

namespace Slipbox.Graph

open Decimal (UpTo realValue)

variable {g : Graph} {m : Method} {p q : Note} {r : Related}

/-- Where the links of a note lead: the paths that they resolve to, or their own texts. -/
def linkTexts (g : Graph) (n : Note) : List String :=
  n.links.map fun t => (g.resolve? t).getD t

/-- The notes have a key in common that the method looks at. -/
def SharesKey (g : Graph) (m : Method) (p q : Note) : Prop :=
  m.usesLinks = true ∧ (keySet (g.linkTexts p) ∩ keySet (g.linkTexts q)).Nonempty ∨
    m.usesTags = true ∧ (keySet p.tags ∩ keySet q.tags).Nonempty

/-- What a kind of keys adds to the score of two notes. -/
def contribution (used : Bool) (texts texts' : List String) : Float :=
  if used then share (keySet texts) (keySet texts') else 0

/-- What is shown for a kind of keys: texts for the common ones, just where they are looked at and
there are any. -/
structure Found (used : Bool) (texts texts' : List String) (shown : Option (List String)) :
    Prop where
  isSome_iff : shown.isSome = true ↔ used = true ∧ (keySet texts ∩ keySet texts').Nonempty
  evidence : ∀ l, shown = some l → Evidence texts texts' l

/-- What is reported of the note behind `r` is how it relates to `p`. -/
structure Relates (g : Graph) (m : Method) (p : Note) (r : Related) : Prop where
  links : Found m.usesLinks (g.linkTexts p) (g.linkTexts r.note) r.links
  tags : Found m.usesTags p.tags r.note.tags r.tags
  score : r.score = contribution m.usesLinks (g.linkTexts p) (g.linkTexts r.note) +
    contribution m.usesTags p.tags r.note.tags

section Compare

theorem of_linkKeys (g : Graph) (n : Note) : Keys.Of (g.linkTexts n) (g.linkKeys n) :=
  Keys.of_ofTexts _

theorem of_tagKeys (n : Note) : Keys.Of n.tags (tagKeys n) :=
  (Keys.of_ofTexts n.sortedTags).of_perm (List.mergeSort_perm _ _)

/-- One kind of keys, where it is used. -/
theorem found_overlap {texts texts' : List String} {a b : Keys} (ha : Keys.Of texts a)
    (hb : Keys.Of texts' b) (used : Bool) :
    Found used texts texts' ((if used then overlap? a b else none).map (·.shown)) := by
  have hcommon := overlap?_eq ha hb
  cases used with
  | false => exact ⟨by simp, nofun⟩
  | true =>
      rw [if_pos rfl, hcommon]
      split
      · next hnone => exact ⟨by simp [hnone], nofun⟩
      · next hsome =>
        refine ⟨by simpa [Finset.nonempty_iff_ne_empty] using hsome, ?_⟩
        rintro _ ⟨⟩
        exact ha.evidence hb

/-- What it adds to a score. -/
theorem score_overlap {texts texts' : List String} {a b : Keys} (ha : Keys.Of texts a)
    (hb : Keys.Of texts' b) (used : Bool) :
    (if used then overlap? a b else none).elim 0 Overlap.score =
      contribution used texts texts' := by
  cases used with
  | false => rfl
  | true =>
      rw [if_pos rfl, overlap?_eq ha hb, contribution, if_pos rfl]
      split
      · next hnone => rw [share, if_pos hnone, Option.elim_none]
      · rfl

theorem compare?_eq (g : Graph) (m : Method) (p q : Note) :
    ∃ links tags, Found m.usesLinks (g.linkTexts p) (g.linkTexts q) links ∧
      Found m.usesTags p.tags q.tags tags ∧
      g.compare? m p q = if links.isNone && tags.isNone then none else
        some ⟨q, contribution m.usesLinks (g.linkTexts p) (g.linkTexts q) +
          contribution m.usesTags p.tags q.tags, links, tags⟩ := by
  have hlinks := found_overlap (of_linkKeys g p) (of_linkKeys g q) m.usesLinks
  have htags := found_overlap (of_tagKeys p) (of_tagKeys q) m.usesTags
  refine ⟨_, _, hlinks, htags, ?_⟩
  rw [← score_overlap (of_linkKeys g p) (of_linkKeys g q),
    ← score_overlap (of_tagKeys p) (of_tagKeys q)]
  simp only [compare?, Option.isNone_map]
  generalize (if m.usesLinks = true then _ else none : Option Overlap) = links
  generalize (if m.usesTags = true then _ else none : Option Overlap) = tags
  cases links <;> cases tags <;> rfl

theorem Found.lengths {used : Bool} {texts texts' : List String} {shown : Option (List String)}
    (h : Found used texts texts' shown) : shown.map List.length =
      if used = true ∧ (keySet texts ∩ keySet texts').Nonempty then
        some (keySet texts ∩ keySet texts').card else none := by
  simp only [← h.isSome_iff]
  cases shown with
  | none => rfl
  | some l => exact congrArg some (h.evidence l rfl).length

/-- Another note is reported just where it shares a key. -/
theorem compare?_isSome : (g.compare? m p q).isSome = true ↔ SharesKey g m p q := by
  obtain ⟨links, tags, hlinks, htags, hcompare⟩ := compare?_eq g m p q
  rw [hcompare, SharesKey, ← hlinks.isSome_iff, ← htags.isSome_iff]
  cases links <;> cases tags <;> simp

theorem sharesKey_of_compare? (h : g.compare? m p q = some r) : g.SharesKey m p q :=
  compare?_isSome.mp (by rw [h, Option.isSome_some])

theorem relates_of_compare? (h : g.compare? m p q = some r) : r.note = q ∧ Relates g m p r := by
  obtain ⟨links, tags, hlinks, htags, hcompare⟩ := compare?_eq g m p q
  rw [hcompare] at h
  split at h
  · cases h
  · cases h
    exact ⟨rfl, hlinks, htags, rfl⟩

end Compare

section Score

/-- A score is a share or nothing. -/
theorem contribution_upTo {used : Bool} {texts texts' : List String}
    (hsize : texts.length + texts'.length ≤ 2 ^ 65)
    (h : used = true ∧ (keySet texts ∩ keySet texts').Nonempty) :
    UpTo 1 (contribution used texts texts') := by
  obtain ⟨rfl, hcommon⟩ := h
  have hcard (texts : List String) : (keySet texts).card ≤ texts.length := by
    rw [keySet, ← List.length_map (f := Text.lowercase)]
    exact List.toFinset_card_le _
  have hall : (keySet texts ∪ keySet texts').card ≤ 2 ^ 65 :=
    (Finset.card_union_le _ _).trans ((Nat.add_le_add (hcard _) (hcard _)).trans hsize)
  rw [contribution, if_pos rfl, share, if_neg (Finset.nonempty_iff_ne_empty.mp hcommon)]
  exact Decimal.upTo_share (Finset.card_pos.mpr hcommon)
    (Finset.card_le_card Finset.inter_subset_union) hall

theorem contribution_eq_zero {used : Bool} {texts texts' : List String}
    (h : ¬ (used = true ∧ (keySet texts ∩ keySet texts').Nonempty)) :
    contribution used texts texts' = 0 := by
  rw [contribution, share]
  split
  · next hused =>
    rw [if_pos (Finset.not_nonempty_iff_eq_empty.mp fun hcommon => h ⟨hused, hcommon⟩)]
  · rfl

/-- A score lies between zero and one, or two where both kinds of keys are looked at. -/
theorem score_upTo (hsize : p.links.length + q.links.length ≤ 2 ^ 65)
    (hsize' : p.tags.length + q.tags.length ≤ 2 ^ 65) (h : SharesKey g m p q) :
    UpTo (if m = .both then 2 else 1)
      (contribution m.usesLinks (g.linkTexts p) (g.linkTexts q) +
        contribution m.usesTags p.tags q.tags) := by
  have hlinks : (g.linkTexts p).length + (g.linkTexts q).length ≤ 2 ^ 65 := by
    rwa [linkTexts, linkTexts, List.length_map, List.length_map]
  have hone {x : Float} (hx : UpTo 1 x) : UpTo (if m = .both then 2 else 1) x :=
    hx.mono (by split <;> norm_num)
  by_cases hl : m.usesLinks = true ∧ (keySet (g.linkTexts p) ∩ keySet (g.linkTexts q)).Nonempty
  · have hx := contribution_upTo hlinks hl
    by_cases ht : m.usesTags = true ∧ (keySet p.tags ∩ keySet q.tags).Nonempty
    · have hboth : m = .both := by cases m <;> simp_all [Method.usesLinks, Method.usesTags]
      rw [if_pos hboth]
      exact hx.add_ones (contribution_upTo hsize' ht)
    · rw [contribution_eq_zero ht, hx.add_zero]
      exact hone hx
  · have hx := contribution_upTo hsize' (h.resolve_left hl)
    rw [contribution_eq_zero hl, hx.zero_add]
    exact hone hx

end Score

section Order

/-- A result stands before another one: by its score or, where these are equal, by the bytes of its
path. -/
def Related.Ahead (a b : Related) : Prop :=
  b.score < a.score ∨ a.score = b.score ∧ Text.bytes a.note.path < Text.bytes b.note.path

theorem Related.before_iff {a b : Related} {x : ℚ} (ha : UpTo x a.score) (hb : UpTo x b.score) :
    a.before b = true ↔ realValue b.score < realValue a.score ∨
      realValue b.score = realValue a.score ∧ a.note.path ≤ b.note.path := by
  simp only [before, Bool.or_eq_true, Bool.and_eq_true, decide_eq_true_eq, hb.lt_iff ha,
    hb.beq_iff ha]

/-- Positive scores leave a list of notes with paths of their own in one order only. -/
theorem ahead_mergeSort {l : List Related} {x : ℚ} (hscores : ∀ r ∈ l, UpTo x r.score)
    (hpaths : (l.map fun r => r.note.path).Nodup) :
    (l.mergeSort Related.before).Pairwise Related.Ahead := by
  have hsorted : (l.mergeSort Related.before).Pairwise fun a b => a.before b = true := by
    refine pairwise_mergeSort_of_mem (fun a ha b hb c hc => ?_) fun a ha b hb => ?_
    · rw [Related.before_iff (hscores a ha) (hscores b hb),
        Related.before_iff (hscores b hb) (hscores c hc),
        Related.before_iff (hscores a ha) (hscores c hc)]
      rintro (hab | ⟨hab, hpath⟩) (hbc | ⟨hbc, hpath'⟩)
      · exact .inl (hbc.trans hab)
      · exact .inl (hbc ▸ hab)
      · exact .inl (hab ▸ hbc)
      · exact .inr ⟨hbc.trans hab, hpath.trans hpath'⟩
    · rw [Bool.or_eq_true, Related.before_iff (hscores a ha) (hscores b hb),
        Related.before_iff (hscores b hb) (hscores a ha)]
      rcases lt_trichotomy (realValue a.score) (realValue b.score) with hlt | heq | hgt
      · exact .inr (.inl hlt)
      · exact (le_total a.note.path b.note.path).imp (fun h => .inr ⟨heq.symm, h⟩)
          fun h => .inr ⟨heq, h⟩
      · exact .inl (.inl hgt)
  -- sorting leaves only notes level that have one path, and there are no two of these
  have hdistinct : (l.mergeSort Related.before).Pairwise fun a b => a.note.path ≠ b.note.path :=
    List.pairwise_map.mp (((List.mergeSort_perm _ _).map _).nodup_iff.mpr hpaths)
  refine (hsorted.and hdistinct).imp_of_mem fun ha hb ⟨hab, hne⟩ => ?_
  rw [List.mem_mergeSort] at ha hb
  rcases (Related.before_iff (hscores _ ha) (hscores _ hb)).mp hab with hlt | ⟨heq, hle⟩
  · exact .inl (((hscores _ hb).lt_iff (hscores _ ha)).mpr hlt)
  · exact .inr ⟨((hscores _ hb).eq_of_realValue (hscores _ ha) heq).symm,
      Text.bytes_lt_iff.mpr (lt_of_le_of_ne hle hne)⟩

end Order

section Ranking

/-- The notes related to a note, in no order. -/
def candidates (g : Graph) (p : Note) (m : Method) : List Related :=
  (g.notes.filter fun n => n.path != p.path).filterMap (g.compare? m p)

theorem mem_candidates :
    r ∈ g.candidates p m ↔ ∃ q ∈ g.notes, q.path ≠ p.path ∧ g.compare? m p q = some r := by
  simp [candidates, and_assoc]

theorem map_note_candidates (g : Graph) (p : Note) (m : Method) :
    (g.candidates p m).map Related.note =
      (g.notes.filter fun n => n.path != p.path).filter fun q => (g.compare? m p q).isSome := by
  rw [candidates]
  induction g.notes.filter fun n => n.path != p.path with
  | nil => rfl
  | cons q qs ih =>
      cases h : g.compare? m p q with
      | none => rw [List.filterMap_cons_none h, ih, List.filter_cons_of_neg (by simp [h])]
      | some r =>
          rw [List.filterMap_cons_some h, List.map_cons, ih, (relates_of_compare? h).1,
            List.filter_cons_of_pos (by simp [h])]

variable (hpaths : (g.notes.map Note.path).Nodup)

include hpaths

theorem related_eq_take (hp : p ∈ g.notes) (limit : Nat) :
    g.related p.path m limit = ((g.candidates p m).mergeSort Related.before).take limit := by
  rw [related, note?_of_mem hpaths hp]
  rfl

theorem paths_candidates_nodup : ((g.candidates p m).map fun r => r.note.path).Nodup := by
  have hsame : (g.candidates p m).map (fun r => r.note.path) =
      ((g.candidates p m).map Related.note).map Note.path := by
    rw [List.map_map]
    rfl
  rw [hsame, map_note_candidates]
  exact hpaths.sublist ((List.filter_sublist.trans List.filter_sublist).map _)

theorem mem_candidates_note (hp : p ∈ g.notes) :
    q ∈ (g.candidates p m).map Related.note ↔ q ∈ g.notes ∧ q ≠ p ∧ g.SharesKey m p q := by
  rw [map_note_candidates, List.mem_filter, List.mem_filter, compare?_isSome, bne_iff_ne, and_assoc]
  refine and_congr_right fun hq => and_congr_left' (not_congr ⟨fun h => ?_, congrArg _⟩)
  exact List.inj_on_of_nodup_map hpaths hq hp h

/-- In a graph with one note for each path, the notes related to a note are a prefix, of the length
of the limit, of one list: of all other notes that share a key with it, the highest score first and
equal scores in the order of the paths. Each of them is reported with the share of the common keys,
summed over the kinds of keys that are looked at, and with a text for each common key; a score is
positive and at most one, or two for both kinds. A note has no more links and tags than a machine
word counts. -/
theorem related_ranks_sharing_notes (hsize : ∀ n ∈ g.notes,
      n.links.length < 2 ^ 64 ∧ n.tags.length < 2 ^ 64) (hp : p ∈ g.notes) (m : Method) :
    ∃ ranked : List Related,
      (∀ limit, g.related p.path m limit = ranked.take limit) ∧
      ranked.Pairwise Related.Ahead ∧
      (ranked.map Related.note).Nodup ∧
      (∀ q, q ∈ ranked.map Related.note ↔ q ∈ g.notes ∧ q ≠ p ∧ g.SharesKey m p q) ∧
      ∀ r ∈ ranked, Relates g m p r ∧ 0 < r.score ∧ (m ≠ .both → r.score ≤ 1) ∧ r.score ≤ 2 := by
  have hscores : ∀ r ∈ g.candidates p m, Relates g m p r ∧
      UpTo (if m = .both then 2 else 1) r.score := by
    intro r hr
    obtain ⟨q, hq, -, hcompare⟩ := mem_candidates.mp hr
    obtain ⟨rfl, hrelates⟩ := relates_of_compare? hcompare
    have hp_size := hsize p hp
    have hq_size := hsize _ hq
    rw [hrelates.score]
    exact ⟨hrelates, score_upTo (by omega) (by omega) (sharesKey_of_compare? hcompare)⟩
  have hperm := List.mergeSort_perm (g.candidates p m) Related.before
  refine ⟨(g.candidates p m).mergeSort Related.before, related_eq_take hpaths hp,
    ahead_mergeSort (fun r hr => (hscores r hr).2) (paths_candidates_nodup hpaths), ?_, fun q => ?_,
    fun r hr => ?_⟩
  · rw [(hperm.map _).nodup_iff, map_note_candidates]
    exact hpaths.of_map.filter _ |>.filter _
  · rw [(hperm.map _).mem_iff, mem_candidates_note hpaths hp]
  · obtain ⟨hrelates, hscore⟩ := hscores r (hperm.mem_iff.mp hr)
    refine ⟨hrelates, hscore.pos, fun hm => ?_, ?_⟩
    · rw [if_neg hm] at hscore
      exact hscore.le_one
    · exact (hscore.mono (by split <;> norm_num)).le_two

omit hpaths in
/-- Two notes with a common tag in two letter cases. -/
theorem related_ranks_common_tag :
    let note (path : String) (tags : List String) : Note :=
      ⟨⟨path, "Note", none, none, none, none, none, false⟩, "", none, tags, ["lost"]⟩
    let g := ofNotes [note "a.md" ["Rust", "db"], note "b.md" ["rust"], note "c.md" []]
    (g.notes.map Note.path).Nodup ∧
      (∀ n ∈ g.notes, n.links.length < 2 ^ 64 ∧ n.tags.length < 2 ^ 64) ∧
      note "a.md" ["Rust", "db"] ∈ g.notes ∧
      ∃ ranked : List Related, (∀ limit, g.related "a.md" .tags limit = ranked.take limit) ∧
        note "b.md" ["rust"] ∈ ranked.map Related.note ∧
        ∀ r ∈ ranked, Relates g .tags (note "a.md" ["Rust", "db"]) r ∧ 0 < r.score ∧
          r.score ≤ 1 := by
  intro note g
  have hpaths : (g.notes.map Note.path).Nodup := by decide
  have hsize : ∀ n ∈ g.notes, n.links.length < 2 ^ 64 ∧ n.tags.length < 2 ^ 64 := by
    simp [g, note, ofNotes]
  have hp : note "a.md" ["Rust", "db"] ∈ g.notes := List.mem_cons_self
  obtain ⟨ranked, htake, -, -, hmem, hrelates⟩ := related_ranks_sharing_notes hpaths hsize hp .tags
  refine ⟨hpaths, hsize, hp, ranked, htake, (hmem _).mpr ⟨.tail _ (.head _), ?_, ?_⟩,
    fun r hr => ?_⟩
  · simp [note]
  · exact .inr ⟨rfl, "rust", by decide +kernel⟩
  · obtain ⟨hr, hpos, hone, -⟩ := hrelates r hr
    exact ⟨hr, hpos, hone (by decide)⟩

end Ranking

section Symmetry

theorem Found.lengths_symm {used : Bool} {texts texts' : List String}
    {shown shown' : Option (List String)} (h : Found used texts texts' shown)
    (h' : Found used texts' texts shown') : shown.map List.length = shown'.map List.length := by
  rw [h.lengths, h'.lengths, Finset.inter_comm]

theorem contribution_symm (used : Bool) (texts texts' : List String) :
    contribution used texts texts' = contribution used texts' texts := by
  rw [contribution, contribution, share_comm]

theorem SharesKey.symm (h : g.SharesKey m p q) : g.SharesKey m q p := by
  unfold SharesKey at h ⊢
  rwa [Finset.inter_comm (keySet (g.linkTexts q)), Finset.inter_comm (keySet q.tags)]

/-- What one note is to another the other is to the one. -/
theorem compare?_symm (h : g.compare? m p q = some r) :
    ∃ r', g.compare? m q p = some r' ∧ r'.score = r.score ∧
      r'.links.map List.length = r.links.map List.length ∧
      r'.tags.map List.length = r.tags.map List.length := by
  have hshares := (sharesKey_of_compare? h).symm
  obtain ⟨rfl, hrelates⟩ := relates_of_compare? h
  obtain ⟨r', hr'⟩ := Option.isSome_iff_exists.mp (compare?_isSome.mpr hshares)
  obtain ⟨hnote, hrelates'⟩ := relates_of_compare? hr'
  obtain ⟨hlinks, htags, hscore⟩ := hrelates'
  rw [hnote] at hlinks htags hscore
  refine ⟨r', hr', ?_, hlinks.lengths_symm hrelates.links, htags.lengths_symm hrelates.tags⟩
  rw [hscore, hrelates.score, contribution_symm, contribution_symm m.usesTags]

variable {a b : Note} {limit : Nat} (hpaths : (g.notes.map Note.path).Nodup)

include hpaths

theorem mem_related (hp : p ∈ g.notes) (hlimit : g.notes.length ≤ limit) :
    r ∈ g.related p.path m limit ↔
      ∃ q ∈ g.notes, q.path ≠ p.path ∧ g.compare? m p q = some r := by
  have hlength : ((g.candidates p m).mergeSort Related.before).length ≤ limit := by
    rw [List.length_mergeSort]
    exact (List.length_filterMap_le _ _).trans ((List.length_filter_le _ _).trans hlimit)
  rw [related_eq_take hpaths hp, List.take_of_length_le hlength, List.mem_mergeSort, mem_candidates]

theorem related_swap (ha : a ∈ g.notes) (hb : b ∈ g.notes) (hlimit : g.notes.length ≤ limit)
    (hr : r ∈ g.related a.path m limit) (hnote : r.note = b) :
    ∃ r' ∈ g.related b.path m limit, r'.note = a ∧ r'.score = r.score ∧
      r'.links.map List.length = r.links.map List.length ∧
      r'.tags.map List.length = r.tags.map List.length := by
  obtain ⟨q, hq, hne, hcompare⟩ := (mem_related hpaths ha hlimit).mp hr
  obtain rfl : q = b := (relates_of_compare? hcompare).1.symm.trans hnote
  obtain ⟨r', hcompare', hsame⟩ := compare?_symm hcompare
  exact ⟨r', (mem_related hpaths hb hlimit).mpr ⟨a, ha, hne.symm, hcompare'⟩,
    (relates_of_compare? hcompare').1, hsame⟩

/-- In a graph with one note for each path, when no note is cut off, a note is related to another one
as the other one is to it, with the same bits of the score and as many texts to show for it. -/
theorem related_symmetric (ha : a ∈ g.notes) (hb : b ∈ g.notes) (m : Method)
    (hlimit : g.notes.length ≤ limit) (bits : UInt64) (links tags : Option Nat) :
    (∃ r ∈ g.related a.path m limit, r.note = b ∧ r.score.toBits = bits ∧
        r.links.map List.length = links ∧ r.tags.map List.length = tags) ↔
      ∃ r ∈ g.related b.path m limit, r.note = a ∧ r.score.toBits = bits ∧
        r.links.map List.length = links ∧ r.tags.map List.length = tags := by
  constructor
  all_goals
    rintro ⟨r, hr, hnote, rfl, rfl, rfl⟩
  · obtain ⟨r', hr', hnote', hscore, hlinks, htags⟩ := related_swap hpaths ha hb hlimit hr hnote
    exact ⟨r', hr', hnote', congrArg _ hscore, hlinks, htags⟩
  · obtain ⟨r', hr', hnote', hscore, hlinks, htags⟩ := related_swap hpaths hb ha hlimit hr hnote
    exact ⟨r', hr', hnote', congrArg _ hscore, hlinks, htags⟩

omit hpaths in
/-- Two notes with a common tag, each of which is related to the other. -/
theorem related_symmetric_common_tag :
    let note (path : String) (tags : List String) : Note :=
      ⟨⟨path, "Note", none, none, none, none, none, false⟩, "", none, tags, []⟩
    let a := note "a.md" ["Rust", "db"]
    let b := note "b.md" ["rust"]
    let g := ofNotes [a, b]
    (g.notes.map Note.path).Nodup ∧ a ∈ g.notes ∧ b ∈ g.notes ∧ g.notes.length ≤ 2 ∧
      ∃ bits links tags,
        (∃ r ∈ g.related "a.md" .both 2, r.note = b ∧ r.score.toBits = bits ∧
          r.links.map List.length = links ∧ r.tags.map List.length = tags) ∧
        ∃ r ∈ g.related "b.md" .both 2, r.note = a ∧ r.score.toBits = bits ∧
          r.links.map List.length = links ∧ r.tags.map List.length = tags := by
  intro note a b g
  have hpaths : (g.notes.map Note.path).Nodup := by decide
  have ha : a ∈ g.notes := .head _
  have hb : b ∈ g.notes := .tail _ (.head _)
  have hlimit : g.notes.length ≤ 2 := le_rfl
  have hshares : g.SharesKey .both a b := .inr ⟨rfl, "rust", by decide +kernel⟩
  obtain ⟨r, hr⟩ := Option.isSome_iff_exists.mp (compare?_isSome.mpr hshares)
  have hfound : r ∈ g.related a.path .both 2 :=
    (mem_related hpaths ha hlimit).mpr ⟨b, hb, by decide, hr⟩
  have hboth : ∃ r' ∈ g.related a.path .both 2, r'.note = b ∧ r'.score.toBits = r.score.toBits ∧
      r'.links.map List.length = r.links.map List.length ∧
      r'.tags.map List.length = r.tags.map List.length :=
    ⟨r, hfound, (relates_of_compare? hr).1, rfl, rfl, rfl⟩
  exact ⟨hpaths, ha, hb, hlimit, _, _, _, hboth,
    (related_symmetric hpaths ha hb .both hlimit _ _ _).mp hboth⟩

end Symmetry

end Slipbox.Graph
