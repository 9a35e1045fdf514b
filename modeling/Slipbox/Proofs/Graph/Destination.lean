import Slipbox.Proofs.Graph.Relatedness

/-! Which links of two notes count as one. What a link leads to is a note, or else no more than a
text; the keys that links are compared by leave out letter case in either of them. So notes whose
paths differ in nothing else count as one, and so do a note and a lost text that spells its path.
Where no two destinations fall together in this way, common keys are common destinations. -/

namespace Slipbox.Graph

open Decimal (UpTo)

/-- What a link leads to: a note, or else its text, in which letter case does not count. -/
inductive Destination where
  | note (path : String)
  | text (small : String)
  deriving DecidableEq

/-- What links are compared by. -/
def Destination.key : Destination → String
  | .note path => Text.lowercase path
  | .text small => small

def destination (g : Graph) (target : String) : Destination :=
  match g.resolve? target with
  | some path => .note path
  | none => .text (Text.lowercase target)

/-- Where the links of a note lead. -/
def destinations (g : Graph) (n : Note) : Finset Destination :=
  (n.links.map g.destination).toFinset

/-- The number of common members over the number of all members. -/
def jaccard {α : Type} [DecidableEq α] (a b : Finset α) : Float :=
  Float.ofNat (a ∩ b).card / Float.ofNat (a ∪ b).card

/-- The keys of a note's links. -/
def destinationKeys (g : Graph) (n : Note) : Finset String :=
  (g.destinations n).image Destination.key

section Keys

variable {g : Graph} {n a b : Note} {d : Destination}

theorem mem_destinations : d ∈ g.destinations n ↔ ∃ t ∈ n.links, g.destination t = d := by
  rw [destinations, List.mem_toFinset, List.mem_map]

theorem key_destination (g : Graph) (target : String) :
    (g.destination target).key = Text.lowercase ((g.resolve? target).getD target) := by
  unfold destination
  cases g.resolve? target <;> rfl

theorem keySet_linkTexts (g : Graph) (n : Note) : keySet (g.linkTexts n) = g.destinationKeys n := by
  ext key
  simp only [mem_keySet, destinationKeys, Finset.mem_image, mem_destinations, linkTexts,
    List.mem_map, exists_exists_and_eq_and, key_destination]

/-- Common keys come from two links, one of either note. -/
theorem exists_links_of_common_key (h : (g.destinationKeys a ∩ g.destinationKeys b).Nonempty) :
    ∃ t ∈ a.links, ∃ t' ∈ b.links, (g.destination t).key = (g.destination t').key := by
  obtain ⟨key, hkey⟩ := h
  simp only [Finset.mem_inter, destinationKeys, Finset.mem_image, mem_destinations] at hkey
  obtain ⟨⟨_, ⟨t, ht, rfl⟩, rfl⟩, _, ⟨t', ht', rfl⟩, hsame⟩ := hkey
  exact ⟨t, ht, t', ht', hsame.symm⟩

/-- Where no two destinations have one key, the keys of two notes have as much in common as their
destinations. -/
theorem jaccard_destinationKeys
    (h : Set.InjOn Destination.key (g.destinations a ∪ g.destinations b : Finset Destination)) :
    jaccard (g.destinationKeys a) (g.destinationKeys b) =
      jaccard (g.destinations a) (g.destinations b) := by
  have hcommon : (g.destinationKeys a ∩ g.destinationKeys b).card =
      (g.destinations a ∩ g.destinations b).card := by
    rw [Finset.coe_union] at h
    rw [destinationKeys, destinationKeys, ← Finset.image_inter_of_injOn _ _ h,
      Finset.card_image_of_injOn (h.mono fun d hd => .inl (Finset.mem_inter.mp hd).1)]
  have hall : (g.destinationKeys a ∪ g.destinationKeys b).card =
      (g.destinations a ∪ g.destinations b).card := by
    rw [destinationKeys, destinationKeys, ← Finset.image_union, Finset.card_image_of_injOn h]
  rw [jaccard, jaccard, hcommon, hall]

end Keys

section Related

variable {g : Graph} {a : Note} {r : Related} {path : String} {m : Method} {limit : Nat}

/-- What is reported as related has been compared with the note. -/
theorem compare?_of_mem_related (ha : g.note? path = some a) (hr : r ∈ g.related path m limit) :
    r.note ∈ g.notes ∧ g.compare? m a r.note = some r := by
  rw [related, ha] at hr
  obtain ⟨q, hq, hcompare⟩ :=
    List.mem_filterMap.mp (List.mem_mergeSort.mp (List.mem_of_mem_take hr))
  obtain ⟨rfl, -⟩ := relates_of_compare? hcompare
  exact ⟨List.mem_of_mem_filter hq, hcompare⟩

/-- Two notes that are related by their links have links that lead to one key, and the score is the
share of the common keys. If no two of their destinations have one key, then they have links that
lead to one destination, and the score is the share of the common destinations. A note has no more
links than a machine word counts. -/
theorem related_by_destinations (hsize : ∀ n ∈ g.notes, n.links.length < 2 ^ 64)
    (ha : g.note? path = some a) (hr : r ∈ g.related path .links limit) :
    ((∃ t ∈ a.links, ∃ t' ∈ r.note.links, (g.destination t).key = (g.destination t').key) ∧
      r.score = jaccard (g.destinationKeys a) (g.destinationKeys r.note)) ∧
    (Set.InjOn Destination.key (g.destinations a ∪ g.destinations r.note : Finset Destination) →
      (∃ t ∈ a.links, ∃ t' ∈ r.note.links, g.destination t = g.destination t') ∧
        r.score = jaccard (g.destinations a) (g.destinations r.note)) := by
  obtain ⟨hmem, hcompare⟩ := compare?_of_mem_related ha hr
  have hcommon : (keySet (g.linkTexts a) ∩ keySet (g.linkTexts r.note)).Nonempty :=
    (sharesKey_of_compare? hcompare).elim And.right fun htags => Bool.noConfusion htags.1
  have hlengths : (g.linkTexts a).length + (g.linkTexts r.note).length ≤ 2 ^ 65 := by
    have ha_size := hsize a (List.mem_of_find?_eq_some ha)
    have hr_size := hsize r.note hmem
    rw [linkTexts, linkTexts, List.length_map, List.length_map]
    omega
  have hscore : r.score = jaccard (g.destinationKeys a) (g.destinationKeys r.note) := by
    have hpositive : UpTo 1 (contribution true (g.linkTexts a) (g.linkTexts r.note)) :=
      contribution_upTo hlengths ⟨rfl, hcommon⟩
    rw [(relates_of_compare? hcompare).2.score]
    refine hpositive.add_zero.trans ?_
    rw [contribution, if_pos rfl, share, if_neg (Finset.nonempty_iff_ne_empty.mp hcommon),
      keySet_linkTexts, keySet_linkTexts, jaccard]
  rw [keySet_linkTexts, keySet_linkTexts] at hcommon
  obtain ⟨t, ht, t', ht', hkey⟩ := exists_links_of_common_key hcommon
  refine ⟨⟨⟨t, ht, t', ht', hkey⟩, hscore⟩, fun hinjective => ⟨⟨t, ht, t', ht', ?_⟩, ?_⟩⟩
  · refine hinjective ?_ ?_ hkey <;>
      simp only [Finset.coe_union, Set.mem_union, Finset.mem_coe, mem_destinations]
    · exact .inl ⟨t, ht, rfl⟩
    · exact .inr ⟨t', ht', rfl⟩
  · rw [hscore, jaccard_destinationKeys hinjective]

/-- Two notes with links to one note, by its file name and by its path. -/
theorem related_by_destinations_docker :
    let note (path title : String) (links : List String) : Note :=
      ⟨⟨path, title, none, none, none, none, none, false⟩, "", none, [], links⟩
    let a := note "a.md" "One" ["Docker", "lost"]
    let g := ofNotes [a, note "b.md" "Two" ["tech/docker"], note "tech/docker.md" "Whale" []]
    (∀ n ∈ g.notes, n.links.length < 2 ^ 64) ∧ g.note? "a.md" = some a ∧
      ∃ r ∈ g.related "a.md" .links 3, r.note.path = "b.md" ∧
        (∃ t ∈ a.links, ∃ t' ∈ r.note.links, g.destination t = g.destination t') ∧
        r.score = jaccard (g.destinations a) (g.destinations r.note) := by
  intro note a g
  let b := note "b.md" "Two" ["tech/docker"]
  have hpaths : (g.notes.map Note.path).Nodup := by decide
  have hsize : ∀ n ∈ g.notes, n.links.length < 2 ^ 64 := by simp [g, a, note, ofNotes]
  have ha : g.note? "a.md" = some a := note?_of_mem hpaths (p := a) (.head _)
  have hdocker : g.resolve? "Docker" = some "tech/docker.md" := by
    rw [resolve?_eq_search?]
    decide +kernel
  have hpath : g.resolve? "tech/docker" = some "tech/docker.md" := by
    rw [resolve?_eq_search?]
    decide +kernel
  have hlost : g.resolve? "lost" = none := by
    rw [resolve?_eq_search?]
    decide +kernel
  have hsmall : Text.lowercase "lost" = "lost" := by decide +kernel
  have hfirst : g.destinations a = {.note "tech/docker.md", .text "lost"} := by
    simp [destinations, destination, a, note, hdocker, hlost, hsmall]
  have hsecond : g.destinations b = {.note "tech/docker.md"} := by
    simp [destinations, destination, b, note, hpath]
  have hshares : g.SharesKey .links a b := by
    refine .inl ⟨rfl, "tech/docker.md", ?_⟩
    rw [keySet_linkTexts, keySet_linkTexts, destinationKeys, destinationKeys, hfirst, hsecond]
    decide +kernel
  obtain ⟨r, hcompare⟩ := Option.isSome_iff_exists.mp (compare?_isSome.mpr hshares)
  have hr : r ∈ g.related a.path .links 3 :=
    (mem_related hpaths (.head _) le_rfl).mpr ⟨b, .tail _ (.head _), by decide, hcompare⟩
  have hnote : r.note = b := (relates_of_compare? hcompare).1
  have hinjective : Set.InjOn Destination.key
      (g.destinations a ∪ g.destinations r.note : Finset Destination) := by
    rw [hnote, hfirst, hsecond]
    decide +kernel
  exact ⟨hsize, ha, r, hr, by rw [hnote]; rfl, (related_by_destinations hsize ha hr).2 hinjective⟩

/-- Links to two notes count as one where the paths differ in letter case only. -/
theorem related_by_spelling_of_path :
    let note (path title : String) (links : List String) : Note :=
      ⟨⟨path, title, none, none, none, none, none, false⟩, "", none, [], links⟩
    let a := note "a.md" "One" ["X.md"]
    let b := note "b.md" "Two" ["x.md"]
    let g := ofNotes [note "X.md" "Three" [], a, b, note "x.md" "Four" []]
    (∃ r ∈ g.related "a.md" .links 4, r.note = b) ∧
      g.resolve? "X.md" = some "X.md" ∧ g.resolve? "x.md" = some "x.md" ∧
      ∀ t ∈ a.links, ∀ t' ∈ b.links, g.destination t ≠ g.destination t' := by
  intro note a b g
  have hpaths : (g.notes.map Note.path).Nodup := by decide
  have hlarge : g.resolve? "X.md" = some "X.md" := by
    rw [resolve?_eq_search?]
    decide +kernel
  have hsmall : g.resolve? "x.md" = some "x.md" := by
    rw [resolve?_eq_search?]
    decide +kernel
  have hfirst : g.destinations a = {.note "X.md"} := by
    simp [destinations, destination, a, note, hlarge]
  have hsecond : g.destinations b = {.note "x.md"} := by
    simp [destinations, destination, b, note, hsmall]
  have hshares : g.SharesKey .links a b := by
    refine .inl ⟨rfl, "x.md", ?_⟩
    rw [keySet_linkTexts, keySet_linkTexts, destinationKeys, destinationKeys, hfirst, hsecond]
    decide +kernel
  obtain ⟨r, hcompare⟩ := Option.isSome_iff_exists.mp (compare?_isSome.mpr hshares)
  have hr : r ∈ g.related a.path .links 4 :=
    (mem_related hpaths (.tail _ (.head _)) le_rfl).mpr
      ⟨b, .tail _ (.tail _ (.head _)), by decide, hcompare⟩
  refine ⟨⟨r, hr, (relates_of_compare? hcompare).1⟩, hlarge, hsmall, ?_⟩
  simp [a, b, note, destination, hlarge, hsmall]

end Related

end Slipbox.Graph
