import Slipbox.Proofs.Graph.Spelling
import Slipbox.Proofs.Graph.Statistics

/-! Broken links that come in at a note. What names a note by its title or its file name resolves;
what names it by its path does, too, unless the path falls apart. -/

namespace Slipbox.Graph

section Notes

variable {notes : List Note} {target : String}

theorem resolve?_isSome_of_names {n : Note} (hn : n ∈ notes)
    (htarget : Text.trim target.toList ≠ []) {r : Rule}
    (hnames : r.Names (Text.trim target.toList) (n.path, n.info.title)) :
    ((ofNotes notes).resolve? target).isSome = true := by
  rw [Option.isSome_iff_ne_none, Ne, resolve?_eq_none, ← Ne, ← Option.isSome_iff_ne_none]
  exact Resolver.position?_isSome.mpr ⟨htarget, r, _, List.mem_map_of_mem hn, hnames⟩

/-- A target that does not resolve names just the notes whose paths fall apart and are what it
spells. -/
theorem mentions_iff_of_unresolved {n : Note} (hn : n ∈ notes)
    (hnone : (ofNotes notes).resolve? target = none) :
    Mentions target n ↔ FoldsApart n.path.toList ∧
      Text.lower (Text.trim target.toList) = Text.lower n.path.toList := by
  have hlost {r : Rule} (htarget : Text.trim target.toList ≠ []) :
      ¬ r.Names (Text.trim target.toList) (n.path, n.info.title) := by
    intro hnames
    have hsome := resolve?_isSome_of_names hn htarget hnames
    rw [hnone] at hsome
    cases hsome
  constructor
  · rintro ⟨htarget, hpath | htitle | hstem⟩
    · refine ⟨?_, hpath⟩
      by_contra hwhole
      exact hlost htarget ((Rule.names_of_lower_eq (n.path, _) hpath).mpr hwhole)
    · exact absurd htitle.symm (hlost (r := .title) htarget)
    · have hslash : '/' ∉ Text.trim target.toList := by
        rw [← slash_mem_key, hstem, Text.slash_mem_lower, slash_mem_stripExtension]
        exact slash_notMem_fileName n.path.toList
      exact absurd ((Rule.names_of_no_slash (n.path, _) hslash).mpr hstem.symm) (hlost htarget)
  · rintro ⟨hapart, hpath⟩
    refine ⟨fun hnil => ?_, .inl hpath⟩
    obtain ⟨base, ext, happend, hbase, _⟩ := hapart
    rw [hnil, eq_comm, show Text.lower [] = [] from rfl, Text.lower_eq_nil, happend,
      List.append_eq_nil_iff] at hpath
    exact hbase hpath.1

theorem mem_others_of_unresolved {path : String} (hnone : (ofNotes notes).resolve? target = none) :
    path ∈ (ofNotes notes).resolver.others target ↔
      ∃ n ∈ notes, n.path = path ∧ Mentions target n := by
  simp only [Resolver.others, resolve?_eq_none.mp hnone, List.mem_filterMap, List.mem_filter,
    mem_mentioned, paths_resolver, List.getElem?_map, Option.map_eq_some_iff]
  constructor
  · rintro ⟨i, ⟨⟨n, hn, hmentions⟩, _⟩, m, hm, rfl⟩
    obtain rfl : n = m := Option.some.inj (hn.symm.trans hm)
    exact ⟨n, List.mem_of_getElem? hn, rfl, hmentions⟩
  · rintro ⟨n, hmem, rfl, hmentions⟩
    obtain ⟨i, hn⟩ := List.mem_iff_getElem?.mp hmem
    exact ⟨i, ⟨⟨n, hn, hmentions⟩, rfl⟩, n, hn, rfl⟩

/-- A stored link that does not resolve comes in at the notes that it names. -/
theorem exists_incoming_of_unresolved {s : Note} (hs : s ∈ notes) (htarget : target ∈ s.links)
    (hnone : (ofNotes notes).resolve? target = none) {path : String} :
    (∃ l ∈ (ofNotes notes).incoming path, l.source = s.path ∧ l.target = target) ↔
      ∃ n ∈ notes, n.path = path ∧ Mentions target n := by
  simp only [mem_incoming, edges_ofNotes, List.mem_flatMap, edgesOfLink_eq, List.mem_append,
    List.mem_map, ← mem_others_of_unresolved hnone]
  constructor
  · rintro ⟨l, ⟨e, ⟨m, _, t, _, he⟩, hdest, hl⟩, _, htext⟩
    have het : e.target = target := by rw [← htext, ← hl]; rfl
    rcases he with ⟨dest, hresolved, rfl⟩ | ⟨dest, hother, rfl⟩
    · change t = target at het
      rw [het, Option.mem_toList] at hresolved
      exact absurd (hresolved.symm.trans hnone) (Option.some_ne_none dest)
    · change t = target at het
      rwa [het, show dest = path from hdest] at hother
  · intro hother
    exact ⟨_, ⟨⟨s.path, path, .mentions, target⟩,
      ⟨s, hs, target, htarget, .inr ⟨path, hother, rfl⟩⟩, rfl, rfl⟩, rfl, rfl⟩

end Notes

theorem mem_broken {g : Graph} {l : Link} :
    l ∈ g.broken none ↔
      ∃ s ∈ g.notes, ∃ t ∈ s.links, g.resolve? t = none ∧ g.linkOf s.path t = l := by
  have hunder (path : String) : under none path = true := rfl
  simp only [broken, hunder, List.filter_true, List.mem_flatMap, List.mem_filter, List.mem_map]
  constructor
  · rintro ⟨s, hs, ⟨t, ht, rfl⟩, hnone⟩
    exact ⟨s, hs, t, ht, Option.isNone_iff_eq_none.mp hnone, rfl⟩
  · rintro ⟨s, hs, t, ht, hnone, rfl⟩
    exact ⟨s, hs, ⟨t, ht, rfl⟩, Option.isNone_iff_eq_none.mpr hnone⟩

theorem mentioned_eq_nil_of_unresolved {notes : List Note} {target : String}
    (hnone : (ofNotes notes).resolve? target = none) :
    (ofNotes notes).resolver.mentioned target = [] ↔ ∀ n ∈ notes, FoldsApart n.path.toList →
      Text.lower (Text.trim target.toList) ≠ Text.lower n.path.toList := by
  simp only [List.eq_nil_iff_forall_not_mem, mem_mentioned, not_exists, not_and]
  constructor
  · intro h n hn hapart hspelled
    obtain ⟨i, hi⟩ := List.mem_iff_getElem?.mp hn
    exact h i n hi ((mentions_iff_of_unresolved hn hnone).mpr ⟨hapart, hspelled⟩)
  · intro h i n hi hmentions
    have hn := List.mem_of_getElem? hi
    obtain ⟨hapart, hspelled⟩ := (mentions_iff_of_unresolved hn hnone).mp hmentions
    exact h n hn hapart hspelled

/-- No broken link comes in at a note if and only if every stored link resolves that spells, in some
letter case, a path that falls apart. What names a note resolves if and only if that holds of all
targets. -/
theorem broken_comes_in_iff (notes : List Note) :
    let g := ofNotes notes
    ((∀ l ∈ g.broken none, ∀ path, ∀ l' ∈ g.incoming path,
        ¬ (l'.source = l.source ∧ l'.target = l.target)) ↔
      ∀ s ∈ notes, ∀ t ∈ s.links, ∀ n ∈ notes, FoldsApart n.path.toList →
        Text.lower (Text.trim t.toList) = Text.lower n.path.toList →
          (g.resolve? t).isSome = true) ∧
    ((∀ t, g.resolver.mentioned t ≠ [] → (g.resolve? t).isSome = true) ↔
      ∀ t, ∀ n ∈ notes, FoldsApart n.path.toList →
        Text.lower (Text.trim t.toList) = Text.lower n.path.toList →
          (g.resolve? t).isSome = true) := by
  intro g
  constructor
  · constructor
    · intro hlaw s hs t ht n hn hapart hspelled
      by_contra hnone
      rw [Option.isSome_iff_ne_none, not_not] at hnone
      have hmentions := (mentions_iff_of_unresolved hn hnone).mpr ⟨hapart, hspelled⟩
      obtain ⟨l', hl', hsame⟩ :=
        (exists_incoming_of_unresolved hs ht hnone).mpr ⟨n, hn, rfl, hmentions⟩
      exact hlaw _ (mem_broken.mpr ⟨s, hs, t, ht, hnone, rfl⟩) n.path l' hl' hsame
    · intro hresolves l hl path l' hl' hsame
      obtain ⟨s, hs, t, ht, hnone, rfl⟩ := mem_broken.mp hl
      obtain ⟨n, hn, _, hmentions⟩ :=
        (exists_incoming_of_unresolved hs ht hnone).mp ⟨l', hl', hsame⟩
      obtain ⟨hapart, hspelled⟩ := (mentions_iff_of_unresolved hn hnone).mp hmentions
      have hsome := hresolves s hs t ht n hn hapart hspelled
      rw [hnone] at hsome
      cases hsome
  · refine forall_congr' fun t => ?_
    cases hresolved : g.resolve? t with
    | some path => simp
    | none =>
        have hnames := mentioned_eq_nil_of_unresolved hresolved
        simp only [Option.isSome_none, Bool.false_eq_true, imp_false, not_not, ne_eq] at hnames ⊢
        exact hnames

/-- A link that spells a path with a sigma before its extension is broken and comes in at the note
all the same. -/
theorem broken_comes_in_with_sigma :
    let note (path title : String) (links : List String) : Note :=
      ⟨⟨path, title, none, none, none, none, none, false⟩, "", none, [], links⟩
    let notes := [note "b.md" "Two" ["ασ.md"], note "ΑΣ.md" "One" []]
    let g := ofNotes notes
    let l : Link := ⟨"b.md", "ασ.md", none⟩
    l ∈ g.broken none ∧ l ∈ g.incoming "ΑΣ.md" ∧ g.resolver.mentioned "ασ.md" ≠ [] := by
  intro note notes g l
  have hnone : g.resolve? "ασ.md" = none := by
    rw [resolve?_eq_search?]
    decide +kernel
  have hmentions : Mentions "ασ.md" (note "ΑΣ.md" "One" []) := by decide +kernel
  have hmentioned : 1 ∈ g.resolver.mentioned "ασ.md" := mem_mentioned.mpr ⟨_, rfl, hmentions⟩
  refine ⟨?_, ?_, List.ne_nil_of_mem hmentioned⟩
  · refine mem_broken.mpr ⟨note "b.md" "Two" ["ασ.md"], by simp [g, ofNotes, notes], "ασ.md", ?_⟩
    refine ⟨by simp [note], hnone, ?_⟩
    rw [linkOf, hnone]
    rfl
  · have hpaths : (notes.map Note.path).Nodup := by decide
    have hp : note "ΑΣ.md" "One" [] ∈ notes := by simp [notes]
    refine (mem_incoming_note hpaths hp).mpr ⟨hnone.symm, note "b.md" "Two" ["ασ.md"], ?_⟩
    exact ⟨by simp [notes], rfl, by simp [l, note], .inr hmentions⟩

end Slipbox.Graph
