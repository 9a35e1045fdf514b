import Mathlib
import Slipbox.Proofs.Graph.Resolution
import Slipbox.Proofs.Graph.Traversal
import Slipbox.Proofs.Sorted
import Slipbox.Proofs.Text.Sigma

/-! The edges between notes, exactly. A link has an edge to the note it resolves to, and one to
every other note that it names. Two lookups make them, and neither contains the other: the end of a
path resolves without naming the note, and a text in other letter case names a note that it may not
resolve to. -/

namespace Slipbox

namespace Graph

theorem Lookup.mem_positions_ofList {keys : List String} {key : String} {i : Nat} :
    i ∈ (ofList keys).positions key ↔ keys[i]? = some key := by
  have hfrom (start : Nat) : i ∈ (ofListFrom start keys).positions key ↔
      start ≤ i ∧ keys[i - start]? = some key := by
    induction keys generalizing start with
    | nil => simp [ofListFrom, positions_empty]
    | cons k keys ih =>
        have hfirst : i ∈ (ofListFrom start (k :: keys)).positions key ↔
            (k = key ∧ i = start) ∨ (start < i ∧ keys[i - (start + 1)]? = some key) := by
          have hrest := ih (start + 1)
          rw [Nat.succ_le_iff] at hrest
          rw [ofListFrom, positions_enter, ← hrest]
          split
          · next hkey => simp only [List.mem_cons, hkey, true_and]
          · next hkey => simp only [hkey, false_and, false_or]
        rw [hfirst]
        rcases Nat.lt_trichotomy i start with hi | rfl | hi
        · simp only [Nat.ne_of_lt hi, Nat.lt_asymm hi, Nat.not_le_of_lt hi, and_false, false_and,
            or_false]
        · simp only [Nat.lt_irrefl, Nat.le_refl, Nat.sub_self, List.getElem?_cons_zero,
            Option.some.injEq, and_true, true_and, false_and, or_false]
        · have hnext : i - start = i - (start + 1) + 1 := by omega
          rw [hnext, List.getElem?_cons_succ]
          simp only [Nat.ne_of_gt hi, hi, Nat.le_of_lt hi, and_false, true_and, false_or]
  rw [ofList, hfrom, Nat.sub_zero]
  exact and_iff_right (Nat.zero_le i)

/-- Whether a text names a note by path, title or file name in any letter case. -/
def Mentions (target : String) (n : Note) : Prop :=
  let small := Text.lower (Text.trim target.toList)
  Text.trim target.toList ≠ [] ∧
    (small = Text.lower n.path.toList ∨ small = Text.lower n.info.title.toList ∨
      stripExtension small = Text.lower (stripExtension (fileName n.path.toList)))

instance (target : String) (n : Note) : Decidable (Mentions target n) :=
  inferInstanceAs (Decidable (_ ∧ _))

section Notes

variable {notes : List Note}

theorem paths_resolver : (ofNotes notes).resolver.paths = notes.map Note.path := by
  simp only [ofNotes, Resolver.ofNotes, List.map_map]
  rfl

theorem mem_mentioned {target : String} {i : Nat} :
    i ∈ (ofNotes notes).resolver.mentioned target ↔
      ∃ n, notes[i]? = some n ∧ Mentions target n := by
  unfold Resolver.mentioned Mentions
  cases hsmall : Text.lower (Text.trim target.toList) with
  | nil => simp [Text.lower_eq_nil.mp hsmall]
  | cons c cs =>
      have htrim : Text.trim target.toList ≠ [] := by
        intro hnil
        rw [hnil] at hsmall
        cases hsmall
      simp only [List.mem_mergeSort, List.mem_eraseDups, List.mem_append, ofNotes, Resolver.ofNotes,
        Lookup.mem_positions_ofList, List.map_map, List.getElem?_map, Option.map_eq_some_iff,
        Function.comp_apply, Text.lowercase, stemKey, String.ofList_inj, or_assoc, ← exists_or,
        ← and_or_left]
      simp only [htrim, ne_eq, not_false_eq_true, true_and, eq_comm]

theorem mentioned_nodup (r : Resolver) (target : String) : (r.mentioned target).Nodup := by
  unfold Resolver.mentioned
  split
  · exact .nil
  · exact (List.mergeSort_perm _ _).nodup_iff.mpr (nodup_eraseDups _)

theorem resolve?_eq_search? (target : String) :
    (ofNotes notes).resolve? target =
      (search? (notes.map fun n => (n.path, n.info.title)) target).bind fun i =>
        (notes.map Note.path)[i]? := by
  rw [resolve?, Resolver.resolve?, paths_resolver, ← Resolver.position?_eq_search?]
  rfl

/-- With one note for each path, the path to which a link resolves tells the position of the
note. -/
theorem resolve?_eq_path (hpaths : (notes.map Note.path).Nodup) {i : Nat} {n : Note}
    (hn : notes[i]? = some n) (target : String) :
    (ofNotes notes).resolve? target = some n.path ↔
      (ofNotes notes).resolver.position? target = some i := by
  have hi : (notes.map Note.path)[i]? = some n.path := by
    rw [List.getElem?_map, hn, Option.map_some]
  rw [resolve?, Resolver.resolve?, paths_resolver, Option.bind_eq_some_iff]
  constructor
  · rintro ⟨j, hj, hpath⟩
    have hlt : j < (notes.map Note.path).length := (List.getElem?_eq_some_iff.mp hpath).1
    rw [hj, (List.getElem?_inj hlt hpaths).mp (hpath.trans hi.symm)]
  · intro hposition
    exact ⟨i, hposition, hi⟩

/-- The paths of the notes that a link names besides the one that it resolves to. -/
def Resolver.others (r : Resolver) (target : String) : List String :=
  ((r.mentioned target).filter fun i => r.position? target != some i).filterMap fun i => r.paths[i]?

theorem edgesOfLink_eq (r : Resolver) (source target : String) :
    edgesOfLink r source target =
      (r.resolve? target).toList.map (fun dest => ⟨source, dest, .resolves, target⟩) ++
        (r.others target).map fun dest => ⟨source, dest, .mentions, target⟩ := by
  rw [edgesOfLink, Resolver.others, List.map_filterMap, Resolver.resolve?]
  congr 1
  cases r.position? target with
  | none => rfl
  | some i => cases hpath : r.paths[i]? <;> simp [hpath]

theorem mem_others (hpaths : (notes.map Note.path).Nodup) {target path : String} :
    path ∈ (ofNotes notes).resolver.others target ↔
      ∃ n ∈ notes, n.path = path ∧ Mentions target n ∧
        (ofNotes notes).resolve? target ≠ some n.path := by
  simp only [Resolver.others, List.mem_filterMap, List.mem_filter, mem_mentioned, paths_resolver,
    List.getElem?_map, Option.map_eq_some_iff, bne_iff_ne]
  constructor
  · rintro ⟨i, ⟨⟨n, hn, hmentions⟩, hother⟩, m, hm, rfl⟩
    obtain rfl : n = m := Option.some.inj (hn.symm.trans hm)
    refine ⟨n, List.mem_of_getElem? hn, rfl, hmentions, ?_⟩
    rwa [Ne, resolve?_eq_path hpaths hn]
  · rintro ⟨n, hmem, rfl, hmentions, hother⟩
    obtain ⟨i, hn⟩ := List.mem_iff_getElem?.mp hmem
    rw [Ne, resolve?_eq_path hpaths hn] at hother
    exact ⟨i, ⟨⟨n, hn, hmentions⟩, hother⟩, n, hn, rfl⟩

theorem others_nodup (hpaths : (notes.map Note.path).Nodup) (target : String) :
    ((ofNotes notes).resolver.others target).Nodup := by
  refine List.Nodup.filterMap (fun i j path hi hj => ?_) ((mentioned_nodup _ target).filter _)
  rw [paths_resolver, Option.mem_def] at hi hj
  exact (List.getElem?_inj (List.getElem?_eq_some_iff.mp hi).1 hpaths).mp (hi.trans hj.symm)

theorem length_others (hpaths : (notes.map Note.path).Nodup) (target : String) :
    ((ofNotes notes).resolver.others target).length =
      notes.countP fun n => Mentions target n ∧ (ofNotes notes).resolve? target ≠ some n.path := by
  rw [List.countP_eq_length_filter, ← List.length_map (f := Note.path)]
  refine List.Perm.length_eq ((List.perm_ext_iff_of_nodup (others_nodup hpaths target)
    (hpaths.sublist (List.filter_sublist.map _))).mpr fun path => ?_)
  simp only [mem_others hpaths, List.mem_map, List.mem_filter, decide_eq_true_eq]
  grind

theorem edges_ofNotes : (ofNotes notes).edges =
    notes.flatMap fun s => s.links.flatMap (edgesOfLink (ofNotes notes).resolver s.path) := rfl

/-- An edge stands for a stored link, which resolves to the note at its end or else names it. -/
theorem mem_edges (hpaths : (notes.map Note.path).Nodup) {e : Edge} :
    e ∈ (ofNotes notes).edges ↔ ∃ s ∈ notes, s.path = e.source ∧ e.target ∈ s.links ∧
      (e.kind = .resolves ∧ (ofNotes notes).resolve? e.target = some e.dest ∨
        e.kind = .mentions ∧ ∃ n ∈ notes, n.path = e.dest ∧ Mentions e.target n ∧
          (ofNotes notes).resolve? e.target ≠ some n.path) := by
  simp only [edges_ofNotes, List.mem_flatMap, edgesOfLink_eq, List.mem_append, List.mem_map,
    Option.mem_toList, mem_others hpaths]
  constructor
  · rintro ⟨s, hs, target, htarget, ⟨dest, hdest, rfl⟩ | ⟨dest, hother, rfl⟩⟩
    · exact ⟨s, hs, rfl, htarget, Or.inl ⟨rfl, hdest⟩⟩
    · exact ⟨s, hs, rfl, htarget, Or.inr ⟨rfl, hother⟩⟩
  · obtain ⟨source, dest, kind, target⟩ := e
    rintro ⟨s, hs, rfl, htarget, ⟨rfl, hdest⟩ | ⟨rfl, hother⟩⟩
    · exact ⟨s, hs, target, htarget, Or.inl ⟨dest, hdest, rfl⟩⟩
    · exact ⟨s, hs, target, htarget, Or.inr ⟨dest, hother, rfl⟩⟩

theorem length_edges (hpaths : (notes.map Note.path).Nodup) :
    (ofNotes notes).edges.length =
      (notes.flatMap Note.links).countP (fun t => ((ofNotes notes).resolve? t).isSome) +
        ((notes.flatMap Note.links).map fun t => notes.countP fun n =>
          Mentions t n ∧ (ofNotes notes).resolve? t ≠ some n.path).sum := by
  have hlink (source target : String) :
      (edgesOfLink (ofNotes notes).resolver source target).length =
        ((ofNotes notes).resolve? target).toList.length +
          notes.countP fun n =>
            Mentions target n ∧ (ofNotes notes).resolve? target ≠ some n.path := by
    rw [edgesOfLink_eq, List.length_append, List.length_map, List.length_map,
      length_others hpaths]
    rfl
  have hcount (targets : List String) :
      (targets.map fun t => ((ofNotes notes).resolve? t).toList.length).sum =
        targets.countP fun t => ((ofNotes notes).resolve? t).isSome := by
    induction targets with
    | nil => rfl
    | cons t targets ih =>
        rw [List.map_cons, List.sum_cons, ih, List.countP_cons, Nat.add_comm]
        cases (ofNotes notes).resolve? t <;> rfl
  rw [← hcount, ← List.sum_map_add, edges_ofNotes, List.length_flatMap, List.map_flatMap,
    List.flatMap_def, List.sum_flatten, List.map_map]
  simp only [List.length_flatMap, hlink, Function.comp_def]

/-- The links that come in at a note, where a link may be stored at any note. -/
theorem mem_incoming {g : Graph} {path : String} {l : Link} :
    l ∈ g.incoming path ↔ ∃ e ∈ g.edges, e.dest = path ∧ g.linkOf e.source e.target = l := by
  simp only [incoming, edgesInto, List.mem_eraseDups, List.mem_mergeSort, List.mem_map,
    List.mem_filter, beq_iff_eq, and_assoc]

theorem mem_incoming_note (hpaths : (notes.map Note.path).Nodup) {p : Note} (hp : p ∈ notes)
    {l : Link} :
    l ∈ (ofNotes notes).incoming p.path ↔ l.resolved = (ofNotes notes).resolve? l.target ∧
      ∃ s ∈ notes, s.path = l.source ∧ l.target ∈ s.links ∧
        ((ofNotes notes).resolve? l.target = some p.path ∨ Mentions l.target p) := by
  rw [mem_incoming]
  simp only [mem_edges hpaths]
  constructor
  · rintro ⟨e, ⟨s, hs, hsource, htarget, hkind⟩, hdest, rfl⟩
    refine ⟨rfl, s, hs, hsource, htarget, ?_⟩
    rcases hkind with ⟨_, hresolved⟩ | ⟨_, n, hn, hpath, hmentions, _⟩
    · exact Or.inl (hdest ▸ hresolved)
    · have hsame : n = p := List.inj_on_of_nodup_map hpaths hn hp (hpath.trans hdest)
      exact Or.inr (hsame ▸ hmentions)
  · obtain ⟨source, target, resolved⟩ := l
    rintro ⟨hlink, s, hs, rfl, htarget, hnamed⟩
    dsimp only at hlink htarget hnamed
    subst hlink
    by_cases hresolved : (ofNotes notes).resolve? target = some p.path
    · exact ⟨⟨s.path, p.path, .resolves, target⟩,
        ⟨s, hs, rfl, htarget, Or.inl ⟨rfl, hresolved⟩⟩, rfl, rfl⟩
    · exact ⟨⟨s.path, p.path, .mentions, target⟩,
        ⟨s, hs, rfl, htarget, Or.inr ⟨rfl, p, hp, rfl, hnamed.resolve_left hresolved, hresolved⟩⟩,
        rfl, rfl⟩

theorem mem_neighbours_outgoing (hpaths : (notes.map Note.path).Nodup) {s : Note} (hs : s ∈ notes)
    {path : String} :
    path ∈ (ofNotes notes).neighbours .outgoing s.path ↔
      ∃ t ∈ s.links, (ofNotes notes).resolve? t = some path := by
  simp only [mem_neighbours, Direction.followsOutgoing, Direction.followsIncoming, true_and,
    Bool.false_eq_true, false_and, or_false, mem_edges hpaths]
  constructor
  · rintro ⟨e, ⟨s', hs', hsource, htarget, hkind⟩, hpath, hresolves, rfl⟩
    have hsame : s' = s := List.inj_on_of_nodup_map hpaths hs' hs (hsource.trans hpath)
    rcases hkind with ⟨_, hdest⟩ | ⟨hmentions, _⟩
    · exact ⟨e.target, hsame ▸ htarget, hdest⟩
    · rw [hresolves] at hmentions
      cases hmentions
  · rintro ⟨target, htarget, hdest⟩
    exact ⟨⟨s.path, path, .resolves, target⟩, ⟨s, hs, rfl, htarget, Or.inl ⟨rfl, hdest⟩⟩, rfl, rfl,
      rfl⟩

end Notes

theorem mem_neighbours_incoming {g : Graph} {path source : String} :
    source ∈ g.neighbours .incoming path ↔ ∃ l ∈ g.incoming path, l.source = source := by
  simp only [mem_neighbours, Direction.followsOutgoing, Direction.followsIncoming, true_and,
    Bool.false_eq_true, false_and, false_or, mem_incoming]
  constructor
  · rintro ⟨e, he, hdest, hsource⟩
    exact ⟨_, ⟨e, he, hdest, rfl⟩, hsource⟩
  · rintro ⟨_, ⟨e, he, hdest, rfl⟩, hsource⟩
    exact ⟨e, he, hdest, hsource⟩

/-- By source, and then by target. -/
def Link.Before (a b : Link) : Prop :=
  a.source < b.source ∨ a.source = b.source ∧ a.target < b.target

theorem Link.le_iff {a b : Link} :
    a.le b = true ↔ a.source < b.source ∨ a.source = b.source ∧ a.target ≤ b.target := by
  simp [le]

/-- What comes in at a note is in order, and nothing comes in twice. -/
theorem incoming_sorted (g : Graph) (path : String) :
    (g.incoming path).Pairwise Link.Before := by
  have hle : (g.incoming path).Pairwise fun a b => a.le b = true := by
    refine List.Pairwise.sublist (eraseDups_sublist _) (List.pairwise_mergeSort ?_ ?_ _)
    · simp only [Link.le_iff]
      grind
    · simp only [Bool.or_eq_true, Link.le_iff]
      grind
  refine (hle.and (nodup_eraseDups _)).imp_of_mem fun {a b} ha hb ⟨hab, hne⟩ => ?_
  have hresolved {l : Link} (hl : l ∈ g.incoming path) : l = g.linkOf l.source l.target := by
    obtain ⟨_, _, _, rfl⟩ := mem_incoming.mp hl
    rfl
  refine (Link.le_iff.mp hab).imp_right fun ⟨hsource, htarget⟩ =>
    ⟨hsource, Std.lt_of_le_of_ne htarget fun hsame => hne ?_⟩
  rw [hresolved ha, hresolved hb, hsource, hsame]

theorem neighbours_sorted (g : Graph) (d : Direction) (path : String) :
    (g.neighbours d path).Pairwise (· < ·) := by
  have hle : (g.neighbours d path).Pairwise (· ≤ ·) :=
    List.Pairwise.sublist (eraseDups_sublist _) (pairwise_mergeSort_text id _)
  exact (hle.and (nodup_eraseDups _)).imp fun hab => Std.lt_of_le_of_ne hab.1 hab.2

/-- Links in the graph of notes with one note for each path. What comes in at a note are the links
that resolve to it or name it, in order and each once; going out from a note leads to what its links
resolve to. Every stored link has one edge if it resolves, and one for each other note it names. -/
theorem edges_exact (notes : List Note) (hpaths : (notes.map Note.path).Nodup) :
    let g := ofNotes notes
    (∀ p ∈ notes,
      (∀ l, l ∈ g.incoming p.path ↔ l.resolved = g.resolve? l.target ∧
        ∃ s ∈ notes, s.path = l.source ∧ l.target ∈ s.links ∧
          (g.resolve? l.target = some p.path ∨ Mentions l.target p)) ∧
      (g.incoming p.path).Pairwise Link.Before ∧
      ∀ path, path ∈ g.neighbours .incoming p.path ↔ ∃ l ∈ g.incoming p.path, l.source = path) ∧
    (∀ s ∈ notes, ∀ path, path ∈ g.neighbours .outgoing s.path ↔
      ∃ t ∈ s.links, g.resolve? t = some path) ∧
    (∀ d path, (g.neighbours d path).Pairwise (· < ·)) ∧
    g.edges.length =
      (notes.flatMap Note.links).countP (fun t => (g.resolve? t).isSome) +
        ((notes.flatMap Note.links).map fun t => notes.countP fun p =>
          Mentions t p ∧ g.resolve? t ≠ some p.path).sum := by
  intro g
  exact ⟨fun p hp => ⟨fun l => mem_incoming_note hpaths hp, incoming_sorted g p.path,
    fun path => mem_neighbours_incoming⟩, fun s hs path => mem_neighbours_outgoing hpaths hs,
    neighbours_sorted g, length_edges hpaths⟩

/-- The end of a path resolves without naming the note, and a file name names more than one note. -/
theorem edges_exact_suffix :
    let note (path title : String) (links : List String) : Note :=
      ⟨⟨path, title, none, none, none, none, none, false⟩, "", none, [], links⟩
    let y := note "a/b/y.md" "One" ["x"]
    let notes := [y, note "a/x.md" "Two" ["b/y"], note "c/x.md" "Three" []]
    let g := ofNotes notes
    (notes.map Note.path).Nodup ∧
      ⟨"a/x.md", "b/y", some "a/b/y.md"⟩ ∈ g.incoming "a/b/y.md" ∧ ¬ Mentions "b/y" y ∧
      ⟨"a/b/y.md", "x", some "a/x.md"⟩ ∈ g.incoming "c/x.md" ∧ g.edges.length = 3 := by
  intro note y notes g
  have hpaths : (notes.map Note.path).Nodup := by decide
  have hy : g.resolve? "b/y" = some "a/b/y.md" := by
    rw [resolve?_eq_search?]
    decide +kernel
  have hx : g.resolve? "x" = some "a/x.md" := by
    rw [resolve?_eq_search?]
    decide +kernel
  obtain ⟨hincoming, _, _, hedges⟩ := edges_exact notes hpaths
  refine ⟨hpaths, ?_, by decide +kernel, ?_, ?_⟩
  · refine ((hincoming y (by simp [notes])).1 _).mpr ⟨hy.symm, note "a/x.md" "Two" ["b/y"], ?_⟩
    exact ⟨by simp [notes], rfl, by simp [note], Or.inl hy⟩
  · refine ((hincoming (note "c/x.md" "Three" []) (by simp [notes])).1 _).mpr ⟨hx.symm, y, ?_⟩
    exact ⟨by simp [notes], rfl, by simp [y, note], Or.inr (by decide +kernel)⟩
  · rw [hedges]
    change ["x", "b/y"].countP (fun t => (g.resolve? t).isSome) +
      (["x", "b/y"].map fun t => notes.countP fun p =>
        Mentions t p ∧ g.resolve? t ≠ some p.path).sum = 3
    simp only [List.countP_cons, List.countP_nil, List.map_cons, List.map_nil, hx, hy]
    decide +kernel

end Graph

end Slipbox
