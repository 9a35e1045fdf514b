import Slipbox.Proofs.Graph.Links

/-! Walks in the other direction. Every step along a link is a step back for whoever follows what
comes in, and a step ahead for whoever follows both; so a walk along links can be gone back, and the
distances of the other traversals are no larger. They may be smaller, since coming in counts notes
that a link only names. -/

namespace Slipbox.Graph

section Reverse

variable {α : Type} {next next' : α → List α} {a b c : α} {n : Nat}

/-- A step in front of a walk. -/
theorem Reaches.cons (hstep : b ∈ next a) (h : Reaches next b n c) :
    Reaches next a (n + 1) c := by
  induction h with
  | start => exact .step .start hstep
  | step _ hlast ih => exact .step ih hlast

theorem Reaches.mono (hnext : ∀ a b, b ∈ next a → b ∈ next' a) (h : Reaches next a n b) :
    Reaches next' a n b := by
  induction h with
  | start => exact .start
  | step _ hstep ih => exact .step ih (hnext _ _ hstep)

/-- Where every step can be taken back, a walk can be gone from its end to its start. -/
theorem Reaches.reverse (hback : ∀ a b, b ∈ next a → a ∈ next' b) (h : Reaches next a n b) :
    Reaches next' b n a := by
  induction h with
  | start => exact .start
  | step _ hstep ih => exact ih.cons (hback _ _ hstep)

end Reverse

variable {g : Graph} {d : Direction} {a b : String}

theorem mem_neighbours_of_outgoing (hd : d.followsOutgoing = true)
    (h : b ∈ g.neighbours .outgoing a) : b ∈ g.neighbours d a := by
  rcases mem_neighbours.mp h with ⟨-, hedge⟩ | ⟨hin, -⟩
  · exact mem_neighbours.mpr (.inl ⟨hd, hedge⟩)
  · cases hin

/-- The end of a link is a neighbour that leads back to the link's source. -/
theorem mem_neighbours_back (hd : d.followsIncoming = true)
    (h : b ∈ g.neighbours .outgoing a) : a ∈ g.neighbours d b := by
  rcases mem_neighbours.mp h with ⟨-, e, he, hsource, -, hdest⟩ | ⟨hin, -⟩
  · exact mem_neighbours.mpr (.inr ⟨hd, e, he, hdest, hsource⟩)
  · cases hin

/-- The traversal from a start has a visit of the note at this depth. -/
def Reports (g : Graph) (start : String) (d : Direction) (depth : Nat) (path : String)
    (distance : Nat) : Prop :=
  ∃ v ∈ g.traverse start d depth, v.note.path = path ∧ v.depth = distance

section Notes

variable {notes : List Note} {start path : String} {depth n : Nat}

/-- What is visited is another note, and some walk of that many steps leads to it. -/
theorem reaches_of_reports (h : (ofNotes notes).Reports start d depth path n) :
    path ≠ start ∧ n ≤ depth ∧ Reaches ((ofNotes notes).neighbours d) start n path := by
  obtain ⟨v, hv, rfl, rfl⟩ := h
  obtain ⟨-, hne, -, hdepth, hdistance⟩ :=
    ((traverse_spec notes start d depth).mem_iff v.note v.depth).mp ⟨v, hv, rfl, rfl⟩
  exact ⟨hne, hdepth, hdistance.reaches⟩

/-- A note to which a walk leads is visited after no more steps than the walk has. -/
theorem reports_of_reaches (hne : path ≠ start) (hn : n ≤ depth)
    (h : Reaches ((ofNotes notes).neighbours d) start n path) :
    ∃ m ≤ n, (ofNotes notes).Reports start d depth path m := by
  obtain ⟨m, hm, hdistance⟩ := h.exists_distance
  obtain ⟨k, rfl⟩ : ∃ k, m = k + 1 := Nat.exists_eq_succ_of_ne_zero fun hzero =>
    hne (isDistance_zero.mp (hzero ▸ hdistance))
  obtain ⟨p, hp⟩ := Option.isSome_iff_exists.mp (has_of_reaches notes hdistance.reaches).2
  obtain rfl := path_of_note? hp
  obtain ⟨v, hv, rfl, hdepth⟩ := ((traverse_spec notes start d depth).mem_iff p (k + 1)).mpr
    ⟨hp, hne, by omega, by omega, hdistance⟩
  exact ⟨k + 1, hm, v, hv, rfl, hdepth⟩

/-- A note that a traversal along the links reports is reported no deeper when both directions are
followed, and so is the start when one goes back from that note, against the links or in both
directions. -/
theorem outgoing_reports_reverse (notes : List Note) (depth : Nat) {a b : String} {n : Nat}
    (h : (ofNotes notes).Reports a .outgoing depth b n) :
    (∃ m ≤ n, (ofNotes notes).Reports b .incoming depth a m) ∧
      (∃ m ≤ n, (ofNotes notes).Reports a .both depth b m) ∧
      ∃ m ≤ n, (ofNotes notes).Reports b .both depth a m := by
  obtain ⟨hne, hn, hwalk⟩ := reaches_of_reports h
  have hback (d : Direction) (hd : d.followsIncoming = true) :
      ∃ m ≤ n, (ofNotes notes).Reports b d depth a m :=
    reports_of_reaches hne.symm hn (hwalk.reverse fun _ _ => mem_neighbours_back hd)
  refine ⟨hback .incoming rfl, ?_, hback .both rfl⟩
  exact reports_of_reaches hne hn (hwalk.mono fun _ _ => mem_neighbours_of_outgoing rfl)

/-- A chain of two links, gone to its end and back. -/
theorem outgoing_reports_reverse_chain :
    let note (path title : String) (links : List String) : Note :=
      ⟨⟨path, title, none, none, none, none, none, false⟩, "", none, [], links⟩
    let g := ofNotes [note "a.md" "One" ["b"], note "b.md" "Two" ["c"], note "c.md" "Three" []]
    ∃ n ≤ 2, g.Reports "a.md" .outgoing 2 "c.md" n ∧
      (∃ m ≤ n, g.Reports "c.md" .incoming 2 "a.md" m) ∧
      (∃ m ≤ n, g.Reports "a.md" .both 2 "c.md" m) ∧
      ∃ m ≤ n, g.Reports "c.md" .both 2 "a.md" m := by
  intro note g
  have hpaths : (g.notes.map Note.path).Nodup := by decide
  have hb : g.resolve? "b" = some "b.md" := by
    rw [resolve?_eq_search?]
    decide +kernel
  have hc : g.resolve? "c" = some "c.md" := by
    rw [resolve?_eq_search?]
    decide +kernel
  have hfirst : "b.md" ∈ g.neighbours .outgoing "a.md" :=
    (mem_neighbours_outgoing hpaths (s := note "a.md" "One" ["b"]) (.head _)).mpr
      ⟨"b", .head _, hb⟩
  have hsecond : "c.md" ∈ g.neighbours .outgoing "b.md" :=
    (mem_neighbours_outgoing hpaths (s := note "b.md" "Two" ["c"]) (.tail _ (.head _))).mpr
      ⟨"c", .head _, hc⟩
  obtain ⟨n, hn, hreports⟩ := reports_of_reaches (by decide) le_rfl
    (.step (.step .start hfirst) hsecond)
  exact ⟨n, hn, hreports, outgoing_reports_reverse _ 2 hreports⟩

end Notes

end Slipbox.Graph
