import Slipbox.Proofs.Graph.Statistics
import Slipbox.Proofs.Query.RoundTrip
import Slipbox.Proofs.Query.Selection
import Slipbox.Proofs.Text.Bytes

/-! The notes under a start of a path. A query compares as many characters of a path as its source
has, and the views of the graph look for the start at the head of the path. Both pick the paths
whose bytes begin with those of the start, unless the start has a null character: the query does not
look behind it, and picks none. -/

namespace Slipbox

namespace Graph

variable {g : Graph} {start : Option String}

theorem mem_notes_of_mem_orphans {kind : OrphanKind} {n : Note} (h : n ∈ g.orphans kind start) :
    n ∈ g.notes :=
  (mem_orphans.mp h).1

/-- A broken link has its source among the notes. -/
theorem exists_note_of_mem_broken {l : Link} (h : l ∈ g.broken start) :
    ∃ n ∈ g.notes, n.path = l.source := by
  obtain ⟨n, hn, hl⟩ := List.mem_flatMap.mp h
  obtain ⟨target, -, rfl⟩ := List.mem_map.mp (List.mem_of_mem_filter hl)
  exact ⟨n, List.mem_of_mem_filter hn, rfl⟩

theorem orphans_under (kind : OrphanKind) :
    g.orphans kind start = (g.orphans kind none).filter fun n => under start n.path := by
  rw [orphans, orphans, List.filter_comm]
  congr 2
  exact (List.filter_true _).symm

/-- What the kept ones bring is what is kept of all that is brought. -/
theorem flatMap_filter_eq {α β : Type} {f : α → List β} {q : α → Bool} {p : β → Bool}
    (h : ∀ a, ∀ b ∈ f a, p b = q a) (as : List α) :
    (as.filter q).flatMap f = (as.flatMap f).filter p := by
  induction as with
  | nil => rfl
  | cons a as ih =>
      rw [List.flatMap_cons, List.filter_append, ← ih]
      cases hq : q a with
      | true =>
          have hall : ∀ b ∈ f a, p b = true := fun b hb => (h a b hb).trans hq
          rw [List.filter_cons_of_pos hq, List.flatMap_cons, List.filter_eq_self.mpr hall]
      | false =>
          have hnone : ∀ b ∈ f a, ¬ p b = true := fun b hb => by simp [h a b hb, hq]
          rw [List.filter_cons_of_neg (Bool.eq_false_iff.mp hq), List.filter_eq_nil_iff.mpr hnone,
            List.nil_append]

theorem broken_under : g.broken start = (g.broken none).filter fun l => under start l.source := by
  have hall : (g.notes.filter fun n => under none n.path) = g.notes := List.filter_true _
  rw [broken, broken, hall]
  refine flatMap_filter_eq (fun n l hl => ?_) g.notes
  obtain ⟨target, -, rfl⟩ := List.mem_map.mp (List.mem_of_mem_filter hl)
  rfl

theorem map_path_notes (ix : Index) : ((ofIndex ix).notes.map Note.path).Perm ix.paths := by
  rw [← ix.map_path_all]
  exact (List.mergeSort_perm _ _).map Note.path

end Graph

namespace Query

/-- The query for the notes under a start of a path. -/
def sourceQuery (start : String) (limit : Nat) : Query :=
  { bare .list with
    source := some start
    limit := some limit }

/-- The query as text, with the start in quotes. -/
def sourceQueryText (start : String) (limit : Nat) : String :=
  (sourceQuery start limit).print [.source start, .limit limit]

example : sourceQueryText "Zürich/\"a\"" 10 = "LIST FROM \"Zürich/\\\"a\\\"\" LIMIT 10" := by
  decide +kernel

theorem parse_sourceQueryText (start : String) {limit : Nat} (hlimit : limit ≤ 2 ^ 53) :
    parse (sourceQueryText start limit) = .ok (sourceQuery start limit) := by
  have hexpressible : (sourceQuery start limit).Expressible :=
    { fields := by rintro _ ⟨⟩
      condition := by rintro _ ⟨⟩
      order := by rintro _ ⟨⟩
      limit := by
        rintro _ ⟨⟩
        exact hlimit }
  refine parse_layout hexpressible (.refl _) ?_
  rw [sourceQueryText, print, String.toList_ofList]
  exact layout_spaced _

/-- A source is compared as a whole, as it has fewer characters than the largest integer. -/
theorem isFrom_iff {start : String} (hsize : start.utf8ByteSize ≤ Sql.maxTextSize) {row : NoteRow} :
    isFrom start row ↔ start.toList <+: Sql.beforeNull row.path := by
  have hlength : start.length ≤ maxInteger := by
    rw [← String.length_toList]
    refine (Text.length_le_byteLength start.toList).trans ?_
    rw [Text.byteLength_toList]
    exact hsize.trans (by decide)
  rw [isFrom, Nat.min_eq_left hlength, List.prefix_iff_eq_take, eq_comm, String.length_toList]

theorem isFrom_iff_under {start : String} (hsize : start.utf8ByteSize ≤ Sql.maxTextSize)
    (hstart : '\x00' ∉ start.toList) {row : NoteRow} :
    isFrom start row ↔ Graph.under (some start) row.path = true := by
  rw [Graph.under_some, decide_eq_true_iff]
  refine ⟨prefix_of_isFrom, fun ⟨rest, hrest⟩ => (isFrom_iff hsize).mpr ?_⟩
  have hkept : ∀ c ∈ start.toList, (c != '\x00') = true := fun c hc =>
    bne_iff_ne.mpr fun hnull => hstart (hnull ▸ hc)
  rw [Sql.beforeNull, ← hrest, List.takeWhile_append_of_pos hkept]
  exact List.prefix_append _ _

theorem not_isFrom_of_null {start : String} (hsize : start.utf8ByteSize ≤ Sql.maxTextSize)
    (hstart : '\x00' ∈ start.toList) (row : NoteRow) : ¬ isFrom start row := fun hfrom =>
  Sql.null_not_mem_beforeNull _ (((isFrom_iff hsize).mp hfrom).subset hstart)

theorem accepted_sourceQuery {start : String} (hsize : start.utf8ByteSize ≤ Sql.maxTextSize)
    (limit : Nat) : (sourceQuery start limit).Accepted where
  depth := Nat.le_of_ble_eq_true rfl
  tests := Nat.zero_le _
  source := by
    rintro _ ⟨⟩
    exact hsize
  patterns := nofun
  texts := nofun

/-- The report has one row for each path that the source admits. -/
theorem run_sourceQuery {start : String} (hsize : start.utf8ByteSize ≤ Sql.maxTextSize)
    {limit : Nat} {ix : Index} (hlimit : ix.notes.rows.length ≤ min limit maxInteger)
    (defaultLimit : Nat) (admitted : String → Bool)
    (hadmitted : ∀ row, isFrom start row ↔ admitted row.path = true) :
    ∃ r, run (sourceQuery start limit) ix defaultLimit = .ok r ∧
      r.rows.length = r.paths.length ∧ r.paths.Perm (ix.paths.filter admitted) := by
  obtain ⟨t, htranslate⟩ : ∃ t, (sourceQuery start limit).translate defaultLimit = .ok t :=
    ⟨_, rfl⟩
  obtain ⟨s, f, c, d, h⟩ := stated_of_translate htranslate
  obtain ⟨fields, hfields⟩ := h.fields
  have hkeeps : ix.notes.rows.filter (s.keeps t.params (.ofIndex ix)) =
      ix.notes.rows.filter fun row => admitted row.path := by
    refine List.filter_congr fun row _ => ?_
    rw [Bool.eq_iff_iff, h.keeps]
    exact hadmitted row
  have hreported := rows_paths hfields h.columns h.selected (sourceQuery start limit).shape
    (t.fields.map Field.name) ix
  refine ⟨_, h.run_eq htranslate ((accepted_sourceQuery hsize limit).not_refused htranslate ix),
    ?_, ?_⟩
  · rw [hreported, t.rows_ofIndex h.selected, List.length_map, List.length_map]
  · rw [hreported, Sql.Select.rows, h.cap, List.take_of_length_le, Index.paths, List.filter_map]
    · refine ((List.mergeSort_perm _ _).map NoteRow.path).trans ?_
      exact .of_eq (congrArg _ hkeeps)
    · rw [List.length_mergeSort]
      exact (List.length_filter_le _ _).trans hlimit

/-- A report of the notes under a start of a path: there is one row for each of them, their paths
are those that begin with the bytes of the start, and a view of the graph under this start is what
the view of the whole graph has of them. -/
structure Lists (r : Report) (ix : Index) (start : String) : Prop where
  rows : r.rows.length = r.paths.length
  candidates : r.paths.Perm
    (((Graph.ofIndex ix).notes.filter fun n => Graph.under (some start) n.path).map Note.path)
  bytes : ∀ path, path ∈ r.paths ↔ path ∈ ix.paths ∧ Text.bytes start <+: Text.bytes path
  orphans : ∀ kind, (Graph.ofIndex ix).orphans kind (some start) =
    ((Graph.ofIndex ix).orphans kind none).filter fun n => n.path ∈ r.paths
  broken : (Graph.ofIndex ix).broken (some start) =
    ((Graph.ofIndex ix).broken none).filter fun l => l.source ∈ r.paths

theorem lists_of_perm {r : Report} {ix : Index} {start : String}
    (hrows : r.rows.length = r.paths.length)
    (hperm : r.paths.Perm (ix.paths.filter fun path => Graph.under (some start) path)) :
    Lists r ix start := by
  have hmem {path : String} (hpath : path ∈ ix.paths) :
      Graph.under (some start) path = decide (path ∈ r.paths) := by
    rw [Bool.eq_iff_iff, decide_eq_true_iff, hperm.mem_iff, List.mem_filter]
    exact (and_iff_right hpath).symm
  have hnote {n : Note} (hn : n ∈ (Graph.ofIndex ix).notes) : n.path ∈ ix.paths :=
    (Graph.map_path_notes ix).mem_iff.mp (List.mem_map_of_mem hn)
  refine ⟨hrows, ?_, fun path => ?_, fun kind => ?_, ?_⟩
  · refine hperm.trans (((Graph.map_path_notes ix).symm.filter _).trans (.of_eq ?_))
    rw [List.filter_map]
    rfl
  · rw [hperm.mem_iff, List.mem_filter, Graph.under_some, decide_eq_true_iff,
      Text.bytes_prefix_iff]
  · rw [Graph.orphans_under]
    exact List.filter_congr fun n hn => hmem (hnote (Graph.mem_notes_of_mem_orphans hn))
  · rw [Graph.broken_under]
    refine List.filter_congr fun l hl => ?_
    obtain ⟨n, hn, hsource⟩ := Graph.exists_note_of_mem_broken hl
    exact hmem (hsource ▸ hnote hn)

/-- A query for the notes under a start of a path without null characters returns those that the
graph takes for candidates under this start, however the query is written. For a start with a null
character it returns none. The start is not too large for a value, and the notes are not more than
the largest integer counts. -/
theorem sourceQuery_lists (start : String) {limit : Nat} {ix : Index}
    (hsize : start.utf8ByteSize ≤ Sql.maxTextSize)
    (hlimit : ix.notes.rows.length ≤ min limit maxInteger) (defaultLimit : Nat) :
    ∃ r, run (sourceQuery start limit) ix defaultLimit = .ok r ∧
      ('\x00' ∉ start.toList → Lists r ix start) ∧
      ('\x00' ∈ start.toList → r.rows = []) ∧
      (∀ text, parse text = .ok (sourceQuery start limit) →
        runText text ix defaultLimit = .ok r) ∧
      (limit ≤ 2 ^ 53 → parse (sourceQueryText start limit) = .ok (sourceQuery start limit)) := by
  have htexts {r : Report} (hrun : run (sourceQuery start limit) ix defaultLimit = .ok r) :
      (∀ text, parse text = .ok (sourceQuery start limit) → runText text ix defaultLimit = .ok r) ∧
        (limit ≤ 2 ^ 53 → parse (sourceQueryText start limit) = .ok (sourceQuery start limit)) := by
    refine ⟨fun text htext => ?_, parse_sourceQueryText start⟩
    rw [runText, htext]
    exact hrun
  by_cases hstart : '\x00' ∈ start.toList
  · obtain ⟨r, hrun, hrows, hperm⟩ := run_sourceQuery hsize hlimit defaultLimit
      (fun _ => false) fun row => iff_of_false (not_isFrom_of_null hsize hstart row)
        Bool.false_ne_true
    rw [List.filter_false, List.perm_nil] at hperm
    rw [hperm, List.length_nil, List.length_eq_zero_iff] at hrows
    exact ⟨r, hrun, fun hnone => absurd hstart hnone, fun _ => hrows, htexts hrun⟩
  · obtain ⟨r, hrun, hrows, hperm⟩ := run_sourceQuery hsize hlimit defaultLimit _
      fun row => isFrom_iff_under hsize hstart
    exact ⟨r, hrun, fun _ => lists_of_perm hrows hperm, fun hnull => absurd hnull hstart,
      htexts hrun⟩

/-- The start ends with a letter of two bytes, and a path that has another case is not under it. -/
theorem sourceQuery_lists_umlaut :
    let note (path : String) (links : List String) : Note :=
      ⟨⟨path, "Note", none, none, none, none, none, false⟩, "", none, [], links⟩
    let ix := Index.empty.upsertAll [note "Zü/a.md" ["gone"], note "zü/b.md" ["gone"], note "Z" []]
    ∃ r, run (sourceQuery "Zü" 3) ix 100 = .ok r ∧ Lists r ix "Zü" ∧
      runText "LIST FROM \"Zü\" LIMIT 3" ix 100 = .ok r ∧
      "Zü/a.md" ∈ r.paths ∧ "zü/b.md" ∉ r.paths ∧ "Z" ∉ r.paths := by
  intro note ix
  have hstored : ix.paths = ["Zü/a.md", "zü/b.md", "Z"] := rfl
  have hsize : "Zü".utf8ByteSize ≤ Sql.maxTextSize := by decide +kernel
  have hlimit : ix.notes.rows.length ≤ min 3 maxInteger := by decide +kernel
  obtain ⟨r, hrun, hlists, -, htext, hparse⟩ := sourceQuery_lists "Zü" hsize hlimit 100
  have hlists := hlists (by decide +kernel)
  have hwritten : sourceQueryText "Zü" 3 = "LIST FROM \"Zü\" LIMIT 3" := by decide +kernel
  rw [hwritten] at hparse
  refine ⟨r, hrun, hlists, htext _ (hparse (by norm_num)), ?_, ?_, ?_⟩ <;>
  · rw [hlists.bytes, hstored]
    decide +kernel

/-- A path with a null character is under a start that has it too, but the query misses it. -/
theorem sourceQuery_misses_path_behind_null :
    let path := "a\x00b.md"
    let start := "a\x00"
    let ix := Index.empty.upsertAll
      [⟨⟨path, "Note", none, none, none, none, none, false⟩, "", none, [], []⟩]
    path ∈ ix.paths ∧ Graph.under (some start) path = true ∧
      Text.bytes start <+: Text.bytes path ∧
      ∃ r, run (sourceQuery start 3) ix 100 = .ok r ∧ path ∉ r.paths := by
  intro path start ix
  have hsize : start.utf8ByteSize ≤ Sql.maxTextSize := by decide +kernel
  have hunder : Graph.under (some start) path = true := by decide +kernel
  have hlimit : ix.notes.rows.length ≤ min 3 maxInteger := by decide +kernel
  obtain ⟨r, hrun, -, hperm⟩ := run_sourceQuery hsize hlimit 100 (fun _ => false) fun row =>
    iff_of_false (not_isFrom_of_null hsize (by decide +kernel) row) Bool.false_ne_true
  rw [List.filter_false, List.perm_nil] at hperm
  refine ⟨List.mem_singleton_self _, hunder, by decide +kernel, r, hrun, ?_⟩
  rw [hperm]
  exact List.not_mem_nil

end Query

end Slipbox
