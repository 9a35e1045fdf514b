import Slipbox.Answer
import Slipbox.Proofs.Distinct
import Slipbox.Proofs.Query.FieldNames
import Slipbox.Proofs.Query.Ranking
import Slipbox.Proofs.Text.Bytes

/-! What the rows of a report say. Its fields are path and title and then those that the query asks
for, under whatever names, each where it comes first; every row has a cell for each of them and
shows what its own note stores there, the tags included. -/

namespace Slipbox

namespace Query

/-- The fields that a list of names asks for, with their repetitions; without a list the default
ones. -/
inductive Asks : Option (List String) → List Field → Prop
  | default : Asks none Field.defaults
  | named {names : List String} {fields : List Field}
      (h : List.Forall₂ (fun name f => Field.IsNamed f name) names fields) :
      Asks (some names) fields

/-- What is shown of a note for a field: what it stores there, or no value where it stores none. -/
def shown (n : Note) : Field → Cell
  | .path => .text n.info.path
  | .title => .text n.info.title
  | .type => n.info.type.elim .null .text
  | .created => n.info.created.elim .null .text
  | .modified => n.info.modified.elim .null .text
  | .source => n.info.source.elim .null .text
  | .confidence => n.info.confidence.elim .null .number
  | .verified => .bool n.info.verified
  | .content => .text n.content
  | .tags => .list n.sortedTags

/-- The row has one cell for each of the fields and shows the note in them: its columns, and all of
its tags in the order of their bytes. -/
structure Shows (fields : List Field) (n : Note) (row : Row) : Prop where
  names : (row.map Prod.fst).Perm (fields.map Field.name)
  column : ∀ f ∈ fields, f ≠ .tags → row.get? f.name = some (shown n f)
  tags : .tags ∈ fields → ∃ tags, row.get? Field.tags.name = some (.list tags) ∧
    tags.Perm n.tags ∧ tags.Pairwise fun a b => Text.bytes a < Text.bytes b

/-- In a row with no name twice a cell is found under its name. -/
theorem Row.get?_of_mem {row : Row} (hnodup : (row.map Prod.fst).Nodup) {entry : String × Cell}
    (h : entry ∈ row) : row.get? entry.1 = some entry.2 := by
  induction row with
  | nil => cases h
  | cons first row ih =>
      rw [List.map_cons, List.nodup_cons] at hnodup
      rcases List.mem_cons.mp h with rfl | h
      · simp [Row.get?]
      · have hne : first.1 ≠ entry.1 := fun hsame =>
          hnodup.1 (hsame ▸ List.mem_map_of_mem (f := Prod.fst) h)
        rw [Row.get?, List.find?_cons_of_neg (by simpa using hne)]
        exact ih hnodup.2 h

section Fields

/-! Which fields a report has. -/

theorem isNamed_name (f : Field) : f.IsNamed f.name := by
  cases f <;> exact ⟨_, List.mem_cons_self, rfl⟩

theorem name_injective : Function.Injective Field.name := fun f g h =>
  (isNamed_name f).unique (h ▸ isNamed_name g)

/-- A field that is there already adds nothing, and another one is put behind. -/
theorem eraseDups_mention (fields : List Field) (f : Field) (more : List Field) :
    ((if f ∈ fields then fields else fields ++ [f]) ++ more).eraseDups =
      (fields ++ f :: more).eraseDups := by
  split
  · next hf =>
    rw [List.eraseDups_append, List.eraseDups_append, List.cons_removeAll, if_neg (by simpa)]
  · rw [List.append_assoc, List.singleton_append]

theorem nodup_mention {fields : List Field} (hnodup : fields.Nodup) (f : Field) :
    (if f ∈ fields then fields else fields ++ [f]).Nodup := by
  split
  · exact hnodup
  · next hf => exact hnodup.append (List.nodup_singleton f) (by simpa using hf)

theorem asked_of_foldlM {names : List String} {start named : List Field} (hnodup : start.Nodup)
    (h : names.foldlM (fun fields name => do
      let f ← field name
      .ok (if f ∈ fields then fields else fields ++ [f])) start = .ok named) :
    ∃ asked, List.Forall₂ (fun name f => Field.IsNamed f name) names asked ∧
      named = (start ++ asked).eraseDups := by
  induction names generalizing start with
  | nil =>
      cases h
      exact ⟨[], .nil, by rw [List.append_nil, eraseDups_of_nodup hnodup]⟩
  | cons name names ih =>
      rw [List.foldlM_cons] at h
      obtain ⟨_, hstep, h⟩ := bind_eq_ok.mp h
      obtain ⟨f, hf, hstep⟩ := bind_eq_ok.mp hstep
      cases hstep
      obtain ⟨asked, hasked, rfl⟩ := ih (nodup_mention hnodup f) h
      have hname : f.IsNamed name := Field.ofName?_eq_some.mp (field_eq_ok.mp hf)
      exact ⟨f :: asked, .cons hname hasked, eraseDups_mention start f asked⟩

/-- The names are resolved one after the other; what comes of it is path, title and the fields that
are asked for, without the repetitions. -/
theorem asks_of_resolveFields {names : Option (List String)} {named : List Field}
    (h : resolveFields names = .ok named) :
    ∃ asked, Asks names asked ∧ named = ([Field.path, .title] ++ asked).eraseDups := by
  cases names with
  | none =>
      cases h
      exact ⟨_, .default, rfl⟩
  | some names =>
      obtain ⟨asked, hasked, hnamed⟩ := asked_of_foldlM (by decide) h
      exact ⟨asked, .named hasked, hnamed⟩

/-- The fields of a report: path and title, those that are asked for and, in a task list, the done
state, each once and where it comes first. -/
def fieldsOf (shape : Shape) (asked : List Field) : List Field :=
  ([Field.path, .title] ++ asked ++
    if shape = Shape.task then [Field.verified] else []).eraseDups

theorem fields_assemble (shape : Shape) (asked : List Field) (fragments : List Fragment)
    (order : Field × Direction) (limit : Nat) :
    (Translation.assemble shape ([Field.path, .title] ++ asked).eraseDups fragments order
      limit).fields = fieldsOf shape asked := by
  rw [fieldsOf, Translation.assemble]
  generalize [Field.path, .title] ++ asked = named
  cases shape with
  | table | list => simp
  | task =>
      by_cases hdone : Field.verified ∈ named <;>
        simp [List.eraseDups_append, List.cons_removeAll, List.eraseDups_cons, hdone]

theorem mem_fieldsOf {shape : Shape} {asked : List Field} {f : Field} :
    f ∈ fieldsOf shape asked ↔
      f = .path ∨ f = .title ∨ f ∈ asked ∨ shape = .task ∧ f = .verified := by
  unfold fieldsOf
  rw [List.mem_eraseDups]
  split <;> simp_all

theorem lead_fieldsOf (shape : Shape) (asked : List Field) :
    [Field.path, .title] <+: fieldsOf shape asked := by
  rw [fieldsOf, List.append_assoc, List.eraseDups_append]
  exact List.prefix_append _ _

end Fields

section Rows

variable {ix : Index} {row : NoteRow}

theorem cell_valueIn {f : Field} (hf : f ≠ .tags) :
    cell f.kind (f.valueIn row) = shown (ix.noteOf row) f := by
  have hoption (o : Option String) (kind : FieldKind) :
      cell kind (Sql.optional o) = o.elim .null .text := by
    cases o <;> rfl
  cases f with
  | path | title | content => rfl
  | type | created | modified | source => exact hoption _ _
  | confidence =>
      change cell .number ((row.info.confidence.map Sql.Value.real).getD .null) =
        row.info.confidence.elim .null .number
      cases row.info.confidence <;> rfl
  | verified =>
      change cell .boolean (.integer (if row.info.verified then 1 else 0)) = .bool row.info.verified
      cases row.info.verified <;> rfl
  | tags => exact absurd rfl hf

/-- The columns and behind them the tags are the fields in another order. -/
theorem columns_perm {fields : List Field} (hnodup : fields.Nodup) :
    (fields.filter Field.isColumn ++
      if Field.tags ∈ fields then [Field.tags] else []).Perm fields := by
  refine (List.perm_ext_iff_of_nodup ?_ hnodup).mpr fun f => ?_
  · refine (hnodup.filter _).append ?_ ?_
    · split <;> simp
    · split <;> simp [Field.isColumn]
  · cases f <;> simp [Field.isColumn]

/-- The row of a report shows its note. -/
theorem shows_reportRow {t : Translation} (hnodup : t.fields.Nodup)
    (hcolumns : t.columns = t.fields.filter Field.isColumn)
    (htags : t.includesTags = decide (Field.tags ∈ t.fields)) :
    Shows t.fields (ix.noteOf row) (reportRow t ix row) := by
  have hrow : reportRow t ix row =
      (t.fields.filter Field.isColumn ++ if Field.tags ∈ t.fields then [Field.tags] else []).map
        fun f => (f.name, shown (ix.noteOf row) f) := by
    rw [reportRow, List.map_append, hcolumns, htags]
    congr 1
    · refine List.map_congr_left fun f hf => ?_
      have hcolumn : f ≠ .tags := by
        rintro rfl
        simp [Field.isColumn] at hf
      rw [cell_valueIn hcolumn]
    · by_cases h : Field.tags ∈ t.fields <;> simp [h, shown]
  have hperm := columns_perm hnodup
  have hnames : ((reportRow t ix row).map Prod.fst).Perm (t.fields.map Field.name) := by
    rw [hrow, List.map_map]
    exact hperm.map _
  have hfound : ∀ f ∈ t.fields,
      (reportRow t ix row).get? f.name = some (shown (ix.noteOf row) f) := by
    intro f hf
    have hmem : (f.name, shown (ix.noteOf row) f) ∈ reportRow t ix row := by
      rw [hrow]
      exact List.mem_map_of_mem (hperm.mem_iff.mpr hf)
    exact Row.get?_of_mem (hnames.nodup_iff.mpr (hnodup.map name_injective)) hmem
  refine ⟨hnames, fun f hf _ => hfound f hf, fun hmem => ⟨_, hfound _ hmem, ?_, ?_⟩⟩
  · exact List.mergeSort_perm _ _
  · have hsorted := pairwise_mergeSort_text id (ix.noteOf row).tags
    have hdistinct : (ix.noteOf row).sortedTags.Nodup :=
      (List.mergeSort_perm _ _).nodup_iff.mpr (ix.tags.textsOf_nodup row.id)
    exact (hsorted.and hdistinct).imp fun h => Text.bytes_lt_iff.mpr (lt_of_le_of_ne h.1 h.2)

end Rows

/-- The rows of a report as they are written: objects with an entry for each cell, and their
number. -/
theorem Report.toJson_rows (r : Report) :
    ∃ rows, r.toJson = .object [("query_type", .string r.shape.word), ("fields", .strings r.fields),
        ("rows", .array rows), ("total", .int rows.length)] ∧
      List.Forall₂ (fun (row : Row) json => ∃ entries, json = .object entries ∧
        entries.Perm (row.map fun entry => (entry.1, entry.2.toJson))) r.rows rows := by
  refine ⟨_, by rw [Report.toJson, ← List.length_map], ?_⟩
  rw [List.forall₂_map_right_iff]
  exact List.forall₂_same.mpr fun row _ => ⟨_, rfl, List.mergeSort_perm _ _⟩

/-- The report of a query has path and title and then the fields that the query asks for, each once;
a task list has the done state. Each of its rows belongs to a note of its own, has a cell for each
field and no other one, and shows what this note stores there: nothing for what is absent, and all
of the note's tags, no matter how many rows there are. The total is the number of rows. -/
theorem report_shows_stored_notes {q : Query} {ix : Index} {defaultLimit : Nat} {r : Report}
    (h : run q ix defaultLimit = .ok r) :
    ∃ (asked fields : List Field) (notes : List Note) (rows : List Json),
      Asks q.fields asked ∧ fields = fieldsOf q.shape asked ∧
      r.shape = q.shape ∧ r.fields = fields.map Field.name ∧
      [Field.path, .title] <+: fields ∧ fields.Nodup ∧ (q.shape = .task → .verified ∈ fields) ∧
      (∀ n ∈ notes, n ∈ ix.all) ∧ (notes.map Note.path).Nodup ∧
      List.Forall₂ (Shows fields) notes r.rows ∧
      r.toJson = .object [("query_type", .string q.shape.word), ("fields", .strings r.fields),
        ("rows", .array rows), ("total", .int rows.length)] ∧
      List.Forall₂ (fun (row : Row) json => ∃ entries, json = .object entries ∧
        entries.Perm (row.map fun entry => (entry.1, entry.2.toJson))) r.rows rows := by
  cases htranslate : translate q defaultLimit with
  | error e =>
      rw [run, htranslate] at h
      cases h
  | ok t =>
      obtain ⟨named, g, order, hnamed, hg, horder, ht⟩ := translate_eq_ok.mp htranslate
      obtain ⟨asked, hasked, rfl⟩ := asks_of_resolveFields hnamed
      obtain ⟨s, f, c, d, hstated⟩ := stated_of_translate htranslate
      have hfields : t.fields = fieldsOf q.shape asked := by
        rw [ht, fields_assemble]
      have hnodup : (fieldsOf q.shape asked).Nodup := nodup_eraseDups _
      have htags : t.includesTags = decide (Field.tags ∈ t.fields) := by
        rw [ht]
        rfl
      obtain rfl := hstated.report_eq htranslate h
      obtain ⟨rows, hjson, hrows⟩ := Report.toJson_rows
        ⟨q.shape, t.fields.map Field.name, t.rows s (.ofIndex ix)⟩
      let selected := (ranked s t.params ix).take (min (q.limit.getD defaultLimit) maxInteger)
      refine ⟨asked, _, selected.map ix.noteOf, rows, hasked, rfl, rfl, by rw [hfields],
        lead_fieldsOf _ _, hnodup, fun htask => ?_, fun n hn => ?_, ?_, ?_, hjson, hrows⟩
      · exact mem_fieldsOf.mpr (.inr (.inr (.inr ⟨htask, rfl⟩)))
      · obtain ⟨row, hrow, rfl⟩ := List.mem_map.mp hn
        have hranked := List.mem_of_mem_take hrow
        rw [ranked, List.mem_mergeSort] at hranked
        exact List.mem_map_of_mem (List.mem_of_mem_filter hranked)
      · rw [List.map_map]
        exact (paths_ranked_nodup s t.params ix).sublist ((List.take_sublist _ _).map _)
      · change List.Forall₂ _ _ (t.rows s (.ofIndex ix))
        rw [hstated.rows_eq, List.forall₂_map_left_iff, List.forall₂_map_right_iff, ← hfields]
        exact List.forall₂_same.mpr fun row _ =>
          shows_reportRow (hfields ▸ hnodup) hstated.columns htags

/-- A task list of fields under second names, in other letter cases and twice, from an index with a
note of two tags and one of none. -/
theorem report_shows_tags_between :
    let note (path : String) (type : Option String) (tags : List String) : Note :=
      ⟨⟨path, "Note", type, none, none, none, none, true⟩, "", none, tags, []⟩
    let ix := Index.empty.upsertAll [note "b.md" none ["x", "a"], note "a.md" (some "log") []]
    let q := { bare .task with fields := some ["FILE.Tags", "type", "file.path", "tags"] }
    ∃ (r : Report) (fields : List Field) (notes : List Note), run q ix 50 = .ok r ∧
      "a.md" ∈ r.paths ∧ "b.md" ∈ r.paths ∧ r.fields = fields.map Field.name ∧
      fields = [.path, .title, .tags, .type, .verified] ∧ (∀ n ∈ notes, n ∈ ix.all) ∧
      List.Forall₂ (Shows fields) notes r.rows := by
  intro note ix q
  obtain ⟨t, ht⟩ : ∃ t, translate q 50 = .ok t := ⟨_, rfl⟩
  have hlimit : ix.notes.rows.length ≤ min (q.limit.getD 50) maxInteger := by decide
  obtain ⟨r, hrun, hpaths⟩ := run_paths ht (by decide +kernel) hlimit
  obtain ⟨asked, fields, notes, -, hasked, hfields, -, hnames, -, -, -, hstored, -, hshows, -⟩ :=
    report_shows_stored_notes hrun
  have hlisted : fields = [.path, .title, .tags, .type, .verified] := by
    rw [hfields]
    cases hasked with
    | named h =>
        obtain _ | ⟨hfirst, _ | ⟨hsecond, _ | ⟨hthird, _ | ⟨hfourth, hend⟩⟩⟩⟩ := h
        cases hend
        obtain rfl := hfirst.unique (g := .tags) (by decide)
        obtain rfl := hsecond.unique (g := .type) (by decide)
        obtain rfl := hthird.unique (g := .path) (by decide)
        obtain rfl := hfourth.unique (g := .tags) (by decide)
        rfl
  refine ⟨r, fields, notes, hrun, (hpaths _).mpr ?_, (hpaths _).mpr ?_, hnames, hlisted, hstored,
    hshows⟩
  · exact ⟨_, .tail _ (.head _), rfl, trivial⟩
  · exact ⟨_, .head _, rfl, trivial⟩

end Query

end Slipbox
