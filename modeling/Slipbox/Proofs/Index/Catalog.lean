import Slipbox.Proofs.Index.Tables

/-! An index is a map from paths to notes. `Call` lists the calls that change an index, with what
they do to the tables and what they do to the map; `Tracks` is what one write and one removal
preserve, row by row, and a run of any calls on the empty index keeps it. -/

namespace Slipbox

/-- Notes by path, each as it has been written last. -/
abbrev Catalog := Finmap fun _ : String => Note

namespace Catalog

def put (m : Catalog) (n : Note) : Catalog :=
  m.insert n.path n

/-- The tags of the note of a path. -/
def tagsAt (m : Catalog) (path : String) : Finset String :=
  ((m.lookup path).map fun n => n.tags.toFinset).getD ∅

/-- The links of the note of a path, without the repetitions. -/
def linksAt (m : Catalog) (path : String) : List String :=
  ((m.lookup path).map fun n => n.links.eraseDups).getD []

end Catalog

/-- A call that changes an index. -/
inductive Call where
  | upsertNotes (ns : List Note)
  | upsertNote (n : Note)
  | removeNotes (paths : List String)

namespace Call

/-- The index after a call, and the answer if the call has one. -/
def run : Call → Index → Index × Option Nat
  | .upsertNotes ns, ix => ((ix.upsertNotes ns).1, some (ix.upsertNotes ns).2)
  | .upsertNote n, ix => (ix.upsert n, none)
  | .removeNotes paths, ix => ((ix.removeAll paths).1, some (ix.removeAll paths).2)

/-- The map after a call and the answer: writing overwrites, removing deletes, and the answers are
the length of the batch and the number of different paths that were there. -/
def apply : Call → Catalog → Catalog × Option Nat
  | .upsertNotes ns, m => (ns.foldl Catalog.put m, some ns.length)
  | .upsertNote n, m => (m.put n, none)
  | .removeNotes paths, m =>
    (paths.foldl (fun m path => m.erase path) m, some (paths.toFinset ∩ m.keys).card)

/-- What is left after some calls, and their answers. -/
def sequence {σ : Type} (step : Call → σ → σ × Option Nat) :
    List Call → σ → σ × List (Option Nat)
  | [], s => (s, [])
  | c :: cs, s =>
    let (s, answer) := step c s
    let (s, answers) := sequence step cs s
    (s, answer :: answers)

end Call

/-- A confidence is kept as an equal number, one that is no number not at all. -/
def KeepsNumber : Option Float → Option Float → Prop
  | none, kept => kept = none
  | some x, kept => if x.isNaN then kept = none else ∃ y, kept = some y ∧ x == y

/-- The row of an index, with its tags and links, keeps a note. -/
structure Keeps (ix : Index) (r : NoteRow) (n : Note) : Prop where
  info : r.info = { n.info with confidence := r.info.confidence }
  confidence : KeepsNumber n.info.confidence r.info.confidence
  content : r.content = n.content
  contentHash : r.contentHash = n.contentHash
  tags : (ix.tags.textsOf r.id).toFinset = n.tags.toFinset
  tags_nodup : (ix.tags.textsOf r.id).Nodup
  links : ix.links.textsOf r.id = n.links.eraseDups

/-- The index has one row for each path of the map and keeps the map's notes in them; it has no tags
and no links besides, so the rows of its tables can be counted in the map. -/
structure Represents (ix : Index) (m : Catalog) : Prop where
  path_mem : ∀ r ∈ ix.notes.rows, r.path ∈ m
  row_unique : ∀ path ∈ m, ∃! r, r ∈ ix.notes.rows ∧ r.path = path
  keeps : ∀ r ∈ ix.notes.rows, ∀ n, m.lookup r.path = some n → Keeps ix r n
  tag_mem : ∀ tag ∈ ix.tags.rows, ∃ r ∈ ix.notes.rows, r.id = tag.note ∧
    tag.text ∈ m.tagsAt r.path
  link_mem : ∀ link ∈ ix.links.rows, ∃ r ∈ ix.notes.rows, r.id = link.note ∧
    link.text ∈ m.linksAt r.path
  notes_count : ix.status.notes = m.keys.card
  tags_count : ix.status.tags = ∑ path ∈ m.keys, (m.tagsAt path).card
  links_count : ix.status.links = ∑ path ∈ m.keys, (m.linksAt path).length

/-- Path by path, the index has a row that keeps the note of the map. -/
def Tracks (ix : Index) (m : Catalog) : Prop :=
  ∀ path, Option.Rel (Keeps ix) (ix.notes.find? path) (m.lookup path)

/-- A double that is a number equals itself. -/
theorem beq_self_of_not_isNaN {x : Float} (hx : x.isNaN = false) : (x == x) = true := by
  change (x.toModel.unpack.compare x.toModel.unpack == some .eq) = true
  have hunpack : x.toModel.unpack.isNaN = false := hx
  cases hcase : x.toModel.unpack with
  | notANumber => rw [hcase] at hunpack; cases hunpack
  | infinity s => cases s <;> rfl
  | zero s => cases s <;> rfl
  | finite s mantissa exponent _ =>
      have hsame : (compare exponent exponent).then (compare mantissa mantissa) = .eq := by
        rw [Std.ReflOrd.compare_self, Std.ReflOrd.compare_self]
        rfl
      cases s with
      | negative => exact beq_iff_eq.mpr (congrArg (fun o : Ordering => some o.swap) hsame)
      | positive => exact beq_iff_eq.mpr (congrArg some hsame)

theorem keepsNumber_bind_storedNumber (x : Option Float) :
    KeepsNumber x (x.bind storedNumber) := by
  cases x with
  | none => rfl
  | some x =>
      rw [KeepsNumber, Option.bind_some, storedNumber]
      split
      · rfl
      · next hx =>
        split
        · next hzero => exact ⟨0, rfl, hzero⟩
        · exact ⟨x, rfl, beq_self_of_not_isNaN (by simpa using hx)⟩

namespace Keeps

/-- The row of a note that has just been written keeps it. -/
theorem of_upsert (ix : Index) (n : Note) :
    Keeps (ix.upsert n) (NoteTable.rowOf n.stored (ix.notes.idFor n.path)) n where
  info := rfl
  confidence := keepsNumber_bind_storedNumber n.info.confidence
  content := rfl
  contentHash := rfl
  tags := by
    refine Finset.ext fun tag => ?_
    rw [List.mem_toFinset, List.mem_toFinset]
    change tag ∈ (ix.tags.assign _ n.tags).textsOf _ ↔ _
    rw [NoteTable.rowOf, TextTable.textsOf_assign, List.mem_eraseDups]
  tags_nodup := TextTable.textsOf_nodup _ _
  links := TextTable.textsOf_assign _ _ _

/-- A row whose tags and links stay as they are keeps its note. -/
theorem of_texts {ix ix' : Index} {r : NoteRow} {n : Note} (h : Keeps ix r n)
    (htags : ix'.tags.textsOf r.id = ix.tags.textsOf r.id)
    (hlinks : ix'.links.textsOf r.id = ix.links.textsOf r.id) : Keeps ix' r n where
  info := h.info
  confidence := h.confidence
  content := h.content
  contentHash := h.contentHash
  tags := htags ▸ h.tags
  tags_nodup := htags ▸ h.tags_nodup
  links := hlinks ▸ h.links

end Keeps

namespace Tracks

variable {ix : Index} {m : Catalog}

theorem empty : Tracks Index.empty ∅ := by
  intro path
  rw [Finmap.lookup_empty]
  exact .none

private theorem rel_of_texts {ix' : Index} {r? : Option NoteRow} {n? : Option Note}
    (h : Option.Rel (Keeps ix) r? n?)
    (htexts : ∀ r, r? = some r → ix'.tags.textsOf r.id = ix.tags.textsOf r.id ∧
      ix'.links.textsOf r.id = ix.links.textsOf r.id) : Option.Rel (Keeps ix') r? n? := by
  cases h with
  | none => exact .none
  | some hkeeps =>
      obtain ⟨htags, hlinks⟩ := htexts _ rfl
      exact .some (hkeeps.of_texts htags hlinks)

theorem upsert (h : Tracks ix m) (n : Note) : Tracks (ix.upsert n) (m.put n) := by
  intro path
  change Option.Rel _ ((ix.notes.write n.stored).find? path) _
  rw [NoteTable.find?_write, Note.path_stored]
  by_cases hpath : path = n.path
  · rw [if_pos hpath, hpath, Catalog.put, Finmap.lookup_insert]
    exact .some (Keeps.of_upsert ix n)
  · rw [if_neg hpath, Catalog.put, Finmap.lookup_insert_of_ne _ hpath]
    refine rel_of_texts (h path) fun r hfound => ?_
    obtain ⟨hr, rfl⟩ := NoteTable.find?_eq_some.mp hfound
    have hid : r.id ≠ ix.notes.idFor n.path := NoteTable.id_ne_idFor hr hpath
    exact ⟨TextTable.textsOf_assign_of_ne _ hid _, TextTable.textsOf_assign_of_ne _ hid _⟩

theorem remove (h : Tracks ix m) (path : String) : Tracks (ix.remove path) (m.erase path) := by
  intro path'
  change Option.Rel _ ((ix.notes.erase path).find? path') _
  rw [NoteTable.find?_erase]
  by_cases hpath : path' = path
  · rw [if_pos hpath, hpath, Finmap.lookup_erase]
    exact .none
  · rw [if_neg hpath, Finmap.lookup_erase_ne hpath]
    refine rel_of_texts (h path') fun r hfound => ?_
    obtain ⟨hr, rfl⟩ := NoteTable.find?_eq_some.mp hfound
    have hid : r.id ∉ ix.notes.idsAt path := NoteTable.id_notMem_idsAt hr hpath
    exact ⟨TextTable.textsOf_detach hid, TextTable.textsOf_detach hid⟩

theorem find?_isSome (h : Tracks ix m) (path : String) :
    (ix.notes.find? path).isSome = true ↔ path ∈ m.keys := by
  rw [Finmap.mem_keys, ← Finmap.lookup_isSome]
  have hrow := h path
  revert hrow
  generalize ix.notes.find? path = r?, m.lookup path = n?
  rintro (- | -) <;> rfl

theorem upsertAll (h : Tracks ix m) (ns : List Note) :
    Tracks (ix.upsertAll ns) (ns.foldl Catalog.put m) := by
  induction ns generalizing ix m with
  | nil => exact h
  | cons n ns ih => exact ih (h.upsert n)

private theorem card_insert_inter (path : String) (paths keys : Finset String) :
    (insert path paths ∩ keys).card =
      (if path ∈ keys then 1 else 0) + (paths ∩ keys.erase path).card := by
  by_cases hpath : path ∈ keys
  · have hinsert : insert path paths ∩ keys = insert path (paths ∩ keys.erase path) := by
      ext path'
      simp only [Finset.mem_inter, Finset.mem_insert, Finset.mem_erase]
      by_cases hsame : path' = path <;> simp [hsame, hpath]
    rw [hinsert, Finset.card_insert_of_notMem (by simp), if_pos hpath, Nat.add_comm]
  · rw [if_neg hpath, Finset.insert_inter_of_notMem hpath, Finset.erase_eq_of_notMem hpath,
      Nat.zero_add]

/-- A path that is listed again is not there any more. -/
theorem removeAll (h : Tracks ix m) (paths : List String) :
    Tracks (ix.removeAll paths).1 (paths.foldl (fun m path => m.erase path) m) ∧
      (ix.removeAll paths).2 = (paths.toFinset ∩ m.keys).card := by
  have hall (counted : Nat) :
      let left := paths.foldl
        (fun left path => (left.1.remove path, left.2 + (left.1.notes.idsAt path).length))
        (ix, counted)
      Tracks left.1 (paths.foldl (fun m path => m.erase path) m) ∧
        left.2 = counted + (paths.toFinset ∩ m.keys).card := by
    induction paths generalizing ix m counted with
    | nil => exact ⟨h, by simp⟩
    | cons path paths ih =>
        obtain ⟨htracks, hcount⟩ := ih (h.remove path) (counted + (ix.notes.idsAt path).length)
        refine ⟨htracks, hcount.trans ?_⟩
        rw [List.toFinset_cons, card_insert_inter, Finmap.keys_erase, NoteTable.length_idsAt]
        simp only [h.find?_isSome]
        omega
  obtain ⟨htracks, hcount⟩ := hall 0
  exact ⟨htracks, hcount.trans (Nat.zero_add _)⟩

theorem step (h : Tracks ix m) (c : Call) :
    Tracks (c.run ix).1 (c.apply m).1 ∧ (c.run ix).2 = (c.apply m).2 := by
  cases c with
  | upsertNotes ns => exact ⟨h.upsertAll ns, rfl⟩
  | upsertNote n => exact ⟨h.upsert n, rfl⟩
  | removeNotes paths =>
      obtain ⟨htracks, hcount⟩ := h.removeAll paths
      exact ⟨htracks, congrArg some hcount⟩

theorem sequence (h : Tracks ix m) (calls : List Call) :
    Tracks (Call.sequence Call.run calls ix).1 (Call.sequence Call.apply calls m).1 ∧
      (Call.sequence Call.run calls ix).2 = (Call.sequence Call.apply calls m).2 := by
  induction calls generalizing ix m with
  | nil => exact ⟨h, rfl⟩
  | cons c calls ih =>
      obtain ⟨hstep, hanswer⟩ := h.step c
      obtain ⟨hrest, hanswers⟩ := ih hstep
      exact ⟨hrest, congrArg₂ List.cons hanswer hanswers⟩

theorem keeps (h : Tracks ix m) {r : NoteRow} (hr : r ∈ ix.notes.rows) :
    ∃ n, m.lookup r.path = some n ∧ Keeps ix r n := by
  have hrow := h r.path
  rw [NoteTable.find?_eq_some.mpr ⟨hr, rfl⟩] at hrow
  revert hrow
  generalize m.lookup r.path = n?
  rintro ⟨hkeeps⟩
  exact ⟨_, rfl, hkeeps⟩

theorem tagsAt_eq (h : Tracks ix m) {r : NoteRow} (hr : r ∈ ix.notes.rows) :
    m.tagsAt r.path = (ix.tags.textsOf r.id).toFinset := by
  obtain ⟨n, hn, hkeeps⟩ := h.keeps hr
  rw [Catalog.tagsAt, hn, hkeeps.tags]
  rfl

theorem linksAt_eq (h : Tracks ix m) {r : NoteRow} (hr : r ∈ ix.notes.rows) :
    m.linksAt r.path = ix.links.textsOf r.id := by
  obtain ⟨n, hn, hkeeps⟩ := h.keeps hr
  rw [Catalog.linksAt, hn, hkeeps.links]
  rfl

theorem keys_eq (h : Tracks ix m) : (ix.notes.rows.map NoteRow.path).toFinset = m.keys := by
  ext path
  rw [← h.find?_isSome, Option.isSome_iff_exists, List.mem_toFinset, List.mem_map]
  simp only [NoteTable.find?_eq_some]

/-- The rows of a table are counted by the sizes that the notes of the map give. -/
theorem length_texts (h : Tracks ix m) {t : TextTable}
    (howned : ∀ r ∈ t.rows, r.note ∈ ix.notes.ids) {size : String → Nat}
    (hsize : ∀ r ∈ ix.notes.rows, (t.textsOf r.id).length = size r.path) :
    t.rows.length = ∑ path ∈ m.keys, size path := by
  rw [TextTable.length_rows ix.notes.ids_nodup howned, ← h.keys_eq,
    List.sum_toFinset _ ix.notes.paths_nodup, NoteTable.ids, List.map_map, List.map_map]
  exact congrArg List.sum (List.map_congr_left hsize)

theorem represents (h : Tracks ix m) : Represents ix m where
  path_mem r hr := by
    rw [← Finmap.mem_keys, ← h.keys_eq]
    exact List.mem_toFinset.mpr (List.mem_map_of_mem hr)
  row_unique path hpath := by
    rw [← Finmap.mem_keys, ← h.find?_isSome] at hpath
    obtain ⟨r, hr⟩ := Option.isSome_iff_exists.mp hpath
    refine ⟨r, NoteTable.find?_eq_some.mp hr, fun r' hr' => ?_⟩
    exact Option.some.inj ((NoteTable.find?_eq_some.mpr hr').symm.trans hr)
  keeps r hr n hn := by
    obtain ⟨n', hn', hkeeps⟩ := h.keeps hr
    rwa [Option.some.inj (hn.symm.trans hn')]
  tag_mem tag htag := by
    obtain ⟨r, hr, hid⟩ := List.mem_map.mp (ix.tags_owned tag htag)
    refine ⟨r, hr, hid, ?_⟩
    rw [h.tagsAt_eq hr, List.mem_toFinset, TextTable.mem_textsOf, hid]
    exact List.mem_map_of_mem htag
  link_mem link hlink := by
    obtain ⟨r, hr, hid⟩ := List.mem_map.mp (ix.links_owned link hlink)
    refine ⟨r, hr, hid, ?_⟩
    rw [h.linksAt_eq hr, TextTable.mem_textsOf, hid]
    exact List.mem_map_of_mem hlink
  notes_count := by
    rw [← h.keys_eq, List.toFinset_card_of_nodup ix.notes.paths_nodup, List.length_map]
    rfl
  tags_count := h.length_texts ix.tags_owned fun r hr => by
    rw [h.tagsAt_eq hr, List.toFinset_card_of_nodup (TextTable.textsOf_nodup _ _)]
  links_count := h.length_texts ix.links_owned fun r hr => by
    rw [h.linksAt_eq hr]

end Tracks

/-- After any calls on the empty index, the index represents the map that the same calls lead to,
and the calls have had the answers that the map gives. -/
theorem sequence_represents (calls : List Call) :
    Represents (Call.sequence Call.run calls Index.empty).1 (Call.sequence Call.apply calls ∅).1 ∧
      (Call.sequence Call.run calls Index.empty).2 = (Call.sequence Call.apply calls ∅).2 := by
  obtain ⟨htracks, hanswers⟩ := Tracks.empty.sequence calls
  exact ⟨htracks.represents, hanswers⟩

end Slipbox
