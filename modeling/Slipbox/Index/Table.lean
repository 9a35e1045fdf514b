import Slipbox.Note

/-! The tables of an index. A table keeps its rows in the order of their keys, and a new row takes
the key after the largest one in use, so that the key of a removed row may be given out again. -/

namespace Slipbox

/-- The key of a new row. -/
def freshKey (keys : List Nat) : Nat :=
  keys.foldr max 0 + 1

theorem lt_freshKey {keys : List Nat} {k : Nat} (hk : k ∈ keys) : k < freshKey keys := by
  induction keys with
  | nil => cases hk
  | cons key keys ih =>
      simp only [freshKey, List.foldr_cons, List.mem_cons] at hk ih ⊢
      rcases hk with rfl | hk
      · omega
      · have := ih hk
        omega

/-- The columns of the note table: a note without its tags and links. -/
structure NoteRow where
  id : Nat
  info : Metadata
  content : String
  contentHash : Option String

def NoteRow.path (r : NoteRow) : String :=
  r.info.path

/-- A text that belongs to the note with the given key: a tag, or the target of a link. -/
structure TextRow where
  key : Nat
  note : Nat
  text : String

/-- The note and the text of a row, which no other row of its table has together. -/
def TextRow.entry (r : TextRow) : Nat × String :=
  (r.note, r.text)

structure NoteTable where
  rows : List NoteRow
  ids_increasing : rows.Pairwise fun a b => a.id < b.id
  paths_nodup : (rows.map NoteRow.path).Nodup

structure TextTable where
  rows : List TextRow
  keys_increasing : rows.Pairwise fun a b => a.key < b.key
  entries_nodup : (rows.map TextRow.entry).Nodup

namespace NoteTable

def empty : NoteTable := ⟨[], .nil, .nil⟩

def ids (t : NoteTable) : List Nat :=
  t.rows.map NoteRow.id

def find? (t : NoteTable) (path : String) : Option NoteRow :=
  t.rows.find? fun r => r.path == path

/-- The key of the note of a path, or the one that it will take. -/
def idFor (t : NoteTable) (path : String) : Nat :=
  match t.find? path with
  | some r => r.id
  | none => freshKey t.ids

/-- The row with the contents of a note. -/
def rowOf (n : Note) (id : Nat) : NoteRow :=
  ⟨id, n.info, n.content, n.contentHash⟩

/-- The row after writing a note: that of its path takes its contents and keeps its key. -/
def updated (n : Note) (r : NoteRow) : NoteRow :=
  if r.path = n.path then rowOf n r.id else r

theorem updated_id (n : Note) (r : NoteRow) : (updated n r).id = r.id := by
  unfold updated
  split <;> rfl

theorem updated_path (n : Note) (r : NoteRow) : (updated n r).path = r.path := by
  unfold updated
  split
  · next h => exact h.symm
  · rfl

theorem find?_eq_none {t : NoteTable} {path : String} :
    t.find? path = none ↔ ∀ r ∈ t.rows, r.path ≠ path := by
  simp [find?]

/-- Writes a note, into the row of its path or else into a new row at the end. -/
def write (t : NoteTable) (n : Note) : NoteTable :=
  match hfound : t.find? n.path with
  | some _ =>
    { rows := t.rows.map (updated n)
      ids_increasing := by
        rw [List.pairwise_map]
        simpa only [updated_id] using t.ids_increasing
      paths_nodup := by
        simpa only [List.map_map, Function.comp_def, updated_path] using t.paths_nodup }
  | none =>
    { rows := t.rows ++ [rowOf n (freshKey t.ids)]
      ids_increasing := by
        refine List.pairwise_append.mpr ⟨t.ids_increasing, List.pairwise_singleton _ _, ?_⟩
        intro r hr new hnew
        rw [List.mem_singleton.mp hnew]
        exact lt_freshKey (List.mem_map_of_mem hr)
      paths_nodup := by
        rw [List.map_append, List.nodup_append]
        refine ⟨t.paths_nodup, List.pairwise_singleton _ _, ?_⟩
        intro path hpath new hnew hsame
        obtain ⟨r, hr, rfl⟩ := List.mem_map.mp hpath
        exact find?_eq_none.mp hfound r hr (hsame.trans (List.mem_singleton.mp hnew)) }

/-- The keys of the rows of a path. -/
def idsAt (t : NoteTable) (path : String) : List Nat :=
  (t.rows.filter fun r => r.path == path).map NoteRow.id

/-- Removes the rows of a path. -/
def erase (t : NoteTable) (path : String) : NoteTable where
  rows := t.rows.filter fun r => r.path != path
  ids_increasing := t.ids_increasing.sublist List.filter_sublist
  paths_nodup := (List.filter_sublist.map NoteRow.path).nodup t.paths_nodup

theorem write_rows_of_some {t : NoteTable} {n : Note} {r : NoteRow}
    (h : t.find? n.path = some r) : (t.write n).rows = t.rows.map (updated n) := by
  unfold write
  split
  · rfl
  · next hnone => rw [h] at hnone; cases hnone

theorem write_rows_of_none {t : NoteTable} {n : Note} (h : t.find? n.path = none) :
    (t.write n).rows = t.rows ++ [rowOf n (freshKey t.ids)] := by
  unfold write
  split
  · next hsome => rw [h] at hsome; cases hsome
  · rfl

theorem idFor_mem_write (t : NoteTable) (n : Note) : t.idFor n.path ∈ (t.write n).ids := by
  unfold idFor ids
  cases hfound : t.find? n.path with
  | none => simp [write_rows_of_none hfound, rowOf, ids]
  | some r =>
      rw [write_rows_of_some hfound, List.map_map]
      exact List.mem_map.mpr ⟨r, List.mem_of_find?_eq_some hfound, updated_id n r⟩

theorem ids_subset_write (t : NoteTable) (n : Note) : t.ids ⊆ (t.write n).ids := by
  intro id hid
  obtain ⟨r, hr, rfl⟩ := List.mem_map.mp hid
  unfold ids
  cases hfound : t.find? n.path with
  | none =>
      rw [write_rows_of_none hfound]
      exact List.mem_map_of_mem (List.mem_append_left _ hr)
  | some _ =>
      rw [write_rows_of_some hfound, List.map_map]
      exact List.mem_map.mpr ⟨r, hr, updated_id n r⟩

theorem mem_ids_erase {t : NoteTable} {path : String} {id : Nat} (hid : id ∈ t.ids)
    (hgone : id ∉ t.idsAt path) : id ∈ (t.erase path).ids := by
  obtain ⟨r, hr, rfl⟩ := List.mem_map.mp hid
  have hpath : r.path ≠ path := fun h =>
    hgone (List.mem_map_of_mem (List.mem_filter.mpr ⟨hr, by simpa using h⟩))
  exact List.mem_map_of_mem (List.mem_filter.mpr ⟨hr, by simpa using hpath⟩)

end NoteTable

namespace TextTable

def empty : TextTable := ⟨[], .nil, .nil⟩

/-- The texts of a note in the order of their keys. -/
def textsOf (t : TextTable) (note : Nat) : List String :=
  (t.rows.filter fun r => r.note == note).map TextRow.text

/-- Removes the rows of the given notes. -/
def detach (t : TextTable) (notes : List Nat) : TextTable where
  rows := t.rows.filter fun r => !notes.contains r.note
  keys_increasing := t.keys_increasing.sublist List.filter_sublist
  entries_nodup := (List.filter_sublist.map TextRow.entry).nodup t.entries_nodup

/-- Adds a text to a note that does not have it. -/
def attach (note : Nat) (t : TextTable) (text : String) : TextTable :=
  if hold : (note, text) ∈ t.rows.map TextRow.entry then t
  else
    { rows := t.rows ++ [⟨freshKey (t.rows.map TextRow.key), note, text⟩]
      keys_increasing := by
        refine List.pairwise_append.mpr ⟨t.keys_increasing, List.pairwise_singleton _ _, ?_⟩
        intro r hr new hnew
        rw [List.mem_singleton.mp hnew]
        exact lt_freshKey (List.mem_map_of_mem hr)
      entries_nodup := by
        rw [List.map_append, List.nodup_append]
        refine ⟨t.entries_nodup, List.pairwise_singleton _ _, ?_⟩
        intro entry hentry new hnew hsame
        rw [hsame, List.mem_singleton.mp hnew] at hentry
        exact hold hentry }

/-- Gives a note these texts in the place of those it had. -/
def assign (t : TextTable) (note : Nat) (texts : List String) : TextTable :=
  texts.foldl (attach note) (t.detach [note])

theorem mem_rows_attach {t : TextTable} {note : Nat} {text : String} {r : TextRow}
    (hr : r ∈ (t.attach note text).rows) : r ∈ t.rows ∨ r.note = note := by
  unfold attach at hr
  split at hr
  · exact Or.inl hr
  · rcases List.mem_append.mp hr with hr | hr
    · exact Or.inl hr
    · rw [List.mem_singleton.mp hr]
      exact Or.inr rfl

private theorem mem_rows_attachAll {t : TextTable} {note : Nat} {texts : List String} {r : TextRow}
    (hr : r ∈ (texts.foldl (attach note) t).rows) : r ∈ t.rows ∨ r.note = note := by
  induction texts generalizing t with
  | nil => exact Or.inl hr
  | cons text texts ih =>
      rcases ih hr with hr | hr
      · exact mem_rows_attach hr
      · exact Or.inr hr

theorem mem_rows_detach {t : TextTable} {notes : List Nat} {r : TextRow} :
    r ∈ (t.detach notes).rows ↔ r ∈ t.rows ∧ r.note ∉ notes := by
  simp [detach]

theorem mem_rows_assign {t : TextTable} {note : Nat} {texts : List String} {r : TextRow}
    (hr : r ∈ (t.assign note texts).rows) : r ∈ t.rows ∨ r.note = note := by
  rcases mem_rows_attachAll hr with hr | hr
  · exact Or.inl (mem_rows_detach.mp hr).1
  · exact Or.inr hr

end TextTable

end Slipbox
