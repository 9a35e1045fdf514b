import Slipbox.Index.Table

/-! The index: a table of notes and, beside it, one of their tags and one of their links. Writing a
note replaces the one with its path, removing a note takes its tags and links with it, and within a
note no tag and no link is kept twice. -/

namespace Slipbox

/-- The number that is kept of a confidence: none for what is no number, and a zero has no sign. -/
def storedNumber (x : Float) : Option Float :=
  if x.isNaN then none else if x == 0 then some 0 else some x

/-- The form in which a note is kept. -/
def Note.stored (n : Note) : Note :=
  { n with info := { n.info with confidence := n.info.confidence.bind storedNumber } }

theorem Note.path_stored (n : Note) : n.stored.path = n.path := rfl

/-- The notes of a vault. Every tag and every link belongs to a note of the index. -/
structure Index where
  notes : NoteTable
  tags : TextTable
  links : TextTable
  tags_owned : ∀ r ∈ tags.rows, r.note ∈ notes.ids
  links_owned : ∀ r ∈ links.rows, r.note ∈ notes.ids

namespace Index

def empty : Index where
  notes := .empty
  tags := .empty
  links := .empty
  tags_owned _ h := absurd h List.not_mem_nil
  links_owned _ h := absurd h List.not_mem_nil

/-- The note of a row, with its tags and links. -/
def noteOf (ix : Index) (r : NoteRow) : Note :=
  ⟨r.info, r.content, r.contentHash, ix.tags.textsOf r.id, ix.links.textsOf r.id⟩

private theorem owned_write {t : NoteTable} {texts : TextTable} {added : List String} (n : Note)
    (howned : ∀ r ∈ texts.rows, r.note ∈ t.ids) :
    ∀ r ∈ (texts.assign (t.idFor n.path) added).rows, r.note ∈ (t.write n).ids := by
  intro r hr
  rcases TextTable.mem_rows_assign hr with hold | hnew
  · exact t.ids_subset_write n (howned r hold)
  · rw [hnew]
    exact t.idFor_mem_write n

private theorem owned_erase {t : NoteTable} {texts : TextTable} (path : String)
    (howned : ∀ r ∈ texts.rows, r.note ∈ t.ids) :
    ∀ r ∈ (texts.detach (t.idsAt path)).rows, r.note ∈ (t.erase path).ids := by
  intro r hr
  obtain ⟨hkept, hnote⟩ := TextTable.mem_rows_detach.mp hr
  exact NoteTable.mem_ids_erase (howned r hkept) hnote

/-- Writes a note. -/
def upsert (ix : Index) (n : Note) : Index where
  notes := ix.notes.write n.stored
  tags := ix.tags.assign (ix.notes.idFor n.path) n.tags
  links := ix.links.assign (ix.notes.idFor n.path) n.links
  tags_owned := owned_write n.stored ix.tags_owned
  links_owned := owned_write n.stored ix.links_owned

/-- Writes notes one after the other. -/
def upsertAll (ix : Index) (ns : List Note) : Index :=
  ns.foldl upsert ix

/-- Writes notes and counts them. -/
def upsertNotes (ix : Index) (ns : List Note) : Index × Nat :=
  (ix.upsertAll ns, ns.length)

/-- Removes the note of a path, if there is one. -/
def remove (ix : Index) (path : String) : Index where
  notes := ix.notes.erase path
  tags := ix.tags.detach (ix.notes.idsAt path)
  links := ix.links.detach (ix.notes.idsAt path)
  tags_owned := owned_erase path ix.tags_owned
  links_owned := owned_erase path ix.links_owned

/-- Removes the notes of some paths and counts them. -/
def removeAll (ix : Index) (paths : List String) : Index × Nat :=
  paths.foldl (fun (ix, n) path => (ix.remove path, n + (ix.notes.idsAt path).length)) (ix, 0)

/-- The paths of the notes in the order of their keys. -/
def paths (ix : Index) : List String :=
  ix.notes.rows.map NoteRow.path

/-- The notes in the order of their keys. -/
def all (ix : Index) : List Note :=
  ix.notes.rows.map ix.noteOf

/-- The notes in the order of their paths. -/
def sorted (ix : Index) : List Note :=
  ix.all.mergeSort fun a b => a.path ≤ b.path

def find? (ix : Index) (path : String) : Option Note :=
  (ix.notes.find? path).map ix.noteOf

/-- The content hash of every note, by path. -/
def hashes (ix : Index) : List (String × Option String) :=
  ix.sorted.map fun n => (n.path, n.contentHash)

structure Status where
  notes : Nat
  tags : Nat
  links : Nat

/-- The numbers of rows of the three tables. -/
def status (ix : Index) : Status :=
  ⟨ix.notes.rows.length, ix.tags.rows.length, ix.links.rows.length⟩

def Status.text (s : Status) : String :=
  s!"{s.notes} notes, {s.tags} tags, {s.links} links"

end Index

/-- The tags of a note in the order of their text. -/
def Note.sortedTags (n : Note) : List String :=
  n.tags.mergeSort fun a b => a ≤ b

end Slipbox
