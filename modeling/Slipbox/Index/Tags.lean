import Std.Data.HashMap
import Slipbox.Index.Table

/-! The tags of many notes at once. One request to the table of tags takes a bounded number of keys,
so the keys of the notes are split into batches; what comes back is gathered by note. -/

namespace Slipbox

/-- The list in batches of `size` members, the last of which may be shorter. -/
def batches {α : Type} (size : Nat) : List α → List (List α)
  | [] => []
  | a :: rest => (a :: rest.take (size - 1)) :: batches size (rest.drop (size - 1))
  termination_by l => l.length
  decreasing_by simp only [List.length_drop, List.length_cons]; omega

/-- The tags of some notes, by the keys of the notes. -/
structure TagsByNote where
  table : Std.HashMap Nat (List String)

namespace TagsByNote

def empty : TagsByNote := ⟨∅⟩

/-- The tags of a note, none if nothing is known of it. -/
def get (t : TagsByNote) (note : Nat) : List String :=
  t.table.getD note []

/-- Enters a tag behind those of its note. -/
def enter (t : TagsByNote) (entry : Nat × String) : TagsByNote :=
  ⟨t.table.insert entry.1 (t.get entry.1 ++ [entry.2])⟩

/-- Takes the tags of a note out. -/
def erase (t : TagsByNote) (note : Nat) : TagsByNote :=
  ⟨t.table.erase note⟩

/-- The number of keys that one request takes. -/
def batchSize : Nat := 500

/-- The notes and texts of the rows that belong to the given notes, by note and then by text. -/
def request (rows : List TextRow) (notes : List Nat) : List (Nat × String) :=
  ((rows.filter fun r => notes.contains r.note).map TextRow.entry).mergeSort fun a b =>
    a.1 < b.1 || (a.1 == b.1 && a.2 ≤ b.2)

/-- The tags of the given notes, requested batch by batch. -/
def ofNotes (rows : List TextRow) (notes : List Nat) : TagsByNote :=
  (batches batchSize notes).foldl (fun t batch => (request rows batch).foldl enter t) empty

end TagsByNote

end Slipbox
