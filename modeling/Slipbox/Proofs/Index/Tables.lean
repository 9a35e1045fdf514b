import Mathlib
import Slipbox.Index

/-! What the operations on the tables of an index do to the row of a path and to the texts of a
note. A write leaves the keys of all other paths alone, and a new key is none of those in use, so
the texts of one note never mix with those of another. -/

namespace Slipbox

namespace NoteTable

theorem ids_nodup (t : NoteTable) : t.ids.Nodup := by
  rw [ids, List.Nodup, List.pairwise_map]
  exact t.ids_increasing.imp Nat.ne_of_lt

theorem find?_eq_some {t : NoteTable} {path : String} {r : NoteRow} :
    t.find? path = some r ↔ r ∈ t.rows ∧ r.path = path := by
  constructor
  · intro h
    have hpath := List.find?_some h
    exact ⟨List.mem_of_find?_eq_some h, by simpa using hpath⟩
  · rintro ⟨hr, rfl⟩
    cases hfound : t.find? r.path with
    | none => exact absurd rfl (find?_eq_none.mp hfound r hr)
    | some r' =>
        have hpath := List.find?_some hfound
        have hsame : r'.path = r.path := by simpa using hpath
        rw [List.inj_on_of_nodup_map t.paths_nodup (List.mem_of_find?_eq_some hfound) hr hsame]

/-- Rows of different paths have different keys. -/
theorem id_ne {t : NoteTable} {r r' : NoteRow} (hr : r ∈ t.rows) (hr' : r' ∈ t.rows)
    (hpath : r.path ≠ r'.path) : r.id ≠ r'.id := fun hid =>
  hpath (by rw [List.inj_on_of_nodup_map t.ids_nodup hr hr' hid])

theorem id_ne_idFor {t : NoteTable} {r : NoteRow} {path : String} (hr : r ∈ t.rows)
    (hpath : r.path ≠ path) : r.id ≠ t.idFor path := by
  unfold idFor
  cases hfound : t.find? path with
  | none => exact Nat.ne_of_lt (lt_freshKey (List.mem_map_of_mem hr))
  | some r' =>
      obtain ⟨hr', rfl⟩ := find?_eq_some.mp hfound
      exact id_ne hr hr' hpath

theorem mem_rows_write {t : NoteTable} {n : Note} {r : NoteRow} :
    r ∈ (t.write n).rows ↔ (r ∈ t.rows ∧ r.path ≠ n.path) ∨ r = rowOf n (t.idFor n.path) := by
  cases hfound : t.find? n.path with
  | none =>
      have hkey : t.idFor n.path = freshKey t.ids := by rw [idFor, hfound]
      rw [write_rows_of_none hfound, List.mem_append, List.mem_singleton, hkey]
      constructor
      · rintro (hr | hr)
        · exact Or.inl ⟨hr, find?_eq_none.mp hfound r hr⟩
        · exact Or.inr hr
      · rintro (⟨hr, _⟩ | hr)
        · exact Or.inl hr
        · exact Or.inr hr
  | some old =>
      have hkey : t.idFor n.path = old.id := by rw [idFor, hfound]
      obtain ⟨hold, holdPath⟩ := find?_eq_some.mp hfound
      rw [write_rows_of_some hfound, List.mem_map, hkey]
      constructor
      · rintro ⟨r, hr, rfl⟩
        by_cases hpath : r.path = n.path
        · have hsame : r = old :=
            List.inj_on_of_nodup_map t.paths_nodup hr hold (hpath.trans holdPath.symm)
          rw [updated, if_pos hpath, hsame]
          exact Or.inr rfl
        · rw [updated, if_neg hpath]
          exact Or.inl ⟨hr, hpath⟩
      · rintro (⟨hr, hpath⟩ | rfl)
        · exact ⟨r, hr, by rw [updated, if_neg hpath]⟩
        · exact ⟨old, hold, by rw [updated, if_pos holdPath]⟩

theorem find?_write (t : NoteTable) (n : Note) (path : String) :
    (t.write n).find? path =
      if path = n.path then some (rowOf n (t.idFor n.path)) else t.find? path := by
  refine Option.ext fun r => ?_
  rw [find?_eq_some, mem_rows_write]
  split
  · next hpath =>
    rw [Option.some.injEq]
    constructor
    · rintro ⟨⟨_, hother⟩ | rfl, hsame⟩
      · exact absurd (hsame.trans hpath) hother
      · rfl
    · rintro rfl
      exact ⟨Or.inr rfl, hpath.symm⟩
  · next hpath =>
    rw [find?_eq_some]
    constructor
    · rintro ⟨⟨hr, _⟩ | rfl, hsame⟩
      · exact ⟨hr, hsame⟩
      · exact absurd hsame.symm hpath
    · rintro ⟨hr, rfl⟩
      exact ⟨Or.inl ⟨hr, hpath⟩, rfl⟩

theorem mem_rows_erase {t : NoteTable} {path : String} {r : NoteRow} :
    r ∈ (t.erase path).rows ↔ r ∈ t.rows ∧ r.path ≠ path := by
  simp only [erase, List.mem_filter, bne_iff_ne]

theorem find?_erase (t : NoteTable) (path' path : String) :
    (t.erase path').find? path = if path = path' then none else t.find? path := by
  refine Option.ext fun r => ?_
  rw [find?_eq_some, mem_rows_erase]
  split
  · next hpath =>
    constructor
    · rintro ⟨⟨_, hother⟩, hsame⟩
      exact absurd (hsame.trans hpath) hother
    · intro h
      cases h
  · next hpath =>
    rw [find?_eq_some]
    constructor
    · rintro ⟨⟨hr, _⟩, hsame⟩
      exact ⟨hr, hsame⟩
    · rintro ⟨hr, rfl⟩
      exact ⟨⟨hr, hpath⟩, rfl⟩

theorem mem_idsAt {t : NoteTable} {path : String} {id : Nat} :
    id ∈ t.idsAt path ↔ ∃ r ∈ t.rows, r.path = path ∧ r.id = id := by
  simp only [idsAt, List.mem_map, List.mem_filter, beq_iff_eq, and_assoc]

theorem id_notMem_idsAt {t : NoteTable} {r : NoteRow} {path : String} (hr : r ∈ t.rows)
    (hpath : r.path ≠ path) : r.id ∉ t.idsAt path := by
  rw [mem_idsAt]
  rintro ⟨r', hr', rfl, hid⟩
  exact id_ne hr hr' hpath hid.symm

/-- A path has one row or none. -/
theorem length_idsAt (t : NoteTable) (path : String) :
    (t.idsAt path).length = if (t.find? path).isSome then 1 else 0 := by
  have hcount : (t.idsAt path).length = (t.rows.map NoteRow.path).count path := by
    rw [idsAt, List.length_map, List.count, List.countP_map, List.countP_eq_length_filter]
    rfl
  have hmem : path ∈ t.rows.map NoteRow.path ↔ (t.find? path).isSome = true := by
    rw [List.mem_map, Option.isSome_iff_exists]
    simp only [find?_eq_some]
  rw [hcount, t.paths_nodup.count]
  simp only [hmem]

end NoteTable

namespace TextTable

theorem textsOf_detach {t : TextTable} {notes : List Nat} {note : Nat} (hnote : note ∉ notes) :
    (t.detach notes).textsOf note = t.textsOf note := by
  rw [textsOf, textsOf, detach, List.filter_filter]
  congr 2
  funext r
  by_cases hr : r.note = note <;> simp [hr, hnote]

theorem textsOf_detach_self {t : TextTable} {notes : List Nat} {note : Nat} (hnote : note ∈ notes) :
    (t.detach notes).textsOf note = [] := by
  rw [textsOf, detach, List.filter_filter, List.map_eq_nil_iff, List.filter_eq_nil_iff]
  intro r _
  by_cases hr : r.note = note <;> simp [hr, hnote]

theorem mem_textsOf {t : TextTable} {note : Nat} {text : String} :
    text ∈ t.textsOf note ↔ (note, text) ∈ t.rows.map TextRow.entry := by
  simp only [textsOf, TextRow.entry, List.mem_map, List.mem_filter, beq_iff_eq, Prod.mk.injEq,
    and_assoc]

theorem textsOf_nodup (t : TextTable) (note : Nat) : (t.textsOf note).Nodup := by
  have hentries : (((t.rows.filter fun r => r.note == note).map TextRow.entry)).Nodup :=
    (List.filter_sublist.map TextRow.entry).nodup t.entries_nodup
  refine List.Nodup.of_map (fun text => (note, text)) ?_
  have hsame : (t.textsOf note).map (fun text => (note, text)) =
      (t.rows.filter fun r => r.note == note).map TextRow.entry := by
    rw [textsOf, List.map_map]
    refine List.map_congr_left fun r hr => ?_
    have hnote : r.note = note := by simpa using (List.mem_filter.mp hr).2
    rw [Function.comp_apply, TextRow.entry, hnote]
  rwa [hsame]

theorem textsOf_attach {t : TextTable} {note : Nat} {text : String} {seen : List String}
    (hseen : t.textsOf note = seen.eraseDups) :
    (t.attach note text).textsOf note = (seen ++ [text]).eraseDups := by
  have hmem : (note, text) ∈ t.rows.map TextRow.entry ↔ text ∈ seen := by
    rw [← mem_textsOf, hseen, List.mem_eraseDups]
  rw [List.eraseDups_append, ← hseen]
  unfold attach
  split
  · next hold =>
    have htext : [text].removeAll seen = [] := by simp [List.removeAll, hmem.mp hold]
    rw [htext, List.eraseDups_nil, List.append_nil]
  · next hnew =>
    have hfresh : text ∉ seen := fun h => hnew (hmem.mpr h)
    have htext : [text].removeAll seen = [text] := by simp [List.removeAll, hfresh]
    rw [htext]
    simp [textsOf, List.eraseDups_cons]

theorem textsOf_attach_of_ne {t : TextTable} {note note' : Nat} (hne : note' ≠ note)
    (text : String) : (t.attach note text).textsOf note' = t.textsOf note' := by
  unfold attach
  split
  · rfl
  · simp [textsOf, hne.symm]

/-- The texts that a note is given are kept in the order in which each of them comes first. -/
theorem textsOf_assign (t : TextTable) (note : Nat) (texts : List String) :
    (t.assign note texts).textsOf note = texts.eraseDups := by
  have hall (seen : List String) (t : TextTable) (hseen : t.textsOf note = seen.eraseDups) :
      (texts.foldl (attach note) t).textsOf note = (seen ++ texts).eraseDups := by
    induction texts generalizing seen t with
    | nil => rw [List.append_nil, List.foldl_nil, hseen]
    | cons text texts ih =>
        rw [List.foldl_cons, ih (seen ++ [text]) _ (textsOf_attach hseen), List.append_assoc]
        rfl
  exact hall [] _ (textsOf_detach_self (List.mem_singleton.mpr rfl))

theorem textsOf_assign_of_ne (t : TextTable) {note note' : Nat} (hne : note' ≠ note)
    (texts : List String) : (t.assign note texts).textsOf note' = t.textsOf note' := by
  have hall (t : TextTable) : (texts.foldl (attach note) t).textsOf note' = t.textsOf note' := by
    induction texts generalizing t with
    | nil => rfl
    | cons text texts ih => rw [List.foldl_cons, ih, textsOf_attach_of_ne hne]
  rw [assign, hall, textsOf_detach (by simpa using hne)]

/-- A table whose rows all belong to some notes has as many rows as these notes have texts. -/
theorem length_rows {t : TextTable} {notes : List Nat} (hnotes : notes.Nodup)
    (howned : ∀ r ∈ t.rows, r.note ∈ notes) :
    t.rows.length = (notes.map fun note => (t.textsOf note).length).sum := by
  induction notes generalizing t with
  | nil =>
      rw [List.eq_nil_iff_forall_not_mem.mpr fun r hr => List.not_mem_nil (howned r hr)]
      rfl
  | cons note notes ih =>
      obtain ⟨hnote, hnotes⟩ := List.nodup_cons.mp hnotes
      have hsplit : t.rows.length = (t.textsOf note).length + (t.detach [note]).rows.length := by
        rw [List.length_eq_countP_add_countP (fun r => r.note == note), textsOf, detach,
          List.length_map, ← List.countP_eq_length_filter, ← List.countP_eq_length_filter]
        congr 2
        funext r
        simp
      have hrest := ih hnotes (t := t.detach [note]) fun r hr => by
        obtain ⟨hr, hne⟩ := mem_rows_detach.mp hr
        exact (List.mem_cons.mp (howned r hr)).resolve_left (by simpa using hne)
      have hsame : (notes.map fun k => ((t.detach [note]).textsOf k).length) =
          notes.map fun k => (t.textsOf k).length :=
        List.map_congr_left fun k hk => by
          have hne : k ∉ [note] := by
            rw [List.mem_singleton]
            rintro rfl
            exact hnote hk
          rw [textsOf_detach hne]
      rw [hsplit, hrest, hsame, List.map_cons, List.sum_cons]

end TextTable

end Slipbox
