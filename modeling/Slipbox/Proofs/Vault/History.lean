import Slipbox.Proofs.Distinct
import Slipbox.Proofs.Index.Catalog
import Slipbox.Proofs.Index.Stored
import Slipbox.Vault.Sync

/-! An index that is brought in line with its vault from time to time. What one run does is stated
path by path, on the row of a path with its tags and links. A run keeps `Backed`: every row shows a
document that a file at its path has held at some time, under the content hash of that file. As long
as no two contents share a hash, a file that is left alone has its own contents in the index. -/

namespace Slipbox

theorem Index.hash?_eq (ix : Index) (path : String) :
    ix.hash? path = (ix.stored? path).bind fun s => s.row.contentHash := by
  rw [hash?, find?, stored?, Option.bind_map, Option.bind_map]
  rfl

theorem Document.path_of_parse? {path raw : String} {d : Document}
    (h : Document.parse? path raw = some d) : d.path = path := by
  simp only [Document.parse?, Option.bind_eq_bind, Option.bind_eq_some_iff] at h
  obtain ⟨_, _, h⟩ := h
  cases h
  rfl

namespace Vault

/-- The note files of a vault at one time. -/
structure Listing where
  files : List SourceFile
  paths_nodup : (files.map SourceFile.path).Nodup

namespace SourceFile

/-- The document in a file, if it can be read, is text, and has properties that parse. -/
def document? (f : SourceFile) : Option Document :=
  f.bytes.bind fun bytes => (String.fromUTF8? bytes).bind (Document.parse? f.path)

def hash? (f : SourceFile) : Option String :=
  f.bytes.map fun bytes => Digest.sha256 bytes.toList

theorem path_of_document? {f : SourceFile} {d : Document} (h : f.document? = some d) :
    d.path = f.path := by
  obtain ⟨_, _, h⟩ := Option.bind_eq_some_iff.mp h
  obtain ⟨_, _, h⟩ := Option.bind_eq_some_iff.mp h
  exact Document.path_of_parse? h

theorem outcome_eq (known : Option String) (f : SourceFile) :
    f.outcome known = match f.hash? with
      | none => .failed
      | some hash =>
        if known = some hash then .unchanged
        else match f.document? with
          | none => .failed
          | some d => .changed (d.toNote f.times (some hash)) := by
  unfold outcome hash? document?
  cases f.bytes <;> rfl

theorem outcome_eq_changed {known : Option String} {f : SourceFile} {n : Note} :
    f.outcome known = .changed n ↔ ∃ d hash, f.document? = some d ∧ f.hash? = some hash ∧
      known ≠ some hash ∧ n = d.toNote f.times (some hash) := by
  rw [outcome_eq]
  cases f.hash? with
  | none => simp
  | some hash =>
      by_cases hknown : known = some hash
      · simp [hknown]
      · cases f.document? <;> simp [hknown, eq_comm]

theorem outcome_eq_unchanged {known : Option String} {f : SourceFile} :
    f.outcome known = .unchanged ↔ ∃ hash, f.hash? = some hash ∧ known = some hash := by
  rw [outcome_eq]
  cases f.hash? with
  | none => simp
  | some hash =>
      by_cases hknown : known = some hash
      · simp [hknown]
      · cases f.document? <;> simp [hknown]

theorem document?_of_failed {known : Option String} {f : SourceFile}
    (h : f.outcome known = .failed) : f.document? = none := by
  cases hbytes : f.bytes with
  | none => rw [document?, hbytes, Option.bind_none]
  | some bytes =>
      rw [outcome_eq, hash?, hbytes, Option.map_some] at h
      dsimp only at h
      split at h
      · cases h
      · cases hd : f.document? with
        | none => rfl
        | some d =>
            rw [hd] at h
            cases h

end SourceFile

/-- There are three outcomes. -/
theorem length_outcomes (outcomes : List Outcome) :
    outcomes.length = (outcomes.filterMap Outcome.note?).length +
      outcomes.countP Outcome.isUnchanged + outcomes.countP Outcome.isFailed := by
  induction outcomes with
  | nil => rfl
  | cons o outcomes ih =>
      rw [List.length_cons, ih, List.filterMap_cons, List.countP_cons, List.countP_cons]
      cases o <;> simp only [Outcome.note?, Outcome.isUnchanged, Outcome.isFailed,
        List.length_cons] <;> simp <;> omega

/-- What is stored shows a document, under a content hash. -/
structure Shows (s : StoredNote) (d : Document) (hash : String) : Prop where
  title : s.row.info.title = d.title
  type : s.row.info.type = Document.textProperty? d.metadata "type"
  source : s.row.info.source = Document.textProperty? d.metadata "source"
  confidence : KeepsNumber d.confidence? s.row.info.confidence
  verified : s.row.info.verified = d.verified
  content : s.row.content = d.body
  tags : s.tags.toFinset = d.tags.toFinset
  tags_nodup : s.tags.Nodup
  links : s.links = d.linkTargets
  contentHash : s.row.contentHash = some hash

theorem shows_entryOf (d : Document) (times : Document.FileTimes) (hash : String) (id : Nat) :
    Shows (Index.entryOf (d.toNote times (some hash)) id) d hash where
  title := rfl
  type := rfl
  source := rfl
  confidence := keepsNumber_bind_storedNumber d.confidence?
  verified := rfl
  content := rfl
  tags := by
    refine Finset.ext fun tag => ?_
    rw [List.mem_toFinset, List.mem_toFinset]
    exact List.mem_eraseDups
  tags_nodup := nodup_eraseDups d.tags
  links := eraseDups_of_nodup (nodup_eraseDups _)
  contentHash := rfl

end Vault

open Vault

section Run

variable (ix : Index) (files : List SourceFile)

/-- The notes that a run writes. -/
def changedNotes : List Note :=
  (files.map fun f => f.outcome (ix.hash? f.path)).filterMap Outcome.note?

/-- The paths whose files are gone. -/
def gonePaths : List String :=
  ix.paths.filter fun path => !(files.map SourceFile.path).contains path

variable {ix files}

theorem mem_gonePaths {path : String} :
    path ∈ gonePaths ix files ↔ path ∈ ix.paths ∧ path ∉ files.map SourceFile.path := by
  simp only [gonePaths, List.mem_filter, Bool.not_eq_true', List.contains_eq_mem,
    decide_eq_false_iff_not]

theorem mem_changedNotes {n : Note} :
    n ∈ changedNotes ix files ↔ ∃ f ∈ files, f.outcome (ix.hash? f.path) = .changed n := by
  simp only [changedNotes, List.mem_filterMap, List.mem_map]
  constructor
  · rintro ⟨_, ⟨f, hf, rfl⟩, hn⟩
    refine ⟨f, hf, ?_⟩
    cases houtcome : f.outcome (ix.hash? f.path) <;> rw [houtcome] at hn <;> cases hn
    rfl
  · rintro ⟨f, hf, hn⟩
    exact ⟨_, ⟨f, hf, rfl⟩, by rw [hn]; rfl⟩

theorem path_of_changed {known : Option String} {f : SourceFile} {n : Note}
    (h : f.outcome known = .changed n) : n.path = f.path := by
  obtain ⟨d, hash, hd, _, _, rfl⟩ := SourceFile.outcome_eq_changed.mp h
  exact SourceFile.path_of_document? hd

theorem changedNotes_nodup (hfiles : (files.map SourceFile.path).Nodup) :
    ((changedNotes ix files).map Note.path).Nodup := by
  have hnote {f : SourceFile} {n : Note} (h : (f.outcome (ix.hash? f.path)).note? = some n) :
      n.path = f.path := by
    cases houtcome : f.outcome (ix.hash? f.path) <;> rw [houtcome] at h <;> cases h
    exact path_of_changed houtcome
  rw [List.Nodup, List.pairwise_map, changedNotes, List.filterMap_map, List.pairwise_filterMap]
  refine (List.pairwise_map.mp hfiles).imp fun {f f'} hne n hn n' hn' => ?_
  rw [hnote hn, hnote hn']
  exact hne

theorem sync_index : (ix.sync files).1 =
    ((ix.upsertAll (changedNotes ix files)).removeAll (gonePaths ix files)).1 := rfl

theorem stored?_sync_of_scanned {path : String} (hpath : path ∈ files.map SourceFile.path) :
    (ix.sync files).1.stored? path = (ix.upsertAll (changedNotes ix files)).stored? path := by
  rw [sync_index, Index.stored?_removeAll, if_neg]
  intro hgone
  exact (mem_gonePaths.mp hgone).2 hpath

/-- A file that has changed is stored with what it holds now. -/
theorem stored?_sync_of_changed (hfiles : (files.map SourceFile.path).Nodup) {f : SourceFile}
    (hf : f ∈ files) {n : Note} (hn : f.outcome (ix.hash? f.path) = .changed n) :
    ∃ id, (ix.sync files).1.stored? f.path = some (Index.entryOf n id) := by
  rw [stored?_sync_of_scanned (List.mem_map_of_mem hf), ← path_of_changed hn]
  exact Index.stored?_upsertAll_of_mem (mem_changedNotes.mpr ⟨f, hf, hn⟩)
    (changedNotes_nodup hfiles)

/-- A file that has not changed or that is no note leaves what is stored at its path. -/
theorem stored?_sync_of_left (hfiles : (files.map SourceFile.path).Nodup) {f : SourceFile}
    (hf : f ∈ files) (hleft : ∀ n, f.outcome (ix.hash? f.path) ≠ .changed n) :
    (ix.sync files).1.stored? f.path = ix.stored? f.path := by
  rw [stored?_sync_of_scanned (List.mem_map_of_mem hf)]
  refine Index.stored?_upsertAll_of_notMem fun hmem => ?_
  obtain ⟨n, hn, hpath⟩ := List.mem_map.mp hmem
  obtain ⟨g, hg, hn⟩ := mem_changedNotes.mp hn
  have hsame : g = f :=
    List.inj_on_of_nodup_map hfiles hg hf ((path_of_changed hn).symm.trans hpath)
  exact hleft n (hsame ▸ hn)

theorem stored?_sync_of_gone {path : String} (hpath : path ∉ files.map SourceFile.path) :
    (ix.sync files).1.stored? path = none := by
  rw [sync_index, Index.stored?_removeAll]
  split
  · rfl
  · next hkept =>
    have hnone : path ∉ ix.paths := fun hmem =>
      hkept (mem_gonePaths.mpr ⟨hmem, hpath⟩)
    rw [Index.stored?_upsertAll_of_notMem, Index.stored?_eq_none.mpr hnone]
    intro hmem
    obtain ⟨n, hn, rfl⟩ := List.mem_map.mp hmem
    obtain ⟨f, hf, hn⟩ := mem_changedNotes.mp hn
    exact hpath (path_of_changed hn ▸ List.mem_map_of_mem hf)

theorem removed_eq : (ix.sync files).2.removed = (gonePaths ix files).length := by
  change ((ix.upsertAll (changedNotes ix files)).removeAll (gonePaths ix files)).2 = _
  refine Index.count_removeAll (ix.notes.paths_nodup.filter _) fun path hpath => ?_
  obtain ⟨hthere, hgone⟩ := mem_gonePaths.mp hpath
  by_contra hmissing
  rw [← Index.stored?_eq_none, Index.stored?_upsertAll_of_notMem] at hmissing
  · exact Index.stored?_eq_none.mp hmissing hthere
  · intro hmem
    obtain ⟨n, hn, rfl⟩ := List.mem_map.mp hmem
    obtain ⟨f, hf, hn⟩ := mem_changedNotes.mp hn
    exact hgone (path_of_changed hn ▸ List.mem_map_of_mem hf)

/-- A run without anything to write or to remove changes nothing. -/
theorem sync_eq_self (hchanged : changedNotes ix files = []) (hgone : gonePaths ix files = []) :
    (ix.sync files).1 = ix ∧ (ix.sync files).2.indexed = 0 ∧ (ix.sync files).2.removed = 0 := by
  refine ⟨?_, ?_, ?_⟩
  · rw [sync_index, hchanged, hgone]
    rfl
  · change (changedNotes ix files).length = 0
    rw [hchanged]
    rfl
  · rw [removed_eq, hgone]
    rfl

/-- What a run has found it does not find again. -/
theorem outcome_after_sync (hfiles : (files.map SourceFile.path).Nodup) {f : SourceFile}
    (hf : f ∈ files) (n : Note) : f.outcome ((ix.sync files).1.hash? f.path) ≠ .changed n := by
  intro hagain
  obtain ⟨d, hash, hd, hhash, hknown, rfl⟩ := SourceFile.outcome_eq_changed.mp hagain
  rw [Index.hash?_eq] at hknown
  cases hfirst : f.outcome (ix.hash? f.path) with
  | changed n =>
      obtain ⟨id, hstored⟩ := stored?_sync_of_changed hfiles hf hfirst
      obtain ⟨d', hash', hd', hhash', _, rfl⟩ := SourceFile.outcome_eq_changed.mp hfirst
      rw [hstored] at hknown
      exact hknown (hhash'.symm.trans hhash)
  | unchanged =>
      rw [stored?_sync_of_left hfiles hf (by simp [hfirst]), ← Index.hash?_eq] at hknown
      obtain ⟨hash', hhash', hsame⟩ := SourceFile.outcome_eq_unchanged.mp hfirst
      exact hknown (hsame.trans (hhash'.symm.trans hhash))
  | failed =>
      rw [SourceFile.document?_of_failed hfirst] at hd
      cases hd

end Run

/-- All that is stored shows documents of some files at their paths. -/
def Backed (ix : Index) (files : List SourceFile) : Prop :=
  ∀ path s, ix.stored? path = some s → ∃ f ∈ files, ∃ d hash,
    f.path = path ∧ f.document? = some d ∧ f.hash? = some hash ∧ Shows s d hash

theorem backed_empty : Backed Index.empty [] := by
  intro path s h
  cases h

theorem Backed.sync {ix : Index} {past : List SourceFile} (h : Backed ix past) (now : Listing) :
    Backed (ix.sync now.files).1 (past ++ now.files) := by
  intro path s hs
  by_cases hpath : path ∈ now.files.map SourceFile.path
  · obtain ⟨f, hf, rfl⟩ := List.mem_map.mp hpath
    by_cases hleft : ∀ n, f.outcome (ix.hash? f.path) ≠ .changed n
    · rw [stored?_sync_of_left now.paths_nodup hf hleft] at hs
      obtain ⟨g, hg, hshows⟩ := h f.path s hs
      exact ⟨g, List.mem_append_left _ hg, hshows⟩
    · simp only [ne_eq, not_forall, not_not] at hleft
      obtain ⟨n, hn⟩ := hleft
      obtain ⟨id, hstored⟩ := stored?_sync_of_changed now.paths_nodup hf hn
      obtain ⟨d, hash, hd, hhash, _, rfl⟩ := SourceFile.outcome_eq_changed.mp hn
      rw [hstored] at hs
      cases hs
      exact ⟨f, List.mem_append_right _ hf, d, hash, rfl, hd, hhash, shows_entryOf d _ hash id⟩
  · rw [stored?_sync_of_gone hpath] at hs
    cases hs

/-- The index after a run for each of some states of the vault, from the empty index on. -/
def indexAfter (states : List Listing) : Index :=
  states.foldl (fun ix state => (ix.sync state.files).1) .empty

def allFiles (states : List Listing) : List SourceFile :=
  states.flatMap Listing.files

theorem backed_indexAfter (states : List Listing) :
    Backed (indexAfter states) (allFiles states) := by
  induction states using List.reverseRecOn with
  | nil => exact backed_empty
  | append_singleton past now ih =>
      rw [indexAfter, List.foldl_concat, allFiles, List.flatMap_append, List.flatMap_singleton]
      exact ih.sync now

/-- Files with one hash have the same contents. -/
def DistinctHashes (files : List SourceFile) : Prop :=
  ∀ f ∈ files, ∀ g ∈ files, f.hash? = g.hash? → f.bytes = g.bytes

instance (files : List SourceFile) : Decidable (DistinctHashes files) :=
  inferInstanceAs (Decidable (∀ f ∈ files, ∀ g ∈ files, f.hash? = g.hash? → f.bytes = g.bytes))

/-- A file with a document has it in the index after a run. Where the run leaves the file alone, the
row shows a file of the same hash. -/
theorem Backed.shows_sync {ix : Index} {past : List SourceFile} (h : Backed ix past) {now : Listing}
    (hhashes : DistinctHashes (past ++ now.files)) {f : SourceFile} (hf : f ∈ now.files)
    {d : Document} {hash : String} (hd : f.document? = some d) (hhash : f.hash? = some hash) :
    ∃ s, (ix.sync now.files).1.stored? f.path = some s ∧ Shows s d hash := by
  cases houtcome : f.outcome (ix.hash? f.path) with
  | changed n =>
      obtain ⟨id, hstored⟩ := stored?_sync_of_changed now.paths_nodup hf houtcome
      obtain ⟨d', hash', hd', hhash', _, rfl⟩ := SourceFile.outcome_eq_changed.mp houtcome
      cases hd.symm.trans hd'
      cases hhash.symm.trans hhash'
      exact ⟨_, hstored, shows_entryOf d _ hash id⟩
  | unchanged =>
      obtain ⟨hash', hhash', hknown⟩ := SourceFile.outcome_eq_unchanged.mp houtcome
      cases hhash.symm.trans hhash'
      rw [Index.hash?_eq, Option.bind_eq_some_iff] at hknown
      obtain ⟨s, hs, hrow⟩ := hknown
      obtain ⟨g, hg, d', hash', hpath, hd', hhash', hshows⟩ := h f.path s hs
      cases hshows.contentHash.symm.trans hrow
      have hbytes := hhashes g (List.mem_append_left _ hg) f (List.mem_append_right _ hf)
        (hhash'.trans hhash.symm)
      have hsame : g.document? = f.document? := by
        rw [SourceFile.document?, SourceFile.document?, hbytes, hpath]
      cases hd'.symm.trans (hsame.trans hd)
      rw [stored?_sync_of_left now.paths_nodup hf (by simp [houtcome])]
      exact ⟨s, hs, hshows⟩
  | failed =>
      rw [SourceFile.document?_of_failed houtcome] at hd
      cases hd

theorem stored?_sync_of_document_none (ix : Index) {now : Listing} {f : SourceFile}
    (hf : f ∈ now.files) (hd : f.document? = none) :
    (ix.sync now.files).1.stored? f.path = ix.stored? f.path := by
  refine stored?_sync_of_left now.paths_nodup hf fun n hn => ?_
  obtain ⟨d, _, hd', _⟩ := SourceFile.outcome_eq_changed.mp hn
  rw [hd] at hd'
  cases hd'

theorem path_scanned_of_sync {ix : Index} {files : List SourceFile} {r : NoteRow}
    (hr : r ∈ (ix.sync files).1.notes.rows) : r.path ∈ files.map SourceFile.path := by
  by_contra hpath
  have hgone : (ix.sync files).1.stored? r.path = none := stored?_sync_of_gone hpath
  exact Index.stored?_eq_none.mp hgone (List.mem_map_of_mem hr)

/-- After a run no file is changed and no path is gone. -/
theorem sync_sync (ix : Index) (now : Listing) :
    let after := (ix.sync now.files).1
    (after.sync now.files).1 = after ∧ (after.sync now.files).2.indexed = 0 ∧
      (after.sync now.files).2.removed = 0 := by
  refine sync_eq_self ?_ ?_
  · rw [List.eq_nil_iff_forall_not_mem]
    intro n hn
    obtain ⟨f, hf, hn⟩ := mem_changedNotes.mp hn
    exact outcome_after_sync now.paths_nodup hf n hn
  · rw [List.eq_nil_iff_forall_not_mem]
    intro path hpath
    obtain ⟨hthere, hgone⟩ := mem_gonePaths.mp hpath
    obtain ⟨r, hr, rfl⟩ := List.mem_map.mp hthere
    exact hgone (path_scanned_of_sync hr)

/-- What a run does with the files of a vault. -/
structure Synced (before : Index) (files : List SourceFile) (after : Index) (stats : SyncStats) :
    Prop where
  /-- A document is shown as it is now. -/
  current : ∀ f ∈ files, ∀ d hash, f.document? = some d → f.hash? = some hash →
    ∃ s, after.stored? f.path = some s ∧ Shows s d hash
  /-- A file without a document leaves its row as it was. -/
  kept : ∀ f ∈ files, f.document? = none → after.stored? f.path = before.stored? f.path
  scanned_only : ∀ r ∈ after.notes.rows, r.path ∈ files.map SourceFile.path
  scanned : stats.scanned = files.length
  counts : stats.scanned = stats.indexed + stats.unchanged + stats.failed
  removed : stats.removed =
    (before.notes.rows.filter fun r => r.path ∉ files.map SourceFile.path).length
  again : (after.sync files).1 = after ∧ (after.sync files).2.indexed = 0 ∧
    (after.sync files).2.removed = 0

/-- Every run brings the index in line with the vault, whatever states the vault has been in when it
ran before; a second run finds nothing to do. -/
theorem sync_mirrors_vault (past : List Listing) (now : Listing)
    (hhashes : DistinctHashes (allFiles (past ++ [now]))) :
    let before := indexAfter past
    Synced before now.files (before.sync now.files).1 (before.sync now.files).2 := by
  intro before
  have hall : allFiles (past ++ [now]) = allFiles past ++ now.files := by
    rw [allFiles, List.flatMap_append, List.flatMap_singleton, allFiles]
  rw [hall] at hhashes
  constructor
  case current =>
    intro f hf d hash hd hhash
    exact (backed_indexAfter past).shows_sync hhashes hf hd hhash
  case kept =>
    intro f hf hd
    exact stored?_sync_of_document_none before hf hd
  case scanned_only =>
    intro r hr
    exact path_scanned_of_sync hr
  case scanned => rfl
  case counts =>
    have h := length_outcomes (now.files.map fun f => f.outcome (before.hash? f.path))
    rwa [List.length_map] at h
  case removed =>
    rw [removed_eq, gonePaths, Index.paths, List.filter_map, List.length_map]
    congr 2
    funext r
    rw [Function.comp_apply, List.contains_eq_mem, decide_not]
  case again => exact sync_sync before now

/-- A note is edited while another file becomes one that is no text. -/
theorem sync_mirrors_edited_note :
    let times : Document.FileTimes := ⟨none, none⟩
    let first : Listing :=
      ⟨[⟨"a.md", some "# A\n#tag".toUTF8, times⟩, ⟨"b.md", some "[[a]]".toUTF8, times⟩], by decide⟩
    let second : Listing :=
      ⟨[⟨"a.md", some "# B".toUTF8, times⟩, ⟨"b.md", some ⟨#[0xff]⟩, times⟩], by decide⟩
    let before := indexAfter [first]
    DistinctHashes (allFiles ([first] ++ [second])) ∧
      Synced before second.files (before.sync second.files).1 (before.sync second.files).2 := by
  intro times first second before
  have hhashes : DistinctHashes (allFiles ([first] ++ [second])) := by decide +kernel
  exact ⟨hhashes, sync_mirrors_vault [first] second hhashes⟩

end Slipbox
