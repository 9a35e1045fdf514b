import Slipbox.Proofs.Index.Contents
import Slipbox.Proofs.Vault.History

/-! Indexing a vault anew. An index that has followed its vault through any states holds what one
run on the empty index gives, if the files stand as they have been read last. Contents that stay the
same are not read again, so their note keeps the times that the file has had when it was read, and
what is no note leaves the note of what has been read before. -/

namespace Slipbox

namespace Vault

namespace SourceFile

/-- The file that has been read last at a path after a run that finds `f` there. What is no note is
not read, and contents are not read twice. -/
def readAfter (before : Option SourceFile) (f : SourceFile) : Option SourceFile :=
  if f.document? = none ∨ before.bind SourceFile.bytes = f.bytes then before else some f

/-- The note that an index holds of a file. -/
def note? (f : SourceFile) : Option Note :=
  f.document?.map fun d => (d.toNote f.times f.hash?).kept

theorem hash?_eq_of_bytes {f g : SourceFile} (h : g.bytes = f.bytes) : g.hash? = f.hash? := by
  rw [hash?, hash?, h]

theorem document?_eq_of_bytes {f g : SourceFile} (hpath : g.path = f.path)
    (h : g.bytes = f.bytes) : g.document? = f.document? := by
  rw [document?, document?, hpath, h]

/-- Two files with the same contents at a path differ in their times only. -/
theorem note?_of_bytes {f g : SourceFile} (hpath : g.path = f.path) (hbytes : g.bytes = f.bytes)
    {d : Document} (hd : f.document? = some d) :
    g.note? = some (d.toNote g.times f.hash?).kept := by
  rw [note?, document?_eq_of_bytes hpath hbytes, hd, hash?_eq_of_bytes hbytes, Option.map_some]

theorem bytes_of_document? {f : SourceFile} {d : Document} (h : f.document? = some d) :
    ∃ bytes, f.bytes = some bytes := by
  obtain ⟨bytes, hbytes, _⟩ := Option.bind_eq_some_iff.mp h
  exact ⟨bytes, hbytes⟩

/-- Where nothing has been read, what is a note is read. -/
theorem readAfter_none {f : SourceFile} (hdocument : f.document? ≠ none) :
    f.readAfter none = some f := by
  obtain ⟨d, hd⟩ := Option.ne_none_iff_exists'.mp hdocument
  obtain ⟨bytes, hbytes⟩ := bytes_of_document? hd
  rw [readAfter, if_neg]
  rintro (hnone | hsame)
  · exact hdocument hnone
  · rw [hbytes] at hsame
    cases hsame

end SourceFile

def fileAt? (files : List SourceFile) (path : String) : Option SourceFile :=
  files.find? fun f => f.path == path

/-- The files as they have been read last, after a run that finds the files of `now`. -/
def reread (read : List SourceFile) (now : Listing) : List SourceFile :=
  now.files.filterMap fun f => f.readAfter (fileAt? read f.path)

/-- The files as they have been read last, after a run for each of some states of the vault. -/
def lastRead (states : List Listing) : List SourceFile :=
  states.foldl reread []

theorem path_of_fileAt? {files : List SourceFile} {path : String} {f : SourceFile}
    (h : fileAt? files path = some f) : f.path = path := by
  simpa using List.find?_some h

theorem fileAt?_eq_some {files : List SourceFile} (hnodup : (files.map SourceFile.path).Nodup)
    {path : String} {f : SourceFile} :
    fileAt? files path = some f ↔ f ∈ files ∧ f.path = path := by
  constructor
  · intro h
    exact ⟨List.mem_of_find?_eq_some h, path_of_fileAt? h⟩
  · rintro ⟨hf, rfl⟩
    cases hfound : fileAt? files f.path with
    | none => exact absurd (List.find?_eq_none.mp hfound f hf) (by simp)
    | some g =>
        rw [List.inj_on_of_nodup_map hnodup (List.mem_of_find?_eq_some hfound) hf
          (path_of_fileAt? hfound)]

section Reread

variable {read : List SourceFile} {now : Listing}

theorem readAfter_eq_some {f g : SourceFile} (h : f.readAfter (fileAt? read f.path) = some g) :
    g.path = f.path ∧ (g ∈ read ∨ g = f ∧ f.document? ≠ none) := by
  unfold SourceFile.readAfter at h
  split at h
  · exact ⟨path_of_fileAt? h, Or.inl (List.mem_of_find?_eq_some h)⟩
  · next hnew =>
    rw [not_or] at hnew
    cases h
    exact ⟨rfl, Or.inr ⟨rfl, hnew.1⟩⟩

theorem reread_nodup (read : List SourceFile) (now : Listing) :
    ((reread read now).map SourceFile.path).Nodup := by
  rw [List.Nodup, List.pairwise_map, reread, List.pairwise_filterMap]
  refine (List.pairwise_map.mp now.paths_nodup).imp fun {f f'} hne g hg g' hg' => ?_
  rw [(readAfter_eq_some hg).1, (readAfter_eq_some hg').1]
  exact hne

theorem fileAt?_reread {f : SourceFile} (hf : f ∈ now.files) :
    fileAt? (reread read now) f.path = f.readAfter (fileAt? read f.path) := by
  refine Option.ext fun g => ?_
  rw [fileAt?_eq_some (reread_nodup read now), reread, List.mem_filterMap]
  constructor
  · rintro ⟨⟨f', hf', hg⟩, hpath⟩
    have hsame : f' = f :=
      List.inj_on_of_nodup_map now.paths_nodup hf' hf ((readAfter_eq_some hg).1.symm.trans hpath)
    exact hsame ▸ hg
  · intro hg
    exact ⟨⟨f, hf, hg⟩, (readAfter_eq_some hg).1⟩

/-- What a run finds as a note has been read last with the same contents. -/
theorem exists_fileAt?_reread {f : SourceFile} (hf : f ∈ now.files)
    (hdocument : f.document? ≠ none) :
    ∃ g, fileAt? (reread read now) f.path = some g ∧ g.path = f.path ∧ g.bytes = f.bytes := by
  obtain ⟨d, hd⟩ := Option.ne_none_iff_exists'.mp hdocument
  obtain ⟨bytes, hbytes⟩ := SourceFile.bytes_of_document? hd
  rw [fileAt?_reread hf, SourceFile.readAfter]
  split
  · next hleft =>
    rw [hbytes] at hleft
    obtain ⟨g, hg, hsame⟩ := Option.bind_eq_some_iff.mp (hleft.resolve_left hdocument)
    exact ⟨g, hg, path_of_fileAt? hg, hsame.trans hbytes.symm⟩
  · exact ⟨f, rfl, rfl, rfl⟩

theorem fileAt?_reread_of_gone {path : String} (hpath : path ∉ now.files.map SourceFile.path) :
    fileAt? (reread read now) path = none := by
  rw [fileAt?, List.find?_eq_none]
  intro g hg hsame
  obtain ⟨f, hf, hread⟩ := List.mem_filterMap.mp hg
  refine hpath (List.mem_map.mpr ⟨f, hf, ?_⟩)
  rw [← (readAfter_eq_some hread).1]
  simpa using hsame

/-- Where all files are notes and nothing has been read before, all are read. -/
theorem reread_nil (hdocument : ∀ f ∈ now.files, f.document? ≠ none) :
    reread [] now = now.files := by
  have hread : ∀ f ∈ now.files, f.readAfter (fileAt? [] f.path) = some f :=
    fun f hf => SourceFile.readAfter_none (hdocument f hf)
  rw [reread, List.filterMap_congr hread, List.filterMap_some]

end Reread

end Vault

open Vault

theorem DistinctHashes.mono {files files' : List SourceFile} (h : DistinctHashes files)
    (hsub : files' ⊆ files) : DistinctHashes files' :=
  fun f hf g hg => h f (hsub hf) g (hsub hg)

/-- An index holds the notes of the files as they have been read last, and these are some of the
files that the runs have found. -/
structure ReadFrom (ix : Index) (read found : List SourceFile) : Prop where
  find?_eq : ∀ path, ix.find? path = (fileAt? read path).bind SourceFile.note?
  document : ∀ g ∈ read, g.document? ≠ none
  found : ∀ g ∈ read, g ∈ found

theorem ReadFrom.empty : ReadFrom Index.empty [] [] where
  find?_eq _ := rfl
  document _ hg := absurd hg List.not_mem_nil
  found _ hg := absurd hg List.not_mem_nil

namespace ReadFrom

variable {ix : Index} {read found : List SourceFile} (h : ReadFrom ix read found)

include h

theorem hash?_eq (path : String) : ix.hash? path = (fileAt? read path).bind SourceFile.hash? := by
  rw [Index.hash?, h.find?_eq, Option.bind_assoc]
  refine Option.bind_congr fun g hg => ?_
  obtain ⟨d, hd⟩ := Option.ne_none_iff_exists'.mp
    (h.document g (List.mem_of_find?_eq_some hg))
  rw [SourceFile.note?, hd]
  rfl

/-- A file is written just when it is read: it is a note, and other contents than before. -/
theorem changed_iff {f : SourceFile} (hhashes : DistinctHashes (f :: found)) :
    (∃ n, f.outcome (ix.hash? f.path) = .changed n) ↔
      f.document? ≠ none ∧ (fileAt? read f.path).bind SourceFile.bytes ≠ f.bytes := by
  simp only [SourceFile.outcome_eq_changed, h.hash?_eq]
  constructor
  · rintro ⟨_, d, hash, hd, hhash, hknown, rfl⟩
    refine ⟨by rw [hd]; exact Option.some_ne_none d, fun hsame => hknown ?_⟩
    obtain ⟨bytes, hbytes⟩ := SourceFile.bytes_of_document? hd
    rw [hbytes] at hsame
    obtain ⟨g, hg, hbytes'⟩ := Option.bind_eq_some_iff.mp hsame
    rw [hg, Option.bind_some, SourceFile.hash?_eq_of_bytes (hbytes'.trans hbytes.symm), hhash]
  · rintro ⟨hdocument, hother⟩
    obtain ⟨d, hd⟩ := Option.ne_none_iff_exists'.mp hdocument
    obtain ⟨bytes, hbytes⟩ := SourceFile.bytes_of_document? hd
    have hhash : f.hash? = some (Digest.sha256 bytes.toList) := by
      rw [SourceFile.hash?, hbytes, Option.map_some]
    refine ⟨_, d, _, hd, hhash, fun hknown => hother ?_, rfl⟩
    obtain ⟨g, hg, hghash⟩ := Option.bind_eq_some_iff.mp hknown
    rw [hg, Option.bind_some]
    exact hhashes g (List.mem_cons_of_mem _ (h.found g (List.mem_of_find?_eq_some hg))) f
      List.mem_cons_self (hghash.trans hhash.symm)

theorem sync {now : Listing} (hhashes : DistinctHashes (found ++ now.files)) :
    ReadFrom (ix.sync now.files).1 (reread read now) (found ++ now.files) where
  find?_eq path := by
    by_cases hpath : path ∈ now.files.map SourceFile.path
    · obtain ⟨f, hf, rfl⟩ := List.mem_map.mp hpath
      have hchanged := h.changed_iff (hhashes.mono (List.cons_subset.mpr
        ⟨List.mem_append_right _ hf, List.subset_append_left _ _⟩))
      rw [fileAt?_reread hf, SourceFile.readAfter]
      split
      · next hleft =>
        have hnone : ∀ n, f.outcome (ix.hash? f.path) ≠ .changed n := by
          intro n hn
          obtain ⟨hdocument, hother⟩ := hchanged.mp ⟨n, hn⟩
          exact hleft.elim hdocument hother
        rw [Index.find?_eq_stored?, stored?_sync_of_left now.paths_nodup hf hnone,
          ← Index.find?_eq_stored?, h.find?_eq]
      · next hnew =>
        rw [not_or] at hnew
        obtain ⟨n, hn⟩ := hchanged.mpr hnew
        obtain ⟨id, hstored⟩ := stored?_sync_of_changed now.paths_nodup hf hn
        obtain ⟨d, hash, hd, hhash, _, rfl⟩ := SourceFile.outcome_eq_changed.mp hn
        rw [Index.find?_eq_stored?, hstored, Option.map_some, Option.bind_some, SourceFile.note?,
          hd, hhash]
        rfl
    · rw [Index.find?_eq_stored?, stored?_sync_of_gone hpath, fileAt?_reread_of_gone hpath]
      rfl
  document g hg := by
    obtain ⟨f, hf, hread⟩ := List.mem_filterMap.mp hg
    rcases (readAfter_eq_some hread).2 with hold | ⟨rfl, hdocument⟩
    · exact h.document g hold
    · exact hdocument
  found g hg := by
    obtain ⟨f, hf, hread⟩ := List.mem_filterMap.mp hg
    rcases (readAfter_eq_some hread).2 with hold | ⟨rfl, _⟩
    · exact List.mem_append_left _ (h.found g hold)
    · exact List.mem_append_right _ hf

end ReadFrom

theorem allFiles_append (past : List Listing) (now : Listing) :
    allFiles (past ++ [now]) = allFiles past ++ now.files := by
  rw [allFiles, List.flatMap_append, List.flatMap_singleton, allFiles]

theorem readFrom_indexAfter {states : List Listing} (hhashes : DistinctHashes (allFiles states)) :
    ReadFrom (indexAfter states) (lastRead states) (allFiles states) := by
  induction states using List.reverseRecOn with
  | nil => exact .empty
  | append_singleton past now ih =>
      rw [allFiles_append] at hhashes ⊢
      rw [indexAfter, lastRead, List.foldl_concat, List.foldl_concat]
      exact (ih (hhashes.mono (List.subset_append_left _ _))).sync hhashes

/-- One run on the empty index reads the files that are notes. -/
theorem readFrom_fresh (now : Listing) (hhashes : DistinctHashes now.files) :
    ReadFrom (Index.empty.sync now.files).1 (reread [] now) now.files :=
  ReadFrom.empty.sync hhashes

theorem lastRead_nodup (states : List Listing) :
    ((lastRead states).map SourceFile.path).Nodup := by
  cases states using List.reverseRecOn with
  | nil => exact .nil
  | append_singleton past now =>
      rw [lastRead, List.foldl_concat]
      exact reread_nodup _ now

/-- After any states of the vault, the index lists the notes that one run on the empty index gives
for the files as they have been read last. For the files of the last state as they are, one run
gives the same notes with the times of these files, and no notes for files that are none. -/
theorem sync_rebuilds_last_read (past : List Listing) (now : Listing)
    (hhashes : DistinctHashes (allFiles (past ++ [now]))) :
    let kept := indexAfter (past ++ [now])
    let fresh := indexAfter [now]
    kept.sorted = (Index.empty.sync (lastRead (past ++ [now]))).1.sorted ∧
    (∀ f ∈ now.files, f.document? ≠ none → ∃ n n', kept.find? f.path = some n ∧
      fresh.find? f.path = some n' ∧
      n' = { n with info := { n.info with
        created := n'.info.created
        modified := n'.info.modified } }) ∧
    (∀ f ∈ now.files, f.document? = none →
      kept.find? f.path = (indexAfter past).find? f.path ∧ fresh.find? f.path = none) ∧
    ∀ path, path ∉ now.files.map SourceFile.path →
      kept.find? path = none ∧ fresh.find? path = none := by
  intro kept fresh
  have hkept := readFrom_indexAfter hhashes
  have hall : allFiles (past ++ [now]) = allFiles past ++ now.files := allFiles_append past now
  have hpast : ReadFrom (indexAfter past) (lastRead past) (allFiles past) :=
    readFrom_indexAfter (hhashes.mono (hall ▸ List.subset_append_left _ _))
  have hfresh : ReadFrom fresh (reread [] now) now.files :=
    readFrom_fresh now (hhashes.mono (hall ▸ List.subset_append_right _ _))
  have hread : lastRead (past ++ [now]) = reread (lastRead past) now := by
    rw [lastRead, List.foldl_concat, lastRead]
  refine ⟨?_, ?_, ?_, ?_⟩
  · let listing : Listing := ⟨lastRead (past ++ [now]), lastRead_nodup _⟩
    have hrebuilt := readFrom_fresh listing (hhashes.mono hkept.found)
    rw [reread_nil hkept.document] at hrebuilt
    rw [Index.sorted_eq_iff]
    intro path
    exact (hkept.find?_eq path).trans (hrebuilt.find?_eq path).symm
  · intro f hf hdocument
    obtain ⟨d, hd⟩ := Option.ne_none_iff_exists'.mp hdocument
    obtain ⟨g, hg, hpath, hsame⟩ := @exists_fileAt?_reread (lastRead past) now f hf hdocument
    refine ⟨(d.toNote g.times f.hash?).kept, (d.toNote f.times f.hash?).kept, ?_, ?_, rfl⟩
    · rw [hkept.find?_eq, hread, hg, Option.bind_some]
      exact SourceFile.note?_of_bytes hpath hsame hd
    · have hnew : f.readAfter (fileAt? [] f.path) = some f := SourceFile.readAfter_none hdocument
      rw [hfresh.find?_eq, fileAt?_reread hf, hnew, Option.bind_some]
      exact SourceFile.note?_of_bytes rfl rfl hd
  · intro f hf hnone
    rw [hkept.find?_eq, hpast.find?_eq, hfresh.find?_eq, hread, fileAt?_reread hf,
      fileAt?_reread hf, SourceFile.readAfter, SourceFile.readAfter, if_pos (Or.inl hnone),
      if_pos (Or.inl hnone)]
    exact ⟨rfl, rfl⟩
  · intro path hpath
    rw [hkept.find?_eq, hfresh.find?_eq, hread, fileAt?_reread_of_gone hpath,
      fileAt?_reread_of_gone hpath]
    exact ⟨rfl, rfl⟩

theorem sync_rebuilds_touched_note :
    let first : Listing :=
      ⟨[⟨"a.md", some "# A".toUTF8, ⟨none, some (.ofUnix 1700000000)⟩⟩], by decide⟩
    let second : Listing :=
      ⟨[⟨"a.md", some "# A".toUTF8, ⟨none, some (.ofUnix 1700086400)⟩⟩], by decide⟩
    DistinctHashes (allFiles [first, second]) ∧
      (indexAfter [first, second]).sorted = (indexAfter [first]).sorted := by
  intro first second
  have hhashes : DistinctHashes (allFiles ([first] ++ [second])) := by
    decide +kernel
  have hread : lastRead ([first] ++ [second]) = first.files := by
    have hfirst : reread [] first = first.files := reread_nil (by decide +kernel)
    rw [lastRead, List.foldl_concat, List.foldl_cons, List.foldl_nil, hfirst]
    rfl
  have hrebuilt := (sync_rebuilds_last_read [first] second hhashes).1
  rw [hread] at hrebuilt
  exact ⟨hhashes, hrebuilt⟩

/-- A file is touched and another one becomes one that is no text. -/
theorem sync_differs_from_rebuild :
    let first : Listing :=
      ⟨[⟨"a.md", some "# A".toUTF8, ⟨none, some (.ofUnix 1700000000)⟩⟩,
        ⟨"b.md", some "# B".toUTF8, ⟨none, some (.ofUnix 1700000000)⟩⟩], by decide⟩
    let second : Listing :=
      ⟨[⟨"a.md", some "# A".toUTF8, ⟨none, some (.ofUnix 1700086400)⟩⟩,
        ⟨"b.md", some ⟨#[0xff]⟩, ⟨none, some (.ofUnix 1700086400)⟩⟩], by decide⟩
    let kept := indexAfter [first, second]
    let fresh := indexAfter [second]
    (kept.find? "a.md").map (·.info.modified) = some (some "2023-11-14T22:13:20Z") ∧
      (fresh.find? "a.md").map (·.info.modified) = some (some "2023-11-15T22:13:20Z") ∧
      (kept.find? "b.md").isSome = true ∧ (fresh.find? "b.md").isSome = false ∧
      kept.sorted ≠ fresh.sorted := by
  intro first second kept fresh
  have htouched : (kept.find? "a.md").map (·.info.modified) = some (some "2023-11-14T22:13:20Z") ∧
      (fresh.find? "a.md").map (·.info.modified) = some (some "2023-11-15T22:13:20Z") := by
    decide +kernel
  have hbroken : (kept.find? "b.md").isSome = true ∧ (fresh.find? "b.md").isSome = false := by
    decide +kernel
  refine ⟨htouched.1, htouched.2, hbroken.1, hbroken.2, fun hsame => ?_⟩
  have hfound := Index.sorted_eq_iff.mp hsame "b.md"
  rw [hfound, hbroken.2] at hbroken
  exact Bool.false_ne_true hbroken.1

end Slipbox
