import Slipbox.Digest
import Slipbox.Document.Basic

/-! Bringing an index in line with the files of a vault. A file whose content hash is the one of its
note is left alone, one that is no note leaves its note as it was, and notes without a file are
removed. -/

namespace Slipbox

namespace Vault

/-- A file that the scan has found. One that cannot be read has no bytes. -/
structure SourceFile where
  path : String
  bytes : Option ByteArray
  times : Document.FileTimes

inductive Outcome where
  | changed (n : Note)
  | unchanged
  | failed

/-- What becomes of a file whose note has the content hash `known`. -/
def SourceFile.outcome (known : Option String) (f : SourceFile) : Outcome :=
  match f.bytes with
  | none => .failed
  | some bytes =>
    let hash := Digest.sha256 bytes.toList
    if known = some hash then .unchanged
    else
      match (String.fromUTF8? bytes).bind (Document.parse? f.path) with
      | none => .failed
      | some d => .changed (d.toNote f.times (some hash))

namespace Outcome

def note? : Outcome → Option Note
  | .changed n => some n
  | _ => none

def isUnchanged : Outcome → Bool
  | .unchanged => true
  | _ => false

def isFailed : Outcome → Bool
  | .failed => true
  | _ => false

end Outcome

/-- The counts of one run. -/
structure SyncStats where
  scanned : Nat
  indexed : Nat
  unchanged : Nat
  removed : Nat
  failed : Nat
  deriving DecidableEq, Repr

def SyncStats.text (s : SyncStats) : String :=
  s!"{s.scanned} scanned, {s.indexed} indexed, {s.unchanged} unchanged, " ++
    s!"{s.removed} removed, {s.failed} failed"

end Vault

open Vault

/-- The content hash of the note of a path. -/
def Index.hash? (ix : Index) (path : String) : Option String :=
  (ix.find? path).bind Note.contentHash

/-- Brings the index in line with the files. -/
def Index.sync (ix : Index) (files : List SourceFile) : Index × SyncStats :=
  let outcomes := files.map fun f => f.outcome (ix.hash? f.path)
  let changed := outcomes.filterMap Outcome.note?
  let present := files.map SourceFile.path
  let gone := ix.paths.filter fun p => !present.contains p
  let (written, indexed) := ix.upsertNotes changed
  let (after, removed) := written.removeAll gone
  (after,
    { scanned := files.length
      indexed
      unchanged := outcomes.countP Outcome.isUnchanged
      removed
      failed := outcomes.countP Outcome.isFailed })

end Slipbox
