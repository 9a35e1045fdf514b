import Slipbox.Index
import Slipbox.Text.Blank

/-! The text that the file of an index holds. Every text in it stands behind its length and every
list behind its size, so that no character needs to be escaped. -/

namespace Slipbox.Index.Archive

def heading : String := "slipbox 1\n"

/-! Writing. -/

def number (n : Nat) : String := toString n ++ ":"

def text (s : String) : String := number s.length ++ s

def optional {α : Type} (f : α → String) : Option α → String
  | none => "-"
  | some a => "+" ++ f a

def list {α : Type} (f : α → String) (items : List α) : String :=
  number items.length ++ String.join (items.map f)

def note (n : Note) : String :=
  text n.info.path ++ text n.info.title ++ optional text n.info.type ++
    optional text n.info.created ++ optional text n.info.modified ++ optional text n.info.source ++
    optional (fun x : Float => number x.toBits.toNat) n.info.confidence ++
    (if n.info.verified then "+" else "-") ++ text n.content ++ optional text n.contentHash ++
    list text n.tags ++ list text n.links

/-! Reading. -/

abbrev Read (α : Type) := List Char → Option (α × List Char)

def number? : Read Nat := fun cs =>
  match cs.dropWhile Char.isDigit with
  | ':' :: rest =>
    let ds := cs.takeWhile Char.isDigit
    if ds.isEmpty then none
    else some (ds.foldl (fun n c => 10 * n + (c.toNat - '0'.toNat)) 0, rest)
  | _ => none

def text? : Read String := fun cs =>
  (number? cs).bind fun (n, cs) =>
    if n ≤ cs.length then some (String.ofList (cs.take n), cs.drop n) else none

def mark? : Read Bool
  | '+' :: cs => some (true, cs)
  | '-' :: cs => some (false, cs)
  | _ => none

def optional? {α : Type} (f : Read α) : Read (Option α) := fun cs => do
  match ← mark? cs with
  | (true, cs) => (f cs).map fun (a, cs) => (some a, cs)
  | (false, cs) => some (none, cs)

def items? {α : Type} (f : Read α) : (count : Nat) → Read (List α)
  | 0, cs => some ([], cs)
  | n + 1, cs => do
    let (a, cs) ← f cs
    let (as, cs) ← items? f n cs
    some (a :: as, cs)

def list? {α : Type} (f : Read α) : Read (List α) := fun cs =>
  (number? cs).bind fun (n, cs) => items? f n cs

def double? : Read Float := fun cs =>
  (number? cs).map fun (n, cs) => (Float.ofBits n.toUInt64, cs)

def note? : Read Note := fun cs => do
  let (path, cs) ← text? cs
  let (title, cs) ← text? cs
  let (type, cs) ← optional? text? cs
  let (created, cs) ← optional? text? cs
  let (modified, cs) ← optional? text? cs
  let (source, cs) ← optional? text? cs
  let (confidence, cs) ← optional? double? cs
  let (verified, cs) ← mark? cs
  let (content, cs) ← text? cs
  let (contentHash, cs) ← optional? text? cs
  let (tags, cs) ← list? text? cs
  let (links, cs) ← list? text? cs
  let info := { path, title, type, created, modified, source, confidence, verified }
  some ({ info, content, contentHash, tags, links }, cs)

end Archive

/-- The index as text. -/
def encode (ix : Index) : String :=
  Archive.heading ++ Archive.list Archive.note ix.all

/-- The index that a text holds. -/
def decode? (s : String) : Option Index := do
  let (notes, rest) ← Archive.list? Archive.note? (← Text.after? Archive.heading.toList s.toList)
  if rest.isEmpty then some (empty.upsertAll notes) else none

end Slipbox.Index
