import Slipbox.Graph.Basic

/-! Notes that resemble each other: by what they link to, by their tags, or by both. For each of
these the share of common keys among all keys of two notes is a score, and the scores are added. -/

namespace Slipbox.Graph

inductive Method where
  | links | tags | both
  deriving DecidableEq, Repr

def Method.usesLinks : Method → Bool
  | .tags => false
  | _ => true

def Method.usesTags : Method → Bool
  | .links => false
  | _ => true

/-- Keys in ascending order, each with the text to show for it. -/
abbrev Keys := List (String × String)

namespace Keys

/-- Enters a key; its text replaces an earlier one. -/
def insert (key shown : String) : Keys → Keys
  | [] => [(key, shown)]
  | (k, s) :: rest =>
    if key < k then (key, shown) :: (k, s) :: rest
    else if key = k then (key, shown) :: rest
    else (k, s) :: insert key shown rest

/-- The keys of some texts: their lower case. -/
def ofTexts (texts : List String) : Keys :=
  texts.foldl (fun keys s => insert (Text.lowercase s) s keys) []

/-- The texts of `a` whose keys are also in `b`. -/
def shared (a b : Keys) : List String :=
  (a.filter fun entry => b.any fun other => other.1 == entry.1).map (·.2)

end Keys

/-- The number of common keys over the number of all keys. -/
def similarity (a b : Keys) : Float :=
  let n := (a.shared b).length
  Float.ofNat n / Float.ofNat (a.length + b.length - n)

/-- What two notes have in common by one method, and how much of all it is. -/
structure Overlap where
  score : Float
  shown : List String

def overlap? (a b : Keys) : Option Overlap :=
  match a.shared b with
  | [] => none
  | shown => some ⟨similarity a b, shown⟩

/-- The targets of a note's links: the paths they resolve to, or their own texts. -/
def linkKeys (g : Graph) (n : Note) : Keys :=
  .ofTexts (n.links.map fun t => (g.resolve? t).getD t)

def tagKeys (n : Note) : Keys :=
  .ofTexts n.sortedTags

structure Related where
  note : Note
  score : Float
  links : Option (List String)
  tags : Option (List String)

def Related.before (a b : Related) : Bool :=
  b.score < a.score || (b.score == a.score && a.note.path ≤ b.note.path)

/-- How another note relates to a note, if they have anything in common. -/
def compare? (g : Graph) (m : Method) (origin other : Note) : Option Related :=
  let links := if m.usesLinks then overlap? (g.linkKeys origin) (g.linkKeys other) else none
  let tags := if m.usesTags then overlap? (tagKeys origin) (tagKeys other) else none
  let score (o : Option Overlap) : Float := match o with
    | some o => o.score
    | none => 0.0
  if links.isNone && tags.isNone then none
  else some ⟨other, score links + score tags, links.map (·.shown), tags.map (·.shown)⟩

/-- The notes most like a note, the best first and then by path. -/
def related (g : Graph) (path : String) (m : Method) (limit : Nat) : List Related :=
  match g.note? path with
  | none => []
  | some origin =>
    (((g.notes.filter fun n => n.path != path).filterMap (g.compare? m origin)).mergeSort
      Related.before).take limit

end Slipbox.Graph
