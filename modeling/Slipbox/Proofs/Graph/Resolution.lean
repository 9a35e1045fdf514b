import Mathlib.Data.List.Basic
import Slipbox.Graph.Resolver

/-! The resolver finds what a search through the notes from first to last finds that tries one rule
after the other: its lookups by text are searches that have been made beforehand. -/

namespace Slipbox.Graph

namespace Lookup

theorem positions_empty (key : String) : empty.positions key = [] :=
  Std.HashMap.getD_empty

theorem positions_enter (l : Lookup) (key key' : String) (position : Nat) :
    (l.enter key position).positions key' =
      if key = key' then position :: l.positions key' else l.positions key' := by
  unfold enter positions
  rw [Std.HashMap.getD_insert]
  by_cases hkey : key = key'
  · rw [if_pos (by simpa using hkey), if_pos hkey, hkey]
  · rw [if_neg (by simpa using hkey), if_neg hkey]

/-- The first position that a lookup holds for a text is where the text first stands in the list. -/
theorem first?_ofList (keys : List String) (key : String) :
    (ofList keys).first? key = keys.findIdx? (· == key) := by
  have hfrom (start : Nat) :
      (ofListFrom start keys).first? key = (keys.findIdx? (· == key)).map (· + start) := by
    induction keys generalizing start with
    | nil =>
        rw [ofListFrom, first?, positions_empty, List.findIdx?_nil, Option.map_none,
          List.head?_nil]
    | cons k keys ih =>
        rw [ofListFrom, first?, positions_enter, List.findIdx?_cons]
        by_cases hkey : k = key
        · simp [hkey]
        · have hrest := ih (start + 1)
          rw [first?] at hrest
          rw [if_neg hkey, hrest]
          simp only [beq_iff_eq, hkey, if_false, Option.map_map]
          congr 1
          funext i
          exact (Nat.add_right_comm i 1 start).symm
  rw [ofList, hfrom]
  exact Option.map_id'

end Lookup

/-- How a target may name a note; an earlier rule counts before a later one. -/
inductive Rule where
  | path | title | name
  deriving DecidableEq

namespace Rule

def all : List Rule := [.path, .title, .name]

def rank : Rule → Nat
  | .path => 0
  | .title => 1
  | .name => 2

theorem mem_all (r : Rule) : r ∈ all := by
  cases r <;> decide

theorem all_sorted : all.Pairwise fun r r' => r.rank < r'.rank := by
  decide

/-- The rules are tried by rank. -/
theorem findSome?_all {β : Type} {f : Rule → Option β} {b : β} :
    all.findSome? f = some b ↔ ∃ r, f r = some b ∧ ∀ r', r'.rank < r.rank → f r' = none := by
  rw [List.findSome?_eq_some_iff]
  constructor
  · rintro ⟨before, r, behind, hall, hr, hbefore⟩
    refine ⟨r, hr, fun r' hrank => hbefore r' ?_⟩
    have hsorted := all_sorted
    have hmem := mem_all r'
    rw [hall] at hsorted hmem
    rcases List.mem_append.mp hmem with hmem | hmem
    · exact hmem
    · exfalso
      rcases List.mem_cons.mp hmem with rfl | hmem
      · exact Nat.lt_irrefl _ hrank
      · have hlater := (List.pairwise_cons.mp (List.pairwise_append.mp hsorted).2.1).1 r' hmem
        omega
  · rintro ⟨r, hr, hfirst⟩
    obtain ⟨before, behind, hall⟩ := List.append_of_mem (mem_all r)
    refine ⟨before, r, behind, hall, hr, fun r' hr' => hfirst r' ?_⟩
    have hsorted := all_sorted
    rw [hall] at hsorted
    exact (List.pairwise_append.mp hsorted).2.2 r' hr' r List.mem_cons_self

/-- Whether a target without outer white space names a note, which is given by path and title. -/
def Names (t : List Char) (note : String × String) : Rule → Prop
  | .path => note.1.toList = t
  | .title => Text.lower note.2.toList = Text.lower t
  | .name =>
    let key := stripExtension (Text.lower t)
    if '/' ∈ key then
      let path := Text.lower (stripExtension note.1.toList)
      path = key ∨ '/' :: key.dropWhile (· == '/') <:+ path
    else Text.lower (stripExtension (fileName note.1.toList)) = key

instance (t : List Char) (note : String × String) : (r : Rule) → Decidable (r.Names t note)
  | .path | .title => inferInstanceAs (Decidable (_ = _))
  | .name => inferInstanceAs (Decidable (ite _ _ _))

/-- The first position of a note that the target names by this rule. -/
def search? (notes : List (String × String)) (t : List Char) (r : Rule) : Option Nat :=
  notes.findIdx? fun note => r.Names t note

theorem search?_eq_some {notes : List (String × String)} {t : List Char} {r : Rule} {i : Nat} :
    r.search? notes t = some i ↔ (∃ note, notes[i]? = some note ∧ r.Names t note) ∧
      ∀ j < i, ∀ note, notes[j]? = some note → ¬ r.Names t note := by
  rw [search?, List.findIdx?_eq_some_iff_getElem]
  constructor
  · rintro ⟨hi, hnames, hbefore⟩
    refine ⟨⟨notes[i], List.getElem?_eq_getElem hi, by simpa using hnames⟩,
      fun j hj note hnote => ?_⟩
    obtain ⟨hj', rfl⟩ := List.getElem?_eq_some_iff.mp hnote
    simpa using hbefore j hj
  · rintro ⟨⟨note, hnote, hnames⟩, hbefore⟩
    obtain ⟨hi, rfl⟩ := List.getElem?_eq_some_iff.mp hnote
    exact ⟨hi, by simpa using hnames,
      fun j hj => by simpa using hbefore j hj _ (List.getElem?_eq_getElem (Nat.lt_trans hj hi))⟩

theorem search?_eq_none {notes : List (String × String)} {t : List Char} {r : Rule} :
    r.search? notes t = none ↔ ∀ note ∈ notes, ¬ r.Names t note := by
  simp [search?]

end Rule

/-- The search through all notes for the one that a target names: rule after rule, and by each rule
from the first note to the last. -/
def search? (notes : List (String × String)) (target : String) : Option Nat :=
  match Text.trim target.toList with
  | [] => none
  | t => Rule.all.findSome? (Rule.search? notes t)

namespace Resolver

variable (notes : List (String × String))

theorem first?_byPath (t : List Char) :
    (ofNotes notes).byPath.first? (String.ofList t) = Rule.path.search? notes t := by
  simp only [ofNotes, Lookup.first?_ofList, List.findIdx?_map, Rule.search?]
  refine congrArg (List.findIdx? · notes) (funext fun note => ?_)
  rw [Function.comp_apply, Bool.eq_iff_iff, beq_iff_eq, decide_eq_true_iff, String.ext_iff,
    String.toList_ofList]
  rfl

theorem first?_byTitle (t : List Char) :
    (ofNotes notes).byTitle.first? (String.ofList (Text.lower t)) =
      Rule.title.search? notes t := by
  simp only [ofNotes, Lookup.first?_ofList, List.findIdx?_map, Rule.search?]
  refine congrArg (List.findIdx? · notes) (funext fun note => ?_)
  rw [Function.comp_apply, Bool.eq_iff_iff, beq_iff_eq, decide_eq_true_iff, Text.lowercase,
    String.ofList_inj]
  rfl

theorem byName?_eq_search? (t : List Char) :
    (ofNotes notes).byName? (stripExtension (Text.lower t)) = Rule.name.search? notes t := by
  unfold byName? Rule.search? Rule.Names
  split
  · next hslash =>
    simp only [ofNotes, List.map_map, List.findIdx?_map]
    refine congrArg (List.findIdx? · notes) (funext fun note => ?_)
    rw [Bool.eq_iff_iff, decide_eq_true_iff]
    simp [hslash, endsAt, pathKey]
  · next hslash =>
    simp only [ofNotes, Lookup.first?_ofList, List.map_map, List.findIdx?_map]
    refine congrArg (List.findIdx? · notes) (funext fun note => ?_)
    rw [Bool.eq_iff_iff, decide_eq_true_iff]
    simp [hslash, stemKey, String.ofList_inj]

theorem position?_eq_search? (target : String) :
    (ofNotes notes).position? target = search? notes target := by
  unfold position? search?
  cases Text.trim target.toList with
  | nil => rfl
  | cons c cs =>
      dsimp only
      rw [first?_byPath, first?_byTitle, byName?_eq_search?]
      simp only [Rule.all, List.findSome?]
      cases Rule.path.search? notes (c :: cs) <;> cases Rule.title.search? notes (c :: cs) <;>
        cases Rule.name.search? notes (c :: cs) <;> rfl

/-- The resolver makes the same choice as a search through the notes. It leads to the first note
that the target names by some rule, and then by no stronger rule does the target name any note. -/
theorem position_by_rank (target : String) :
    (ofNotes notes).position? target = search? notes target ∧
    ∀ i, (ofNotes notes).position? target = some i ↔
      Text.trim target.toList ≠ [] ∧ ∃ r : Rule,
        (∃ note, notes[i]? = some note ∧ r.Names (Text.trim target.toList) note) ∧
        (∀ j < i, ∀ note, notes[j]? = some note → ¬ r.Names (Text.trim target.toList) note) ∧
        ∀ r' : Rule, r'.rank < r.rank → ∀ note ∈ notes,
          ¬ r'.Names (Text.trim target.toList) note := by
  refine ⟨position?_eq_search? notes target, fun i => ?_⟩
  rw [position?_eq_search?, search?]
  cases Text.trim target.toList with
  | nil => simp
  | cons c cs =>
      simp only [Rule.findSome?_all, Rule.search?_eq_some, Rule.search?_eq_none, and_assoc, ne_eq,
        reduceCtorEq, not_false_eq_true, true_and]

end Resolver

end Slipbox.Graph
