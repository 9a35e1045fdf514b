import Std.Data.HashMap

/-! Positions of texts in a list, by text. -/

namespace Slipbox.Graph

/-- For every text of a list the positions at which it stands, in ascending order. -/
structure Lookup where
  table : Std.HashMap String (List Nat)

namespace Lookup

def empty : Lookup := ⟨∅⟩

/-- The positions of a text. -/
def positions (l : Lookup) (key : String) : List Nat :=
  l.table.getD key []

def first? (l : Lookup) (key : String) : Option Nat :=
  (l.positions key).head?

/-- Enters a position before all those that are there. -/
def enter (l : Lookup) (key : String) (position : Nat) : Lookup :=
  ⟨l.table.insert key (position :: l.positions key)⟩

/-- The lookup of texts whose first one stands at position `start`. -/
def ofListFrom (start : Nat) : List String → Lookup
  | [] => empty
  | key :: keys => (ofListFrom (start + 1) keys).enter key start

def ofList (keys : List String) : Lookup :=
  ofListFrom 0 keys

end Lookup

end Slipbox.Graph
