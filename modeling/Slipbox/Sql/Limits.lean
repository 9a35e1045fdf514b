import Slipbox.Sql.Run

/-! The limits that a statement has to keep to: how deep its condition nests, how many placeholders
it has, and how large the texts that stand for them are. -/

namespace Slipbox.Sql

/-- The largest depth of a condition. -/
def maxDepth : Nat := 1000

def maxPlaceholders : Nat := 32766

/-- The largest number of bytes in a text. -/
def maxTextSize : Nat := 1000000000

namespace Scalar

/-- The height of the tree that a scalar is; the name of a column is a tree of table and column. -/
def height : Scalar → Nat
  | .column _ => 2
  | .param _ | .integer _ | .string _ => 1
  | .substr text first length => max text.height (max first.height length.height) + 1

def placeholders : Scalar → Nat
  | .param _ => 1
  | .column _ | .integer _ | .string _ => 0
  | .substr text first length => text.placeholders + first.placeholders + length.placeholders

end Scalar

namespace Condition

/-- The height of the tree that a condition is, with the conditions of searches in it. -/
def height : Condition → Nat
  | .compare _ left right _ => max left.height right.height + 1
  | .like subject pattern _ => max subject.height pattern.height + 1
  | .existsTag inner => inner.height + 1
  | .not c => c.height + 1
  | .and l r | .or l r => max l.height r.height + 1

/-- The height of the conditions of searches within one another, taken together. -/
def searchHeight : Condition → Nat
  | .compare .. | .like .. => 0
  | .existsTag inner => inner.height + inner.searchHeight
  | .not c => c.searchHeight
  | .and l r | .or l r => max l.searchHeight r.searchHeight

/-- How deep a condition nests. That of a search counts twice: as a part of the one around it and,
while this is still open, once more on its own. -/
def depth (c : Condition) : Nat :=
  c.height + c.searchHeight

def placeholders : Condition → Nat
  | .compare _ left right _ => left.placeholders + right.placeholders
  | .like subject pattern _ => subject.placeholders + pattern.placeholders
  | .existsTag c | .not c => c.placeholders
  | .and l r | .or l r => l.placeholders + r.placeholders

end Condition

namespace Select

def placeholders (q : Select) : Nat :=
  q.condition.elim 0 Condition.placeholders + q.limit.placeholders

/-- Whether a statement can be read: its condition is not too deep, nor does it have too many
placeholders. -/
def isReadable (q : Select) : Bool :=
  q.condition.elim 0 Condition.depth ≤ maxDepth && q.placeholders ≤ maxPlaceholders

/-- Whether a statement yields no rows but an error: it cannot be read, a value is too large, or a
test fails for a note. -/
def isRefused (q : Select) (params : List Value) (tables : Tables) : Bool :=
  !q.isReadable || (params.any fun v => maxTextSize < v.size) ||
    tables.notes.any fun row => q.condition.any fun c => c.fails params tables ⟨row, none⟩

end Select

end Slipbox.Sql
