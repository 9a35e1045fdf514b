/-! Walks from a start, nearest nodes first. Every node found comes with the trail that found it;
nodes at one distance come in the order of the trails that lead to them. -/

namespace Slipbox.Graph

/-- The nodes from the start to some node; the start is the last member of `back`. -/
structure Trail (α : Type) where
  node : α
  back : List α
  deriving DecidableEq

namespace Trail

variable {α : Type}

/-- The number of steps of the trail. -/
def depth (t : Trail α) : Nat :=
  t.back.length

/-- The nodes from the start to the end. -/
def nodes (t : Trail α) : List α :=
  (t.node :: t.back).reverse

def extend (t : Trail α) (node : α) : Trail α :=
  ⟨node, t.node :: t.back⟩

end Trail

namespace Walk

variable {α : Type} [DecidableEq α]

/-- The trails that lead one step further, from each trail in turn and each of its end's neighbours
in turn, to nodes not seen before; with them all nodes seen. -/
def discover (next : α → List α) (seen : List α) : List (Trail α) → List α × List (Trail α)
  | [] => (seen, [])
  | t :: ts =>
    let fresh := (next t.node).filter (· ∉ seen)
    let (seen, found) := discover next (fresh ++ seen) ts
    (seen, fresh.map t.extend ++ found)

/-- The trails of at most `depth` further steps to nodes not seen before, layer by layer. -/
def layers (next : α → List α) : (depth : Nat) → (seen : List α) → List (Trail α) → List (Trail α)
  | 0, _, _ => []
  | d + 1, seen, frontier =>
    match discover next seen frontier with
    | (_, []) => []
    | (seen, found) => found ++ layers next d seen found

/-- A trail to every node other than the start within `depth` steps. -/
def trails (next : α → List α) (start : α) (depth : Nat) : List (Trail α) :=
  layers next depth [start] [⟨start, []⟩]

end Walk

end Slipbox.Graph
