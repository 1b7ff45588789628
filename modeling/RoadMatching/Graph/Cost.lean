import RoadMatching.Number.Scalar

/-!
Positions on edges, and what it costs to travel them.

* `Spot`: a position on an edge, by the fraction of the edge before it.
* `Cost`: the cost of a whole edge and of a fraction of it; `Cost.linear` takes a fraction in
  proportion.
* `Limit`: the greatest amount of a second cost that a search may spend.
-/

namespace RoadMatching

/-- A position on an edge: zero is its source, one its target. -/
structure Spot (K : Type) where
  edge : Int
  fraction : K
  deriving Repr, BEq, DecidableEq

/-- The costs of edges with labels of type `α`. -/
structure Cost (α K : Type) where
  full : α → K
  part : α → K → K

namespace Cost

variable {α K : Type}

/-- The cost in proportion to the fraction. -/
def linear [Mul K] (full : α → K) : Cost α K where
  full := full
  part := fun label fraction => full label * fraction

/-- The label itself as cost. -/
def weight [Mul K] : Cost K K := linear id

/-- Every edge costs one. -/
def hops [Mul K] [One K] : Cost α K := linear fun _ => 1

/-- The label as cost, and a fraction of it by the square. -/
def square [Mul K] : Cost K K where
  full := id
  part := fun label fraction => label * fraction * fraction

end Cost

/-- The greatest amount of a cost that may be spent. -/
structure Limit (α K : Type) where
  cost : Cost α K
  max : K

end RoadMatching
