import RoadMatching.Error
import RoadMatching.Graph.Basic
import RoadMatching.Graph.Cost

/-!
Paths between positions on a graph.

A path lists the edges from the one of its source to the one of its target. It is valid if
consecutive edges are linked and a path on a single edge does not run backwards.

* `Path.of?`: the path of the edges given, or the fault that they do not form one.
* `Path.cost`: the rest of the first edge and the following edges, less the rest of the last one.
* `Path.append?`: two paths in a row, if the second continues the first.
-/

namespace RoadMatching

/-- Edges from one position to another. -/
structure Path (K : Type) where
  source : Spot K
  target : Spot K
  edges : List Int
  deriving Repr, DecidableEq

namespace Path

variable {α K : Type}

/-- The path that stays at a position. -/
def single (spot : Spot K) : Path K := ⟨spot, spot, [spot.edge]⟩

/-- Whether each edge is followed by one of its successors. -/
def isLinked (g : Graph α) : List Int → Bool
  | a :: b :: rest => g.isSuccessor a b && isLinked g (b :: rest)
  | _ => true

/-- Whether the edges lead from the source to the target. -/
def isValid [LT K] [DecidableLT K] (g : Graph α) (p : Path K) : Bool :=
  p.edges.head? == some p.source.edge && p.edges.getLast? == some p.target.edge &&
    !(p.source.edge == p.target.edge && decide (p.target.fraction < p.source.fraction) &&
      p.edges.length == 1) &&
    isLinked g p.edges

/-- The path of the edges given, which must be valid. -/
def of? [LT K] [DecidableLT K] (g : Graph α) (source target : Spot K) (edges : List Int) :
    Except NetworkError (Path K) :=
  let p : Path K := ⟨source, target, edges⟩
  if p.isValid g then .ok p else .error (.disconnected source.edge target.edge)

section Cost

variable [Zero K] [One K] [Add K] [Sub K] [Neg K]

/-- The cost of the edge behind a position, zero for an unknown edge. -/
def remainder (g : Graph α) (cost : Cost α K) (spot : Spot K) : K :=
  match g.get? spot.edge with
  | some e => cost.part e.label (1 - spot.fraction)
  | none => 0

/-- The cost of whole edges; unknown ones cost nothing. -/
def fullCost (g : Graph α) (cost : Cost α K) (edges : List Int) : K :=
  total ((edges.filterMap g.get?).map fun e => cost.full e.label)

/-- The cost of a path: the rest of its first edge and its other edges, less what remains of the
last edge behind the target. -/
def cost (g : Graph α) (cost : Cost α K) (p : Path K) : K :=
  remainder g cost p.source + fullCost g cost p.edges.tail - remainder g cost p.target

end Cost

/-- The vertex where one edge ends is the vertex where the other starts. -/
def adjacent (g : Graph α) (id next : Int) : Bool :=
  match g.get? id, g.get? next with
  | some e, some f => e.target == f.source
  | _, _ => false

/-- The first path followed by the second, if the second starts where the first one ends: at the
same position, or at the start of an edge that leaves the vertex at which the first one ends. -/
def append? [Zero K] [One K] [BEq K] (g : Graph α) (p q : Path K) : Option (Path K) :=
  if p.target.edge = q.source.edge then
    if p.target.fraction == q.source.fraction then
      some ⟨p.source, q.target, p.edges ++ q.edges.tail⟩
    else none
  else if adjacent g p.target.edge q.source.edge && p.target.fraction == 1 &&
      q.source.fraction == 0 then
    some ⟨p.source, q.target, p.edges ++ q.edges⟩
  else none

end Path

end RoadMatching
