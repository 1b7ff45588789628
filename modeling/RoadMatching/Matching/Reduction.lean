import RoadMatching.Road.Map

/-!
Positions around a sample, without those that another position stands for.

At a crossing, the end of a road leading in and the starts of the roads leading out are the same
place. A start is dropped if a road leading into its road holds a position, and an end if every road
leading out of its road holds a position further on.

* `isStart`, `isEnd`: whether a position is at an end of its road, to within a precision.
* `isMissing`: whether a road holds no position other than at its start.
* `startDropped`, `endDropped`: the two ways in which a road loses its position.
* `reduce`: the positions of the roads that do not lose theirs, one for each road.
-/

namespace RoadMatching

namespace Reduction

variable {K : Type}

/-! ### The ends of roads -/

section Ends

variable [Analysis K] [NatCast K] [Mul K] [Div K] [BEq K]

/-- Fractions are told apart to within this precision. -/
def precision : K := ratio 1 100000000

/-- The multiple of the precision closest to a number. -/
def snap (x : K) : K := Analysis.nearest (x / precision) * precision

/-- Whether a position is at the start of its road. -/
def isStart [Zero K] (p : RoadPoint K) : Bool := snap p.fraction == 0

/-- Whether a position is at the end of its road. -/
def isEnd [One K] (p : RoadPoint K) : Bool := snap p.fraction == 1

end Ends

/-! ### The positions kept -/

/-- The position on a road, the last one if there are more. -/
def on? (points : List (RoadPoint K)) (road : Int) : Option (RoadPoint K) :=
  points.reverse.find? fun p => p.road == road

/-- The first position on each road. -/
def firstOnEach : List (RoadPoint K) → List (RoadPoint K)
  | [] => []
  | p :: rest => p :: (firstOnEach rest).filter fun q => q.road != p.road

variable [Analysis K] [NatCast K] [Zero K] [One K] [Mul K] [Div K] [BEq K]

/-- Whether a road holds no position other than at its start. -/
def isMissing (points : List (RoadPoint K)) (road : Int) : Bool :=
  match on? points road with
  | some p => isStart p
  | none => true

/-- Whether the position of a road is at its start and there is one on a road leading into it. -/
def startDropped (graph : Graph (Road K)) (points : List (RoadPoint K)) (road : Int) : Bool :=
  (on? points road).any isStart && points.any fun p => graph.isSuccessor p.road road

/-- Whether the position of a road is at its end and every road leading out of it holds another
one. -/
def endDropped (graph : Graph (Road K)) (points : List (RoadPoint K)) (road : Int) : Bool :=
  (points.any fun p => p.road == road && isEnd p) &&
    !(graph.successors road).any fun e => isMissing points e.id

/-- The positions that no other one stands for. -/
def reduce (graph : Graph (Road K)) (points : List (RoadPoint K)) : List (RoadPoint K) :=
  firstOnEach <| points.filter fun p =>
    !(startDropped graph points p.road || endDropped graph points p.road)

end Reduction

end RoadMatching
