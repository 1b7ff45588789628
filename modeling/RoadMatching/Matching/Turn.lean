import RoadMatching.Road.Map

/-!
Routes that turn around on the street where they start.

Such a route runs to the end of a road only to come back on the opposite road. It is cut short by
turning around on the spot.

* `Turn`: the ends and the roads of a route.
* `shorten?`: the route that turns around at once. If it goes on to other roads, it starts on the
  opposite road. If it ends on the street, it stays on one of the two roads, and the turn costs
  `penalty` metres.
-/

namespace RoadMatching

/-- The ends of a route and its roads. -/
structure Turn (K : Type) where
  start : RoadPoint K
  stop : RoadPoint K
  roads : List Int

namespace Turn

variable {K : Type} [Geodesy K] [Analysis K] [NatCast K] [Zero K] [One K] [Add K] [Sub K] [Mul K]
variable [Div K] [Neg K] [BEq K] [LT K] [DecidableLT K] [LE K] [DecidableLE K]

/-- The metres that turning around on a road counts for. -/
def penalty : K := (5 : Nat)

/-- The first two roads, if they are the two roads of one street. -/
def opposite? (map : RoadMap K) (turn : Turn K) : Option (Road K × Road K) :=
  match turn.roads with
  | a :: b :: _ =>
    match map.road? a, map.road? b with
    | some first, some second =>
      if first.street.id = second.street.id ∧ first.id ≠ second.id then some (first, second)
      else none
    | _, _ => none
  | _ => none

/-- The route that turns around on the spot, if it turns around on the street of its start. -/
def shorten? (map : RoadMap K) (turn : Turn K) : Option (Turn K) :=
  (turn.opposite? map).map fun (first, second) =>
    if 2 < turn.roads.length then
      { turn with start := .on second (1 - turn.start.fraction), roads := turn.roads.tail }
    else if turn.start.fraction < 1 - turn.stop.fraction then
      let fraction := least (1 - turn.stop.fraction + penalty / first.length) 1
      { turn with stop := .on first fraction, roads := turn.roads.take 1 }
    else
      let fraction := greatest (1 - turn.start.fraction - penalty / second.length) 0
      { turn with start := .on second fraction, roads := turn.roads.tail }

end Turn

end RoadMatching
