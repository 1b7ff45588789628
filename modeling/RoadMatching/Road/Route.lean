import RoadMatching.Graph.Path
import RoadMatching.Road.Travel
import RoadMatching.Road.Map

/-!
Routes: paths on the road network between positions on roads.

A route knows its length in metres and its time in seconds, which are measured on the map whenever
the route is made or grows.

* `Route.of?`: the route over the roads given, or the fault that they do not form a path.
* `Route.append?`: a route followed by another one that goes on from its target.
* `Route.geometry`: the line of a route: its source, the vertices of its roads between the source
  and the target, and its target. A vertex shared by consecutive roads stands once.
* `Route.toJson`, `Route.ofJson`: a route as its ends and its roads; it is measured again when read.
-/

namespace RoadMatching

/-- A way over roads from one position to another. -/
structure Route (K : Type) where
  source : RoadPoint K
  target : RoadPoint K
  roads : List Int
  /-- The length in metres. -/
  length : K
  /-- The travel time in seconds. -/
  time : K
  deriving Repr, BEq

namespace Route

variable {K : Type}

/-- The path of the route. -/
def path (r : Route K) : Path K := ⟨r.source.spot, r.target.spot, r.roads⟩

/-- The number of roads. -/
def size (r : Route K) : Nat := r.roads.length

/-- The route that stays at a position. -/
def single [Zero K] (p : RoadPoint K) : Route K := ⟨p, p, [p.road], 0, 0⟩

/-! ### Measures -/

section Measure

variable [NatCast K] [Zero K] [One K] [Add K] [Sub K] [Mul K] [Div K] [Neg K]
variable [LT K] [DecidableLT K] [BEq K]

/-- The cost of the route. -/
def cost (r : Route K) (map : RoadMap K) (cost : Cost (Road K) K) : K :=
  r.path.cost map.graph cost

/-- The route with its length and its time on the map. -/
def measured (r : Route K) (map : RoadMap K) : Route K :=
  { r with length := r.cost map Road.distance, time := r.cost map Road.time }

/-- The route over the roads from the source to the target. -/
def of? (map : RoadMap K) (source target : RoadPoint K) (roads : List Int) :
    Except MapError (Route K) :=
  match Path.of? map.graph source.spot target.spot roads with
  | .ok _ => .ok (measured ⟨source, target, roads, 0, 0⟩ map)
  | .error e => .error (.network e)

/-- The route followed by another one, if that one goes on where it ends. -/
def append? (map : RoadMap K) (r s : Route K) : Option (Route K) :=
  (r.path.append? map.graph s.path).map fun path =>
    measured ⟨r.source, s.target, path.edges, 0, 0⟩ map

end Measure

/-! ### The line of a route -/

section Geometry

variable [Geodesy K] [Zero K] [Add K]

/-- The ends of segments, each with the length covered up to it. -/
def milestonesFrom (covered : K) : List (Segment K) → List (K × Point K)
  | [] => []
  | s :: rest => (covered + s.length, s.stop) :: milestonesFrom (covered + s.length) rest

/-- The vertices of a road behind its first one, each with the length covered up to it. -/
def milestones (r : Road K) : List (K × Point K) := milestonesFrom 0 r.geometry.segments

variable [LE K] [DecidableLE K]

/-- The milestones behind a length. -/
def beyond (covered : K) (stones : List (K × Point K)) : List (K × Point K) :=
  stones.filter fun stone => !decide (stone.1 ≤ covered)

/-- The milestones in front of a length. -/
def before (covered : K) (stones : List (K × Point K)) : List (K × Point K) :=
  stones.takeWhile fun stone => !decide (covered ≤ stone.1)

/-- The vertices of the roads between two positions. On one road these are the inner vertices
between the positions; else the vertices of the first road behind the source, those of the roads
between, and the inner ones of the last road in front of the target. -/
def vertices [Mul K] (r : Route K) (map : RoadMap K) : Line K :=
  match r.roads.head?.bind map.road?, r.roads.getLast?.bind map.road? with
  | some first, some last =>
    let departure := first.length * r.source.fraction
    let arrival := last.length * r.target.fraction
    if first.id = last.id then
      (before arrival (beyond departure (milestones first).dropLast)).map Prod.snd
    else
      (beyond departure (milestones first)).map Prod.snd ++
        (r.roads.tail.dropLast.filterMap map.road?).flatMap (fun road => road.geometry.tail) ++
        (before arrival (milestones last).dropLast).map Prod.snd
  | _, _ => []

/-- The line of the route. -/
def geometry [Mul K] (r : Route K) (map : RoadMap K) : Line K :=
  r.source.position :: r.vertices map ++ [r.target.position]

end Geometry

/-! ### Routes in JSON -/

/-- The JSON value of a route. -/
def toJson [Extended K] (r : Route K) : Json K :=
  Json.object
    [("source", r.source.toJson), ("target", r.target.toJson), ("roads", .arr (r.roads.map .int))]

section Read

variable [Geodesy K] [Analysis K] [Numeral K] [NatCast K] [IntCast K] [Zero K] [One K] [Add K]
variable [Sub K] [Mul K] [Div K] [Neg K] [BEq K] [LT K] [DecidableLT K] [LE K] [DecidableLE K]

/-- A part of a route. -/
def part (json : Json K) (key : String) : Except MapError (Json K) :=
  match json.field? key with
  | some value => .ok value
  | none => .error (.malformed ("route is missing '" ++ key ++ "'"))

/-- The roads of a route. -/
def roadsOfJson (json : Json K) : Except MapError (List Int) :=
  match json.items? with
  | none => .error (.malformed "route roads are not an array")
  | some items => items.mapM fun item =>
    match item.integer? with
    | some road => .ok road
    | none => .error (.malformed ("invalid road " ++ item.render))

/-- The route on the map that a JSON value says. -/
def ofJson (map : RoadMap K) (json : Json K) : Except MapError (Route K) := do
  let source ← RoadPoint.ofJson map (← part json "source")
  let target ← RoadPoint.ofJson map (← part json "target")
  let roads ← roadsOfJson (← part json "roads")
  of? map source target roads

end Read

end Route

end RoadMatching
