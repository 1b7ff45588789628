import RoadMatching.Error
import RoadMatching.Geo.LineIndex
import RoadMatching.Json.Printer
import RoadMatching.Road.Basic

/-!
The road map: the network of roads and an index of the lines of their streets.

Both are searched once the map is constructed, and adding a street drops what was constructed.

* `add`: puts the roads of a street into the network, each in the place of the road that has its
  identifier.
* `pointsOf`: what is found on a street lies on its forward road, and at the opposite fraction on
  its backward road.
* `nearest`, `within`, `firstNearest`: the positions on roads around a position.
* `RoadPoint.toJson`, `RoadPoint.ofJson`: a position on a road as the road and the fraction; the map
  gives the rest.
-/

namespace RoadMatching

/-- A network of roads, with an index of their streets if it has been constructed. -/
structure RoadMap (K : Type) where
  graph : Graph (Road K)
  index : Option (LineIndex K)

namespace RoadMap

variable {K : Type}

/-- The map without roads. -/
def empty : RoadMap K := ⟨.empty, none⟩

/-- The number of roads. -/
def size (map : RoadMap K) : Nat := map.graph.size

/-- The road of an identifier. -/
def road? (map : RoadMap K) (id : Int) : Option (Road K) := (map.graph.get? id).map Edge.label

/-- Whether the roads can be routed and searched. -/
def isConstructed (map : RoadMap K) : Bool := map.index.isSome && map.graph.isConstructed

/-- Adds the roads of a street. -/
def add (map : RoadMap K) (street : Street K) : RoadMap K where
  graph := (street.roads.map Road.edge).foldl Graph.add map.graph
  index := none

/-- The map of the streets; a road of a later street replaces an earlier one of its identifier. -/
def ofList (streets : List (Street K)) : RoadMap K := streets.foldl add empty

/-- The lines of the streets that have a forward road, under the identifiers of the streets. -/
def lines (map : RoadMap K) : List (Int × Line K) :=
  (map.graph.edges.toList.map Edge.label).filterMap fun r =>
    if r.heading = .forward then some (r.street.id, r.street.geometry) else none

/-- Links the roads and indexes the lines of their streets. -/
def construct [Zero K] [LT K] [DecidableLT K] (map : RoadMap K) : RoadMap K where
  graph := map.graph.construct
  index := some (.ofList map.lines)

/-- Drops the links and the index. -/
def deconstruct (map : RoadMap K) : RoadMap K where
  graph := map.graph.deconstruct
  index := none

section Points

variable [Geodesy K] [Analysis K] [NatCast K] [Zero K] [One K] [Add K] [Sub K] [Mul K] [Div K]
variable [Neg K] [LT K] [DecidableLT K] [LE K] [DecidableLE K]

/-- The position at a fraction of a road. -/
def point (map : RoadMap K) (road : Int) (fraction : K) : Except MapError (RoadPoint K) :=
  match map.road? road with
  | some r => .ok (.on r fraction)
  | none => .error (.unknownRoad road)

/-- The positions on the roads of a street that has been hit. -/
def pointsOf (map : RoadMap K) (hit : Hit K) : List (RoadPoint K) :=
  let forward := (map.road? (Road.idOf hit.id .forward)).map fun r => .on r hit.fraction
  let backward := (map.road? (Road.idOf hit.id .backward)).map fun r => .on r (1 - hit.fraction)
  forward.toList ++ backward.toList

/-- The positions that a search of the index yields. -/
def search (map : RoadMap K) (find : LineIndex K → List (Hit K)) :
    Except MapError (List (RoadPoint K)) :=
  match map.index with
  | some index => .ok ((find index).flatMap map.pointsOf)
  | none => .error .notConstructed

variable [BEq K] [LineTree K]

/-- The positions on the roads within a radius in metres. -/
def within (map : RoadMap K) (p : Point K) (radius : K) : Except MapError (List (RoadPoint K)) :=
  map.search fun index => index.within p radius

/-- The positions on the roads of the nearest streets. -/
def nearest (map : RoadMap K) (p : Point K) : Except MapError (List (RoadPoint K)) :=
  map.search fun index => index.nearest p

/-- The positions on the roads of `k` streets nearby. -/
def firstNearest [Ord K] (map : RoadMap K) (p : Point K) (k : Nat) :
    Except MapError (List (RoadPoint K)) :=
  map.search fun index => index.firstNearest p k

end Points

end RoadMap

/-! ### Points in JSON -/

namespace RoadPoint

variable {K : Type}

/-- The JSON value of a position. -/
def toJson [Extended K] (p : RoadPoint K) : Json K :=
  Json.object [("road", .int p.road), ("frac", .ofNumber p.fraction)]

/-- The position on a road of the map that a JSON value says. -/
def ofJson [Geodesy K] [Analysis K] [Numeral K] [NatCast K] [IntCast K] [Zero K] [One K] [Add K]
    [Sub K] [Mul K] [Div K] [Neg K] [LT K] [DecidableLT K] [LE K] [DecidableLE K]
    (map : RoadMap K) (json : Json K) : Except MapError (RoadPoint K) :=
  match (json.field? "road").bind Json.integer?, (json.field? "frac").bind Json.number? with
  | none, _ => .error (.malformed ("missing road in " ++ json.render))
  | some _, none => .error (.malformed ("missing frac in " ++ json.render))
  | some road, some fraction => map.point road fraction

end RoadPoint

end RoadMatching
