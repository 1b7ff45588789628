import RoadMatching.Markov.Snapshot
import RoadMatching.Matching.State

/-!
Snapshots of match states. Positions and routes are written without their coordinates, which the map
gives again when they are read.
-/

namespace RoadMatching

namespace RoadMap

variable {K : Type}

/-- The fault of a part of a snapshot. -/
def snapshotFault {α : Type} (part : Except MapError α) : Except MemoryError α :=
  part.mapError fun e => .malformedSnapshot e.message

variable [Geodesy K] [Analysis K] [Numeral K] [GeometryText K] [NatCast K] [IntCast K] [Zero K]
variable [One K] [Add K] [Sub K] [Mul K] [Div K] [Neg K] [BEq K] [LT K] [DecidableLT K] [LE K] [DecidableLE K]

/-- The route of a transition on the map. -/
def readTransition (map : RoadMap K) (json : Json K) : Except MemoryError (Route K) :=
  match json.field? "route" with
  | some route => snapshotFault (Route.ofJson map route)
  | none => .error (.malformedSnapshot "transition is missing its route")

/-- How match states on the map are written and read. -/
def codec (map : RoadMap K) : Codec (RoadPoint K) (Route K) (Sample K) K where
  payloadKey := "point"
  writePayload := RoadPoint.toJson
  readPayload json := snapshotFault (RoadPoint.ofJson map json)
  writeTransition route := Json.object [("route", route.toJson)]
  readTransition := map.readTransition
  writeSample := Sample.toJson
  readSample json := (Sample.ofJson json).mapError fun e => .malformedSnapshot e.message

end RoadMap

end RoadMatching
