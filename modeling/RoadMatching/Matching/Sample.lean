import RoadMatching.Error
import RoadMatching.Json.Printer
import RoadMatching.Markov.Candidate
import RoadMatching.Text.Timestamp
import RoadMatching.Text.WellKnownText

/-!
Samples: positions measured at a time, with a direction of travel if that was measured too.

In JSON the point is a text (`GeometryText`). A sample is read with its time either in milliseconds
since 1970 or as the text of a time of day, and with any name; a direction that is no number is
passed over.
-/

namespace RoadMatching

/-- A measured position. -/
structure Sample (K : Type) where
  id : String
  /-- Milliseconds since 1970. -/
  time : Int
  point : Point K
  /-- The direction of travel in degrees clockwise from north. -/
  azimuth : Option K
  deriving Repr, BEq

instance {K : Type} : Timed (Sample K) := ⟨Sample.time⟩

namespace Sample

variable {K : Type}

/-- The sample with a direction, brought into the full circle. -/
def withAzimuth [Analysis K] [Zero K] [One K] [LT K] [DecidableLT K] [Neg K] [Add K] [NatCast K]
    (s : Sample K) (azimuth : K) : Sample K :=
  { s with azimuth := some (euclideanRemainder azimuth (360 : Nat)) }

/-! ### Samples in JSON -/

variable [Numeral K] [GeometryText K]

/-- The JSON value of a sample. -/
def toJson (s : Sample K) : Json K :=
  let azimuth := match s.azimuth with
    | some azimuth => [("azimuth", Json.ofNumber azimuth)]
    | none => []
  Json.object
    ([("id", .str s.id), ("time", .int s.time), ("point", .str (GeometryText.point s.point))] ++
      azimuth)

/-- The name of a sample: a text, or a number as it is written. -/
def nameOf : Option (Json K) → String
  | some (.str name) => name
  | some (.int n) => (Json.int n : Json K).render
  | some (.float x) => (Json.float x).render
  | _ => ""

/-- The time of a sample, or what is wrong with it. -/
def timeOf : Option (Json K) → Except String Int
  | some (.int n) =>
    match (Json.int n : Json K).integer? with
    | some time => .ok time
    | none => .error "invalid time"
  | some (.float _) => .error "invalid time"
  | some (.str text) =>
    match Timestamp.read? text with
    | some time => .ok time
    | none => .error "invalid time"
  | _ => .error "missing time"

/-- The point of a sample, or what is wrong with it. -/
def pointOf : Option (Json K) → Except String (Point K)
  | some (.str text) =>
    match GeometryText.point? text with
    | some point => .ok point
    | none => .error "invalid point"
  | _ => .error "missing point"

/-- The sample that a JSON value says. -/
def ofJson [Analysis K] [IntCast K] [NatCast K] [Zero K] [One K] [LT K] [DecidableLT K] [Neg K]
    [Add K] (json : Json K) : Except MatchError (Sample K) :=
  let parts : Except String (Int × Point K) := do
    let time ← timeOf (json.field? "time")
    return (time, ← pointOf (json.field? "point"))
  match parts with
  | .error reason => .error (.malformedSample (reason ++ " in " ++ json.render))
  | .ok (time, point) =>
    let sample : Sample K := ⟨nameOf (json.field? "id"), time, point, none⟩
    match (json.field? "azimuth").bind Json.number? with
    | some azimuth => .ok (sample.withAzimuth azimuth)
    | none => .ok sample

end Sample

end RoadMatching
