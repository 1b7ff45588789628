import RoadMatching.Matching.State

/-!
A match state in JSON for others to use.

* `geoJson`: the routes of the most likely sequence as one geometry.
* `slim`: for each sample its time, the position found, and the route to it.
* `debug`: the samples, and the sequence with identifiers and probabilities.
* `monitor`: the current estimate, the way to it, and all candidates of the last sample.
-/

namespace RoadMatching

namespace MatchState

variable {K : Type} [Geodesy K] [Numeral K] [GeometryText K] [Zero K] [Add K] [Mul K] [LE K]
  [DecidableLE K]

/-- The line of the route that leads to a candidate. -/
def lineTo (map : RoadMap K) (c : RoadCandidate K) : Option (Line K) :=
  c.transition.map fun route => route.geometry map

/-- The text of the route that leads to a candidate, as a field. -/
def routeField (map : RoadMap K) (c : RoadCandidate K) : List (String × Json K) :=
  match lineTo map c with
  | some line => [("route", .str (GeometryText.lineString line))]
  | none => []

/-- The lines of the routes of the most likely sequence. -/
def lines (map : RoadMap K) (state : MatchState K) : List (Line K) :=
  state.sequence.filterMap (lineTo map)

/-- The samples with the candidates found for them. -/
def matched (state : MatchState K) : List (Sample K × RoadCandidate K) :=
  state.samples.zip state.sequence

/-- The routes as a geometry. -/
def geoJson (map : RoadMap K) (state : MatchState K) : Json K :=
  let pair (p : Point K) : Json K := .arr [.ofNumber p.x, .ofNumber p.y]
  Json.object
    [("type", .str "MultiLineString"),
      ("coordinates", .arr ((lines map state).map fun line => .arr (line.map pair)))]

/-- The times and positions with their routes. -/
def slim (map : RoadMap K) (state : MatchState K) : Json K :=
  .arr <| (matched state).map fun (sample, c) =>
    Json.object ([("time", .int sample.time), ("point", c.payload.toJson)] ++ routeField map c)

/-- The samples, and the sequence in detail with times in seconds. -/
def debug (map : RoadMap K) (state : MatchState K) : Json K :=
  let entry (sample : Sample K) (c : RoadCandidate K) : Json K :=
    Json.object
      ([("time", .int (sample.time.tdiv 1000)), ("id", .str c.id), ("road", .int c.payload.road),
        ("frac", .ofNumber c.payload.fraction),
        ("geom", .str (GeometryText.point c.payload.position)),
        ("filtprob", .ofNumber c.belief)] ++ routeField map c)
  Json.object
    [("samples", .arr (state.samples.map Sample.toJson)),
      ("sequence", .arr ((matched state).map fun (sample, c) => entry sample c))]

/-- The estimate with the way to it and the candidates beside it; empty without an estimate. -/
def monitor (map : RoadMap K) (state : MatchState K) : Json K :=
  let entry (c : RoadCandidate K) : Json K :=
    Json.object
      ([("point", .str (GeometryText.point c.payload.position)), ("prob", .ofNumber c.belief)] ++
        routeField map c)
  match state.estimate? with
  | none => .obj []
  | some estimate =>
    Json.object
      [("time", Json.ofOption .int state.time?),
        ("point", .str (GeometryText.point estimate.payload.position)),
        ("route", .str (GeometryText.multiLineString (lines map state))),
        ("candidates", .arr (state.vector.map entry))]

end MatchState

end RoadMatching
