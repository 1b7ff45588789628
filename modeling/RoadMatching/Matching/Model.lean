import RoadMatching.Graph.Search
import RoadMatching.Markov.Filter
import RoadMatching.Matching.Config
import RoadMatching.Matching.Reduction
import RoadMatching.Matching.Sample
import RoadMatching.Matching.Turn
import RoadMatching.Road.Route

/-!
The hidden Markov model of map matching.

The hidden states of a sample are positions on the roads around it. A position is likely by how
close it is to the sample and, if the sample has a direction, by how little the road's direction
differs. A pair of positions is likely by how little longer the fastest route between them takes
than the straight way at top speed.

* `emission`: the likelihood of a position; `gaussian` is the bell curve it is made of.
* `along`: the transition over the roads of a route, with its likelihood.
* `transition`, `transitions`: the transition between two candidates, and those between all, found
  by one search from each predecessor. The milliseconds until each search ends are given with it.
* `positions`: the positions on the roads around a sample, of which none falls behind a predecessor
  on its road by less than the standard deviation.
* `filter`: the model as a filter. The candidates on a road are named by the caller.
-/

namespace RoadMatching

/-- A map with the parameters of matching on it. -/
structure Matcher (K : Type) where
  map : RoadMap K
  config : Config K

/-- A position on a road as a hypothesis for a sample, with the route that leads to it. -/
abbrev RoadCandidate (K : Type) : Type := Candidate (RoadPoint K) (Route K) K K

namespace Matcher

variable {K : Type}

/-! ### Emissions -/

section Emission

variable [Analysis K] [NatCast K] [One K] [Mul K] [Div K] [Neg K]

/-- The bell curve of a standard deviation. -/
def gaussian (sigma x : K) : K :=
  let variance := sigma * sigma
  1 / Analysis.sqrt ((2 : Nat) * Analysis.pi * variance) *
    Analysis.exp (-x * x / ((2 : Nat) * variance))

/-- The angle between two directions, at most half a circle. -/
def angle [Zero K] [Sub K] [BEq K] [LT K] [DecidableLT K] (a b : K) : K :=
  let difference := Analysis.remainder (magnitude (a - b)) (360 : Nat)
  least difference ((360 : Nat) - difference)

/-- The least factor by which a difference in direction counts. -/
def minDirectionFactor : K := ratio 1 100

/-- The likelihood of measuring a sample at a position. -/
def emission [Geodesy K] [Zero K] [Sub K] [BEq K] [LT K] [DecidableLT K] (m : Matcher K)
    (sample : Sample K) (p : RoadPoint K) : K :=
  let closeness := gaussian m.config.sigma (Geodesy.distance sample.point p.position)
  match sample.azimuth with
  | none => closeness
  | some azimuth =>
    closeness *
      greatest (gaussian m.config.sigmaAzimuth (angle azimuth p.azimuth)) minDirectionFactor

end Emission

/-! ### Transitions -/

section Spacing

variable [NatCast K] [IntCast K] [Mul K] [BEq K] [LT K] [DecidableLT K]

/-- The length in metres of the longest route between two samples: 100 metres for each whole second
between them, within limits. -/
def reach (m : Matcher K) (before after : Sample K) : K :=
  let seconds : K := ((elapsed before.time after.time).tdiv 1000 : Int)
  greatest (least (seconds * (100 : Nat)) m.config.maxDistance) (1000 : Nat)

/-- The scale in seconds by which longer travel times become unlikely. -/
def scale [Div K] [Zero K] [One K] (m : Matcher K) (before after : Sample K) : K :=
  if m.config.lambda == 0 then
    let seconds : K := (elapsed before.time after.time : K) / (1000 : Nat)
    (2 : Nat) * greatest seconds 1
  else 1 / m.config.lambda

end Spacing

variable [Geodesy K] [Analysis K] [Numeral K] [NatCast K] [IntCast K] [Zero K] [One K] [Add K]
variable [Sub K] [Mul K] [Div K] [Neg K] [BEq K] [LT K] [DecidableLT K] [LE K] [DecidableLE K]

/-- The route over the roads between two positions, cut short if it turns around at its start. -/
def turned (m : Matcher K) (p c : RoadPoint K) (roads : List Int) : Turn K :=
  let turn : Turn K := ⟨p, c, roads⟩
  if m.config.shortenTurns then (turn.shorten? m.map).getD turn else turn

/-- The transition over the roads between two positions, with its likelihood. -/
def along (m : Matcher K) (before : Sample K) (p : RoadPoint K) (after : Sample K)
    (c : RoadPoint K) (roads : List Int) : Option (Route K × K) :=
  let turn := m.turned p c roads
  match Route.of? m.map turn.start turn.stop turn.roads with
  | .error _ => none
  | .ok route =>
    let beta := m.scale before after
    let direct :=
      Geodesy.distance p.position c.position / ((Road.topSpeed : K) / Road.speedUnit)
    let excess := greatest (route.cost m.map Road.timePriority - direct) 0
    some (route, 1 / beta * Analysis.exp (-excess / beta))

/-- The limit on the length of routes between two samples. -/
def limit (m : Matcher K) (before after : Sample K) : Limit (Road K) K :=
  ⟨Road.distance, m.reach before after⟩

variable [Ord K]

/-- The transition between two candidates, if there is a route. -/
def transition (m : Matcher K) (before : Sample K) (p : RoadCandidate K) (after : Sample K)
    (c : RoadCandidate K) : Option (Route K × K) :=
  (m.map.graph.route? Road.timePriority (some (m.limit before after)) p.payload.spot
    c.payload.spot).bind (m.along before p.payload after c.payload)

/-- The transitions from one candidate to all candidates of the next sample. -/
def transitionsFrom (m : Matcher K) (before after : Sample K) (candidates : List (RoadCandidate K))
    (p : RoadCandidate K) : Table CandidateId (Route K × K) :=
  let routes := m.map.graph.routesFrom Road.timePriority (some (m.limit before after))
    p.payload.spot (candidates.map fun c => c.payload.spot)
  (candidates.zip routes).foldl
    (fun table (c, roads) =>
      match roads.bind (m.along before p.payload after c.payload) with
      | some reached => table.insert c.id reached
      | none => table)
    .empty

/-- The transitions between the candidates of two samples. The search from a predecessor ends after
the milliseconds `elapsed`. -/
def transitions (m : Matcher K) (before : Sample K) (predecessors : List (RoadCandidate K))
    (after : Sample K) (candidates : List (RoadCandidate K))
    (elapsed : RoadCandidate K → Nat := fun _ => 1) : Except MatchError (Transitions (Route K) K) :=
  let task := fun p => some (p.id, m.transitionsFrom before after candidates p)
  match m.config.pool.run task predecessors elapsed with
  | .ok rows => .ok (rows.foldl (fun table row => table.insert row.1 row.2) .empty)
  | .error e => .error (.batch e)

/-! ### Candidates -/

omit [Ord K] in
/-- The position, or that of a predecessor on its road if it lies slightly behind. -/
def follow (m : Matcher K) (p previous : RoadPoint K) : RoadPoint K :=
  if p.road = previous.road ∧ p.fraction < previous.fraction ∧
      Geodesy.distance p.position previous.position < m.config.sigma then previous
  else p

variable [LineTree K]

omit [Ord K] in
/-- The positions for a sample after the positions of the predecessors. -/
def positions (m : Matcher K) (predecessors : List (RoadPoint K)) (sample : Sample K) :
    Except MatchError (List (RoadPoint K)) :=
  match m.map.within sample.point m.config.maxRadius with
  | .ok found => .ok ((Reduction.reduce m.map.graph found).map fun p =>
      predecessors.foldl m.follow p)
  | .error e => .error (.map e)

omit [Ord K] in
/-- The candidates for a sample with their emissions, each named by its road. -/
def candidates (m : Matcher K) (name : Int → CandidateId) (predecessors : List (RoadCandidate K))
    (sample : Sample K) : Except MatchError (List (RoadCandidate K × K)) :=
  match m.positions (predecessors.map Candidate.payload) sample with
  | .ok points => .ok (points.map fun p => (.new (name p.road) p, m.emission sample p))
  | .error e => .error e

/-- The model as a filter. -/
def filter (m : Matcher K) (name : Int → CandidateId)
    (elapsed : RoadCandidate K → Nat := fun _ => 1) :
    Filter (RoadPoint K) (Route K) (Sample K) MatchError K K where
  candidates := m.candidates name
  transitions before after := m.transitions before.1 before.2 after.1 after.2 elapsed

end Matcher

end RoadMatching
