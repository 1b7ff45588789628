import RoadMatching.Markov.Window
import RoadMatching.Matching.Model

/-!
Matching samples one after the other.

* `matchSample`: the match state after another sample, and whether it was taken. A sample that is
  too close to the last one, in space or in time, is skipped. After a break the candidates start
  anew.
* `matchSamples`: the match state of samples, taken in the order of their times.

The candidates of each sample need names of their own, which the caller provides. So are the
milliseconds `elapsed` until the search from each predecessor ends, which a time limit is held
against.
-/

namespace RoadMatching

/-- The memory of the candidates for the latest samples. -/
abbrev MatchState (K : Type) : Type := Window (RoadPoint K) (Route K) (Sample K) K K

namespace Matcher

variable {K : Type} [Geodesy K] [Zero K] [BEq K] [LT K] [DecidableLT K]

/-- How close a sample may be to the last one. -/
structure Spacing (K : Type) where
  /-- The least distance in metres. -/
  distance : K
  /-- The least number of milliseconds. -/
  interval : Int

/-- Whether a sample is too close to the last one. -/
def Spacing.excludes (spacing : Spacing K) (last sample : Sample K) : Bool :=
  decide (Geodesy.distance sample.point last.point < greatest spacing.distance 0) ||
    decide (elapsed last.time sample.time < max spacing.interval 0)

variable [Analysis K] [Numeral K] [NatCast K] [IntCast K] [One K] [Add K] [Sub K] [Mul K] [Div K]
variable [Neg K] [LE K] [DecidableLE K] [Ord K] [Score K K] [LineTree K]

/-- The candidates for a sample after those of a match state. -/
def vectorFor (m : Matcher K) (name : Int → CandidateId) (state : MatchState K)
    (sample : Sample K) (elapsed : RoadCandidate K → Nat := fun _ => 1) :
    Except MatchError (List (RoadCandidate K)) :=
  if state.broken then (m.filter name elapsed).execute [] none sample
  else (m.filter name elapsed).execute state.vector state.sample? sample

/-- The match state after a sample, and whether the sample was taken. -/
def matchSample (m : Matcher K) (name : Int → CandidateId) (spacing : Spacing K)
    (state : MatchState K) (sample : Sample K) (elapsed : RoadCandidate K → Nat := fun _ => 1) :
    Except MatchError (MatchState K × Bool) :=
  if state.sample?.any fun last => spacing.excludes last sample then .ok (state, false)
  else
    match m.vectorFor name state sample elapsed with
    | .error e => .error e
    | .ok vector =>
      match state.update vector sample with
      | .error e => .error (.memory e)
      | .ok next => .ok (next, true)

/-- The match state of samples. The candidates for each sample are named by its place in the order
of time and by their roads. -/
def matchSamples (m : Matcher K) (name : Nat → Int → CandidateId) (spacing : Spacing K)
    (samples : List (Sample K)) (elapsed : Nat → RoadCandidate K → Nat := fun _ _ => 1) :
    Except MatchError (MatchState K) :=
  let ordered := samples.mergeSort fun a b => a.time ≤ b.time
  ordered.zipIdx.foldlM
    (fun state (sample, place) =>
      (m.matchSample (name place) spacing state sample (elapsed place)).map Prod.fst)
    m.config.window

end Matcher

end RoadMatching
