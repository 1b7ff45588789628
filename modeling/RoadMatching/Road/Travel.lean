import RoadMatching.Road.Basic

/-!
What it costs to travel a road: its length in metres, the time in seconds, and the time weighted by
the priority of the street. A fraction of a road costs in proportion.
-/

namespace RoadMatching.Road

variable {K : Type}

/-- The speed in km/h that no road is travelled faster than. -/
def topSpeed [NatCast K] : K := (130 : Nat)

/-- The km/h in a metre per second. -/
def speedUnit [NatCast K] [Div K] : K := ratio 18 5

/-- The length of a road. -/
def distance [Mul K] : Cost (Road K) K := .linear length

variable [Mul K] [Div K] [NatCast K] [LT K] [DecidableLT K] [BEq K]

/-- The seconds that a road takes at its speed limit. -/
def seconds (r : Road K) : K := r.length * speedUnit / least r.maxspeed topSpeed

/-- The time that a road takes. -/
def time : Cost (Road K) K := .linear seconds

/-- The time that a road takes, times its priority if that is more than one. -/
def timePriority [One K] : Cost (Road K) K :=
  .linear fun r => r.seconds * greatest r.priority 1

end RoadMatching.Road
