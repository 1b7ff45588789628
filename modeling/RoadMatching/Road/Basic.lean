import RoadMatching.Graph.Cost
import RoadMatching.Graph.Basic
import RoadMatching.Number.Word
import RoadMatching.Road.Street

/-!
Roads: streets travelled in one direction.

The roads of street `n` are `2 * n` forward and `2 * n + 1` backward, as numbers of 64 bits. The
backward road has the ends and the line of the street the other way round.

* `Road.edge`: the road as an edge of the road network.
* `Street.roads`: the roads of a street, one or two.
* `RoadPoint`: a position on a road, with its coordinates and the direction of the road there.
-/

namespace RoadMatching

/-- A street travelled in one direction. -/
structure Road (K : Type) where
  street : Street K
  heading : Heading
  deriving Repr

namespace Road

variable {K : Type}

/-- The identifier of the road of a street in a direction. -/
def idOf (street : Int) : Heading → Int
  | .forward => signed64 (2 * street)
  | .backward => signed64 (2 * street + 1)

/-- Whether the double of the identifier of a street is a number of 64 bits. -/
def Doubles (street : Int) : Prop :=
  -4611686018427387904 ≤ street ∧ street < 4611686018427387904

theorem idOf_forward {street : Int} (h : Doubles street) :
    idOf street .forward = 2 * street := by
  unfold Doubles at h
  exact signed64_of_mem (by omega) (by omega)

theorem idOf_backward {street : Int} (h : Doubles street) :
    idOf street .backward = 2 * street + 1 := by
  unfold Doubles at h
  exact signed64_of_mem (by omega) (by omega)

/-- A road belongs to one street and has one heading. -/
theorem idOf_inj {m n : Int} {g h : Heading} (hm : Doubles m) (hn : Doubles n) :
    idOf m g = idOf n h ↔ m = n ∧ g = h := by
  cases g <;> cases h <;>
    simp [idOf_forward, idOf_backward, hm, hn] <;> omega

/-- The identifier of the road. -/
def id (r : Road K) : Int := idOf r.street.id r.heading

/-- The crossing where the road starts. -/
def source (r : Road K) : Int :=
  match r.heading with
  | .forward => r.street.source
  | .backward => r.street.target

/-- The crossing where the road ends. -/
def target (r : Road K) : Int :=
  match r.heading with
  | .forward => r.street.target
  | .backward => r.street.source

/-- The line of the road, in the direction of travel. -/
def geometry (r : Road K) : Line K :=
  match r.heading with
  | .forward => r.street.geometry
  | .backward => r.street.geometry.reverse

/-- The length of the road in metres. -/
def length (r : Road K) : K := r.street.length

/-- The speed limit in the direction of travel, in km/h. -/
def maxspeed (r : Road K) : K := r.street.maxspeed r.heading

/-- The priority of the street. -/
def priority (r : Road K) : K := r.street.priority

/-- The road as an edge between crossings. -/
def edge (r : Road K) : Edge (Road K) := ⟨r.id, r.source, r.target, r⟩

end Road

/-- The roads of a street: the forward one and, unless it is one-way, the backward one. -/
def Street.roads {K : Type} (s : Street K) : List (Road K) :=
  ⟨s, .forward⟩ :: if s.oneway then [] else [⟨s, .backward⟩]

/-! ### Points -/

/-- A position on a road. -/
structure RoadPoint (K : Type) where
  spot : Spot K
  position : Point K
  /-- The direction of the road in degrees clockwise from north. -/
  azimuth : K
  deriving Repr, BEq

namespace RoadPoint

variable {K : Type}

/-- The road of the position. -/
def road (p : RoadPoint K) : Int := p.spot.edge

/-- The fraction of the road before the position. -/
def fraction (p : RoadPoint K) : K := p.spot.fraction

/-- The position at a fraction of a road. -/
def on [Geodesy K] [Zero K] [One K] [Add K] [Sub K] [Mul K] [Div K] [Neg K] [NatCast K]
    [Analysis K] [LT K] [DecidableLT K] [LE K] [DecidableLE K] (r : Road K) (fraction : K) :
    RoadPoint K where
  spot := ⟨r.id, fraction⟩
  position := r.geometry.interpolate fraction
  azimuth := r.geometry.azimuth fraction

end RoadPoint

end RoadMatching
