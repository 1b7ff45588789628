import RoadMatching.Number.Scalar
import RoadMatching.Geo.Point

/-!
The measures on the earth's surface that the library is built on.

`Geodesy K` gives, for positions with coordinates in `K`, distances in metres, bearings in degrees
clockwise from north, points on the way between two others, and boxes around circles. All other
geometry is defined from these.
-/

namespace RoadMatching

/-- Measures between positions. -/
class Geodesy (K : Type) where
  /-- The distance in metres. -/
  distance : Point K → Point K → K
  /-- The direction at the first position toward the second, in degrees. -/
  bearing : Point K → Point K → K
  /-- The position at a ratio of the way from the first position to the second. -/
  between : Point K → Point K → K → Point K
  /-- The position of a segment that is closest to a position. -/
  closest : Segment K → Point K → Point K
  /-- A box around the circle of the radius in metres. -/
  envelope : Point K → K → Box K
  /-- The distance of a position to a line in the plane of the coordinates. -/
  planar : Point K → Line K → K

namespace Segment

variable {K : Type} [Geodesy K]

/-- The length of a segment in metres. -/
def length (s : Segment K) : K := Geodesy.distance s.start s.stop

/-- The position at a ratio of a segment. -/
def pointAt (s : Segment K) (ratio : K) : Point K := Geodesy.between s.start s.stop ratio

/-- The direction of a segment at its start. -/
def bearing (s : Segment K) : K := Geodesy.bearing s.start s.stop

/-- The position of a segment closest to `p`. -/
def closest (s : Segment K) (p : Point K) : Point K := Geodesy.closest s p

end Segment

end RoadMatching
