import RoadMatching.Geo.Point
import RoadMatching.Number.Scalar

/-!
The texts of geometries that the library exchanges with others.

`GeometryText K` writes points and lines with coordinates in `K`, and reads points. What a text looks
like is left open: nothing but these functions makes or takes one apart.

* `GeometryText.Keeps`: the text of a point with finite coordinates is read as that point.
-/

namespace RoadMatching

/-- Texts of geometries. -/
class GeometryText (K : Type) where
  /-- The text of a point. -/
  point : Point K → String
  /-- The text of a line. -/
  lineString : Line K → String
  /-- The text of several lines. -/
  multiLineString : List (Line K) → String
  /-- The point of a text. -/
  point? : String → Option (Point K)

/-- The text of the point is read as the point, if its coordinates are finite. -/
def GeometryText.Keeps {K : Type} [Extended K] [GeometryText K] (p : Point K) : Prop :=
  isFinite p.x = true → isFinite p.y = true → point? (point p) = some p

end RoadMatching
