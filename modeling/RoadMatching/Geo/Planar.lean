import RoadMatching.Geo.Point
import RoadMatching.Number.Binary64

/-!
Distances in the plane of the coordinates, in degrees.

They order lines before these are measured on the ground. The distance to a line is zero for a
position on it and else the least distance to its segments; a line of a single other point has no
segment, and the greatest number stands for its distance.
-/

namespace RoadMatching.Planar

/-- The distance of two positions. -/
def pointDistance (a b : Point Float) : Float :=
  Binary64.hypotenuse (a.x - b.x) (a.y - b.y)

/-- The distance of a position to a segment. -/
def segmentDistance (s : Segment Float) (p : Point Float) : Float :=
  if s.start == s.stop then pointDistance p s.start
  else
    let dx := s.stop.x - s.start.x
    let dy := s.stop.y - s.start.y
    let square := dx * dx + dy * dy
    let r := ((p.x - s.start.x) * dx + (p.y - s.start.y) * dy) / square
    if r ≤ 0 then pointDistance p s.start
    else if 1 ≤ r then pointDistance p s.stop
    else
      let across := ((s.start.y - p.y) * dx - (s.start.x - p.x) * dy) / square
      Float.abs across * Binary64.hypotenuse dx dy

/-- Whether a position lies on a segment, by the ratios of the way in both coordinates. -/
def onSegment (s : Segment Float) (p : Point Float) : Bool :=
  let dx := s.stop.x - s.start.x
  let dy := s.stop.y - s.start.y
  let tx := (p.x - s.start.x) / dx
  let ty := (p.y - s.start.y) / dy
  let inside (t : Float) : Bool := 0 ≤ t && t ≤ 1
  match dx == 0, dy == 0 with
  | true, true => p == s.start
  | true, false => p.x == s.start.x && inside ty
  | false, true => p.y == s.start.y && inside tx
  | false, false => Float.abs (tx - ty) ≤ 2.220446049250313e-16 && inside tx

/-- Whether a position lies on a line. A line of one point is compared in single precision. -/
def onLine (line : Line Float) (p : Point Float) : Bool :=
  match line with
  | [] => false
  | [q] => Float.abs (pointDistance p q).toFloat32.toFloat < 1.1920929e-7
  | line => line.any (· == p) || line.segments.any fun s => onSegment s p

/-- The distance of a position to a line. -/
def distance (p : Point Float) (line : Line Float) : Float :=
  if line.isEmpty || onLine line p then 0
  else
    line.segments.foldl (fun least s => RoadMatching.least least (segmentDistance s p))
      1.7976931348623157e308

end RoadMatching.Planar
