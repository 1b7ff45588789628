import RoadMatching.Geo.Ellipsoid
import RoadMatching.Geo.Geodesy
import RoadMatching.Geo.Haversine
import RoadMatching.Geo.Planar
import RoadMatching.Geo.TiledLines

/-!
The measures of binary64 positions: those of the sphere, with boxes from the ellipsoid and distances
in the plane of the coordinates. A measure that is undefined follows the rule of other operations, its
operands being the coordinates (`Binary64.result`). The lines of an index are kept in tiles.
-/

namespace RoadMatching

namespace Earth

/-- The coordinates of a position. -/
def coordinates (p : Point Binary64) : List Binary64 := [p.x, p.y]

/-- The coordinates of a line. -/
def lineCoordinates (line : Line Binary64) : List Binary64 := line.flatMap coordinates

/-- A position with its coordinates as floats. -/
def floats (p : Point Binary64) : Point Float := ⟨p.x.value, p.y.value⟩

/-- The position found from the operands. -/
def position (operands : List Binary64) (p : Point Float) : Point Binary64 :=
  ⟨.result p.x operands, .result p.y operands⟩

end Earth

open Earth in
instance Binary64.instGeodesy : Geodesy Binary64 where
  distance a b :=
    .result (Haversine.distance (floats a) (floats b)) (coordinates a ++ coordinates b)
  bearing a b :=
    .result (Haversine.bearing (floats a) (floats b)) (coordinates a ++ coordinates b)
  between a b ratio :=
    position (coordinates a ++ coordinates b ++ [ratio])
      (Haversine.between (floats a) (floats b) ratio.value)
  closest s p :=
    position (coordinates s.start ++ coordinates s.stop ++ coordinates p)
      (Haversine.closest ⟨floats s.start, floats s.stop⟩ (floats p))
  envelope p radius :=
    let operands := coordinates p ++ [radius]
    let box := Ellipsoid.envelope (floats p) radius.value
    ⟨position operands box.lower, position operands box.upper⟩
  planar p line :=
    .result (Planar.distance (floats p) (line.map floats)) (coordinates p ++ lineCoordinates line)

instance Binary64.instLineTree : LineTree Binary64 := TiledLines.lineTree

end RoadMatching
