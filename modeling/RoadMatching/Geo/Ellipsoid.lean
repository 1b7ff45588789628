import RoadMatching.Geo.Angle
import RoadMatching.Geo.Point

/-!
The earth as an ellipsoid of revolution.

A geodesic is followed on an auxiliary sphere, where it is a great circle: latitudes become the
reduced ones, directions stay. With `σ` for the arc from where it crosses the equator northward,
`ω` for the longitude on the sphere, and `ε` for a number that grows with the slope of the great
circle, the lengths `s` and the longitudes `λ` on the ellipsoid are

* `s = b * A * (σ + ∑ Cᵢ sin 2iσ)`, which the series in `s / (b * A)` with the coefficients `Dᵢ`
  inverts (`lengthScale`, `lengthTable`, `arcTable`);
* `λ = ω - f * sin α * E * (σ + ∑ Fᵢ sin 2iσ)`, with the azimuth `α` at the equator
  (`longitudeScaleTable`, `longitudeTable`).

All coefficients are polynomials up to the sixth power of `ε` and of the third flattening.

`destination` solves the direct geodesic problem by these series. `envelope` is the box of two
corners on the diagonals, at the distance of the corners of the square around the circle.
-/

namespace RoadMatching.Ellipsoid

/-! ### The shape -/

/-- The equatorial radius in metres. -/
def equatorial : Float := 6378137

/-- How much shorter the polar radius is, relative to the equatorial one. -/
def flattening : Float := 1 / 298.257223563

/-- The polar radius relative to the equatorial one. -/
def axisRatio : Float := 1 - flattening

/-- The polar radius in metres. -/
def polar : Float := equatorial * axisRatio

/-- The difference of the radii relative to their sum. -/
def thirdFlattening : Float := flattening / (2 - flattening)

/-- The square of the eccentricity, relative to the polar radius. -/
def eccentricity : Float := flattening * (2 - flattening) / (axisRatio * axisRatio)

/-- The root of the least normal number, which stands for a cosine of zero. -/
def tiny : Float := 1.4916681462400413e-154

/-! ### Series -/

/-- A polynomial over a denominator. The coefficient of the highest power comes first. -/
abbrev Quotient : Type := List Float × Float

/-- The value of a polynomial. -/
def polynomial (coefficients : List Float) (x : Float) : Float :=
  coefficients.foldl (fun y c => y * x + c) 0

/-- The products of `power` with the first powers of `x`. -/
def powersFrom (x power : Float) : Nat → List Float
  | 0 => []
  | n + 1 => power :: powersFrom x (power * x) n

/-- The sum of `cᵢ sin 2iθ` over the coefficients `cᵢ`, counted from one. -/
def sineSeries (theta : Angle) (coefficients : List Float) : Float :=
  let twice := 2 * (theta.cos - theta.sin) * (theta.cos + theta.sin)
  let sum := coefficients.foldr (fun c (y, z) => (twice * y - z + c, y)) ((0, 0) : Float × Float)
  2 * theta.sin * theta.cos * sum.1

/-- The coefficients of a series of sines: the quotients at `ε²`, times the powers of `ε`. -/
def evenCoefficients (table : List Quotient) (epsilon : Float) : List Float :=
  List.zipWith (fun power q => power * polynomial q.1 (epsilon * epsilon) / q.2)
    (powersFrom epsilon epsilon table.length) table

/-- The factor of a length on the sphere, less one. -/
def lengthScale (epsilon : Float) : Float :=
  let t := polynomial [1, 4, 64, 0] (epsilon * epsilon) / 256
  (t + epsilon) / (1 - epsilon)

/-- The coefficients of a length as a series in the arc. -/
def lengthTable : List Quotient :=
  [([-1, 6, -16], 32), ([-9, 64, -128], 2048), ([9, -16], 768), ([3, -5], 512), ([-7], 1280),
    ([-7], 2048)]

/-- The coefficients of the arc as a series in the length. -/
def arcTable : List Quotient :=
  [([205, -432, 768], 1536), ([4005, -4736, 3840], 12288), ([-225, 116], 384),
    ([-7173, 2695], 7680), ([3467], 7680), ([38081], 61440)]

/-- The coefficients, at the third flattening, of the factor of a difference in longitude. -/
def longitudeScaleTable : List Quotient :=
  [([-3], 128), ([-2, -3], 64), ([-1, -3, -1], 16), ([3, -1, -2], 8), ([1, -1], 2), ([1], 1)]

/-- The coefficients, at the third flattening, of a difference in longitude as a series in the
arc. -/
def longitudeTable : List (List Quotient) :=
  [[([3], 128), ([2, 5], 128), ([-1, 3, 3], 64), ([-1, 0, 1], 8), ([-1, 1], 4)],
    [([5], 256), ([1, 3], 128), ([-3, -2, 3], 64), ([1, -3, 2], 32)],
    [([7], 512), ([-10, 9], 384), ([5, -9, 5], 192)],
    [([7], 512), ([-14, 7], 512)],
    [([21], 2560)]]

/-- The quotients at the third flattening. -/
def atThirdFlattening (table : List Quotient) : List Float :=
  table.map fun q => polynomial q.1 thirdFlattening / q.2

/-- The factor of a difference in longitude. -/
def longitudeScale (epsilon : Float) : Float :=
  polynomial (atThirdFlattening longitudeScaleTable) epsilon

/-- The coefficients of the series of a difference in longitude. -/
def longitudeCoefficients (epsilon : Float) : List Float :=
  List.zipWith (fun power table => power * polynomial (atThirdFlattening table) epsilon)
    (powersFrom epsilon epsilon longitudeTable.length) longitudeTable

/-! ### Geodesics -/

/-- A geodesic as a great circle of the sphere. Its arc and its longitude are counted from where it
crosses the equator northward. -/
structure Geodesic where
  /-- The azimuth at the equator. -/
  node : Angle
  /-- The arc up to the position. -/
  arc : Angle
  /-- The longitude of the position. -/
  longitude : Angle

namespace Geodesic

/-- The latitude on the sphere of a latitude in degrees; its cosine is positive. -/
def reducedLatitude (degrees : Float) : Angle :=
  let geographic := Angle.ofDegrees (Angle.settle degrees)
  let reduced := Angle.unit ⟨geographic.sin * axisRatio, geographic.cos⟩
  ⟨reduced.sin, if reduced.cos < tiny then tiny else reduced.cos⟩

/-- The geodesic through a position at the latitude in the direction, in degrees. -/
def through (latitude direction : Float) : Geodesic :=
  let azimuth := Angle.ofDegrees (Angle.settle (Angle.normalize direction))
  let beta := reducedLatitude latitude
  let node : Angle :=
    ⟨azimuth.sin * beta.cos, Binary64.hypotenuse azimuth.cos (azimuth.sin * beta.sin)⟩
  let along := if beta.sin == 0 && azimuth.cos == 0 then 1 else beta.cos * azimuth.cos
  { node := node
    arc := Angle.unit ⟨beta.sin, along⟩
    longitude := ⟨node.sin * beta.sin, along⟩ }

/-- The number in which the series are expanded. -/
def epsilon (g : Geodesic) : Float :=
  let k := g.node.cos * g.node.cos * eccentricity
  k / (2 * (1 + Float.sqrt (1 + k)) + k)

/-- The arc in radians that the geodesic covers in a distance from the position. -/
def arcOfLength (g : Geodesic) (metres : Float) : Float :=
  let start := sineSeries g.arc (evenCoefficients lengthTable g.epsilon)
  let tau := metres / (polar * (1 + lengthScale g.epsilon))
  let covered := (g.arc.add (.ofRadians start)).add (.ofRadians tau)
  let stop := -sineSeries covered (evenCoefficients arcTable g.epsilon)
  tau - (stop - start)

/-- The latitude in degrees where the geodesic has covered the arc `stop`. -/
def latitudeAt (g : Geodesic) (stop : Angle) : Float :=
  let run := Binary64.hypotenuse g.node.sin (g.node.cos * stop.cos)
  Angle.elevation ⟨g.node.cos * stop.sin, axisRatio * if run == 0 then tiny else run⟩

/-- The difference in longitude in degrees, from the position to where the geodesic has covered the
arc `stop`, which is `sigma` radians farther. -/
def longitudeTo (g : Geodesic) (stop : Angle) (sigma : Float) : Float :=
  let spherical := Angle.difference ⟨g.node.sin * stop.sin, stop.cos⟩ g.longitude
  let coefficients := longitudeCoefficients g.epsilon
  let arcs := sigma + (sineSeries stop coefficients - sineSeries g.arc coefficients)
  Angle.degrees (spherical + -flattening * g.node.sin * longitudeScale g.epsilon * arcs)

end Geodesic

/-- The position at a distance in a direction; undefined for a latitude beyond a pole. -/
def destination (p : Point Float) (direction metres : Float) : Point Float :=
  if 90 < Float.abs p.y then ⟨0 / 0, 0 / 0⟩
  else
    let g := Geodesic.through p.y direction
    let sigma := g.arcOfLength metres
    let stop := g.arc.add (.ofRadians sigma)
    let longitude := Angle.normalize (g.longitudeTo stop sigma)
    ⟨Angle.normalize (Angle.normalize p.x + longitude), g.latitudeAt stop⟩

/-- The box around the circle of the radius: its corners lie to the northwest and the southeast. -/
def envelope (p : Point Float) (radius : Float) : Box Float :=
  let diagonal := radius * 1.4142135623730951
  let southeast := destination p 135 diagonal
  let northwest := destination p 315 diagonal
  .ofCorners northwest southeast

end RoadMatching.Ellipsoid
