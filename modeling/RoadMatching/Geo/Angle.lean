import RoadMatching.Number.Binary64

/-!
Angles, in radians, in degrees and as directions.

* `radians`, `degrees`: one unit in the other.
* `normalize`: an angle in degrees without its full turns.
* `Angle`: an angle by its sine and its cosine, or by a positive multiple of both, so that sums and
  differences of angles need products alone. `ofDegrees` is exact at the multiples of a right angle.
-/

namespace RoadMatching

/-- An angle, as the direction with these coordinates. -/
structure Angle where
  sin : Float
  cos : Float

namespace Angle

/-! ### Units -/

/-- Half the circumference of the unit circle. -/
def pi : Float := 3.141592653589793

/-- Degrees as radians. -/
def radians (x : Float) : Float := x * (pi / 180)

/-- Radians as degrees. -/
def degrees (x : Float) : Float := x * (180 / pi)

/-- The angle in degrees that lies above -180, and not above 180, a number of full turns away. -/
def normalize (x : Float) : Float :=
  let r := Binary64.truncatedRemainder x 360
  let turned := if r < -180 then r + 360 else if r < 180 then r else r - 360
  if turned == -180 then 180 else turned

/-- The angle in degrees on a grid around zero, so that the tiniest angles become zero. -/
def settle (x : Float) : Float :=
  let size := Float.abs x
  let settled := if size < 0.0625 then 0.0625 - (0.0625 - size) else size
  if x < 0 then -settled else settled

/-! ### Directions -/

/-- The angle of a number of radians. -/
def ofRadians (x : Float) : Angle := ⟨Float.sin x, Float.cos x⟩

/-- The angle of a number of degrees, reduced to at most half a right angle before it is measured in
radians. Zeros have no sign. -/
def ofDegrees (x : Float) : Angle :=
  let r := Binary64.truncatedRemainder x 360
  let quarters := Float.floor (r / 90 + 0.5)
  let rest := ofRadians (radians (r - 90 * quarters))
  let turned : Angle :=
    match (quarters + 4).toUInt8.toNat % 4 with
    | 0 => rest
    | 1 => ⟨rest.cos, -rest.sin⟩
    | 2 => ⟨-rest.sin, -rest.cos⟩
    | _ => ⟨-rest.cos, rest.sin⟩
  ⟨turned.sin + 0, turned.cos + 0⟩

/-- The angle as a direction of length one. -/
def unit (a : Angle) : Angle :=
  let length := Binary64.hypotenuse a.sin a.cos
  ⟨a.sin / length, a.cos / length⟩

/-- The sum of two angles. -/
def add (a b : Angle) : Angle :=
  ⟨a.sin * b.cos + a.cos * b.sin, a.cos * b.cos - a.sin * b.sin⟩

/-- The difference of two angles, in radians. -/
def difference (a b : Angle) : Float :=
  Float.atan2 (a.sin * b.cos - a.cos * b.sin) (a.cos * b.cos + a.sin * b.sin)

/-- The degrees of an angle between the two right angles, found from the closer axis. -/
def elevation (a : Angle) : Float :=
  if a.cos < Float.abs a.sin then
    if a.sin < 0 then -90 + degrees (Float.atan2 a.cos (-a.sin))
    else 90 - degrees (Float.atan2 a.cos a.sin)
  else degrees (Float.atan2 a.sin a.cos)

end Angle

end RoadMatching
