import RoadMatching.Geo.Angle
import RoadMatching.Geo.Point

/-!
The earth as a sphere.

Positions are in degrees, distances in metres on a sphere of the mean radius.

* `distance`, `bearing`, `destination`, `between`: the two problems of navigation on great circles,
  and the points between two others.
* `closest`: the position of a segment closest to another one. It is the foot of the perpendicular
  if that lies between the ends, which the directions at both ends tell, and else the closer end.
-/

namespace RoadMatching.Haversine

open Angle (pi radians degrees)

/-- The mean radius of the earth in metres. -/
def radius : Float := 6371008.8

/-- The gap between one and the next greater number. -/
def epsilon : Float := 2.220446049250313e-16

/-- The length of the great circle between two positions. -/
def distance (a b : Point Float) : Float :=
  let t1 := radians a.y
  let t2 := radians b.y
  let dt := radians (b.y - a.y)
  let dl := radians (b.x - a.x)
  let st := Float.sin (dt / 2)
  let sl := Float.sin (dl / 2)
  let h := st * st + Float.cos t1 * Float.cos t2 * (sl * sl)
  radius * (2 * Float.asin (Float.sqrt h))

/-- The direction at `a` toward `b`, in degrees from zero up to 360. -/
def bearing (a b : Point Float) : Float :=
  let la := radians a.y
  let lb := radians b.y
  let dl := radians b.x - radians a.x
  let s := Float.cos lb * Float.sin dl
  let c := Float.cos la * Float.sin lb - Float.sin la * Float.cos lb * Float.cos dl
  Binary64.truncatedRemainder (degrees (Float.atan2 s c) + 360) 360

/-- The position at a distance in a direction. -/
def destination (p : Point Float) (direction metres : Float) : Point Float :=
  let la := radians p.y
  let r := metres / radius
  let b := radians direction
  let lat := Float.asin (Float.sin la * Float.cos r + Float.cos la * Float.sin r * Float.cos b)
  let lng :=
    Float.atan2 (Float.sin b * Float.sin r * Float.cos la)
      (Float.cos r - Float.sin la * Float.sin lat) + radians p.x
  ⟨Binary64.truncatedRemainder (degrees lng + 540) 360 - 180, degrees lat⟩

/-- The position at a ratio of the great circle from `a` to `b`. -/
def between (a b : Point Float) (f : Float) : Point Float :=
  if a == b || f == 0 then a
  else if f == 1 then b
  else
    let la := radians a.y
    let lb := radians b.y
    let xa := radians a.x
    let xb := radians b.x
    let st := Float.sin ((la - lb) / 2)
    let sl := Float.sin ((xa - xb) / 2)
    let k := Float.sqrt (st * st + Float.cos la * Float.cos lb * (sl * sl))
    let d := 2 * Float.asin k
    let p := Float.sin ((1 - f) * d) / Float.sin d
    let q := Float.sin (f * d) / Float.sin d
    let x := p * (Float.cos la * Float.cos xa) + q * (Float.cos lb * Float.cos xb)
    let y := p * (Float.cos la * Float.sin xa) + q * (Float.cos lb * Float.sin xb)
    let z := p * Float.sin la + q * Float.sin lb
    ⟨degrees (Float.atan2 y x), degrees (Float.atan2 z (Binary64.hypotenuse x y))⟩

/-- The position of the segment that is closest to `p`. -/
def closest (s : Segment Float) (p : Point Float) : Point Float :=
  if p == s.start then s.start
  else if p == s.stop then s.stop
  else if distance s.stop s.start ≤ epsilon then s.start
  else
    let ad := radians (bearing s.start p)
    let ab := radians (bearing s.start s.stop)
    let ba := if 0 < ab then ab - pi else ab + pi
    let bd := radians (bearing s.stop p)
    let d1 := distance s.start p
    if 0 ≤ Float.cos (ad - ab) && 0 ≤ Float.cos (bd - ba) then
      let across := Float.abs (Float.asin (Float.sin (d1 / radius) * Float.sin (ad - ab)))
      let along := radius * Float.abs (Float.acos (Float.cos (d1 / radius) / Float.cos across))
      if across < epsilon then p else destination s.start (degrees ab) along
    else if d1 < distance s.stop p then s.start
    else s.stop

end RoadMatching.Haversine
