import RoadMatching.Geo.Geodesy

/-!
Lines measured by the length covered along them.

A fraction of a line is a fraction of its length in metres.

* `reach`: the segment at which a length is covered, and what is left of the length there. Segments
  without length are passed over, as long as there is another one.
* `locate`: this segment with the ratio of it.
* `intercept`: the fraction at which a line comes closest to a position. Of equally close segments
  the first one counts.
* `interpolate`, `azimuth`: the position at a fraction and the direction there.
-/

namespace RoadMatching.Line

variable {K : Type} [Geodesy K] [Zero K] [One K] [Add K] [LT K] [DecidableLT K]

/-- The length of a line in metres. -/
def metres [Neg K] (line : Line K) : K := total (line.segments.map Segment.length)

/-- The segment at which the distance is covered, and what is left of the distance at its start. The
last segment with a length is reached as a whole, unless the distance is covered before. The length
`covered` so far and the last segment with a length are carried along. -/
def reach [LE K] [DecidableLE K] [Sub K] (distance covered : K) (last : Option (Segment K)) :
    List (Segment K) → Option (Segment K × Option K)
  | [] => last.map fun s => (s, none)
  | s :: rest =>
    if 0 < s.length ∧ distance ≤ covered + s.length then some (s, some (distance - covered))
    else reach distance (covered + s.length) (if 0 < s.length then some s else last) rest

/-- The segment that is reached, with the ratio of it. -/
def locateFrom [LE K] [DecidableLE K] [Sub K] [Div K] (distance covered : K)
    (last : Option (Segment K)) (segments : List (Segment K)) : Option (Segment K × K) :=
  (reach distance covered last segments).map fun (s, part) =>
    (s, part.elim 1 fun x => clampUnit (x / s.length))

theorem locateFrom_cons [LE K] [DecidableLE K] [Sub K] [Div K] (distance covered : K)
    (last : Option (Segment K)) (s : Segment K) (rest : List (Segment K)) :
    locateFrom distance covered last (s :: rest) =
      if 0 < s.length ∧ distance ≤ covered + s.length then
        some (s, clampUnit ((distance - covered) / s.length))
      else
        locateFrom distance (covered + s.length) (if 0 < s.length then some s else last) rest := by
  rw [locateFrom, reach]
  split <;> rfl

/-- The segment at which the distance from the start is covered, and the ratio of it; none for a
line without segments. -/
def locate [LE K] [DecidableLE K] [Sub K] [Div K] (line : Line K) (distance : K) :
    Option (Segment K × K) :=
  (locateFrom distance 0 none line.segments).or
    (line.segments.head?.map fun s => (s, 1))

/-- The scan of a line for the place closest to a position. -/
structure Approach (K : Type) where
  /-- The least distance so far, and the length covered up to its place. -/
  best : Option (K × K)
  /-- The length of the segments passed. -/
  covered : K

namespace Approach

/-- Passes a segment. A place counts if it is closer than those before; an undefined distance never
does. -/
def pass [BEq K] (p : Point K) (scan : Approach K) (s : Segment K) : Approach K :=
  let closest := s.closest p
  let distance := Geodesy.distance closest p
  let improves := match scan.best with
    | none => distance == distance
    | some (least, _) => decide (distance < least)
  { best :=
      if improves then
        some (distance, scan.covered + least (Geodesy.distance s.start closest) s.length)
      else scan.best
    covered := scan.covered + s.length }

end Approach

/-- The fraction of the line closest to a position, zero for a line without length. -/
def intercept [BEq K] [Div K] (line : Line K) (p : Point K) : K :=
  let scan := line.segments.foldl (Approach.pass p) ⟨none, 0⟩
  if 0 < scan.covered then
    clampUnit ((scan.best.elim 0 Prod.snd) / scan.covered)
  else 0

section Locate

variable [LE K] [DecidableLE K] [Sub K] [Mul K] [Div K] [Neg K]

/-- The position at a fraction of the line. A line of one point has that point everywhere, and one
without points the origin. -/
def interpolate (line : Line K) (fraction : K) : Point K :=
  match line.locate (line.metres * clampUnit fraction) with
  | some (s, ratio) => s.pointAt ratio
  | none => line.head?.getD ⟨0, 0⟩

/-- The direction of the line at a fraction, in degrees from zero up to 360. -/
def azimuth [Analysis K] [NatCast K] (line : Line K) (fraction : K) : K :=
  let direction :=
    match line.locate (line.metres * clampUnit fraction) with
    | some (s, _) => s.bearing
    | none => 0
  euclideanRemainder direction (360 : Nat)

end Locate

end RoadMatching.Line
