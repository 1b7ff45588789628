/-!
Points, lines and boxes in the plane of longitude and latitude.

A line is a list of points; its segments join consecutive ones, so a line of one point has none. A
box is given by its lower and its upper corner, and two boxes meet when they share a point, borders
included.
-/

namespace RoadMatching

/-- A position, as longitude `x` and latitude `y` in degrees. -/
structure Point (K : Type) where
  x : K
  y : K
  deriving Repr, DecidableEq

instance {K : Type} [BEq K] : BEq (Point K) := ⟨fun a b => a.x == b.x && a.y == b.y⟩

/-- A chain of points joined by straight segments. -/
abbrev Line (K : Type) : Type := List (Point K)

/-- A straight piece of a line. -/
structure Segment (K : Type) where
  start : Point K
  stop : Point K
  deriving Repr, DecidableEq

/-- The segments of a line, in order. -/
def Line.segments {K : Type} (line : Line K) : List (Segment K) :=
  line.zipWith Segment.mk line.tail

/-- A line has one segment fewer than points. -/
theorem Line.length_segments {K : Type} (line : Line K) :
    line.segments.length = line.length - 1 := by
  simp only [Line.segments, List.length_zipWith, List.length_tail]
  omega

/-- A box with sides along the axes. -/
structure Box (K : Type) where
  lower : Point K
  upper : Point K
  deriving Repr, DecidableEq

namespace Box

variable {K : Type}

/-- Whether two boxes share a point. -/
def meets [LE K] [DecidableLE K] (a b : Box K) : Bool :=
  a.lower.x ≤ b.upper.x && a.lower.y ≤ b.upper.y && b.lower.x ≤ a.upper.x && b.lower.y ≤ a.upper.y

variable [LT K] [DecidableLT K]

/-- The lesser of two coordinates, the second if they cannot be compared. -/
def lesser (a b : K) : K := if a < b then a else b

/-- The larger of two coordinates, the second if they cannot be compared. -/
def larger (a b : K) : K := if b < a then a else b

/-- The box with two opposite corners. -/
def ofCorners (a b : Point K) : Box K where
  lower := ⟨lesser a.x b.x, lesser a.y b.y⟩
  upper := ⟨larger a.x b.x, larger a.y b.y⟩

/-- The least box around two boxes. -/
def join (a b : Box K) : Box K where
  lower := ⟨lesser a.lower.x b.lower.x, lesser a.lower.y b.lower.y⟩
  upper := ⟨larger a.upper.x b.upper.x, larger a.upper.y b.upper.y⟩

/-- The least box around a box and a point. -/
def extend (box : Box K) (p : Point K) : Box K where
  lower := ⟨lesser box.lower.x p.x, lesser box.lower.y p.y⟩
  upper := ⟨larger box.upper.x p.x, larger box.upper.y p.y⟩

/-- The square of the distance of a position to a box, zero inside. -/
def squareTo [LE K] [DecidableLE K] [Zero K] [Add K] [Sub K] [Mul K] (box : Box K)
    (p : Point K) : K :=
  if box.meets ⟨p, p⟩ then 0
  else
    let dx := lesser box.upper.x (larger box.lower.x p.x) - p.x
    let dy := lesser box.upper.y (larger box.lower.y p.y) - p.y
    dx * dx + dy * dy

/-- The least box around the points of a line; a line without points has the origin. -/
def around [Zero K] : Line K → Box K
  | [] => ⟨⟨0, 0⟩, ⟨0, 0⟩⟩
  | p :: rest => rest.foldl extend ⟨p, p⟩

end Box

end RoadMatching
