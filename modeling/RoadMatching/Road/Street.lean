import RoadMatching.Geo.Arc

/-!
Streets between two crossings, as they stand in map data.

A street has a line, and data for each direction of travel. `Street.ofLine` is a street of which
only the line is known: it may be travelled both ways, at a speed of 50 km/h.
-/

namespace RoadMatching

/-- A direction of travel along a street. -/
inductive Heading where
  /-- From its source to its target. -/
  | forward
  /-- From its target to its source. -/
  | backward
  deriving DecidableEq, Repr

namespace Heading

/-- The word for a heading. -/
def text : Heading → String
  | forward => "forward"
  | backward => "backward"

/-- The heading of a word. -/
def ofText? : String → Option Heading
  | "forward" => some forward
  | "backward" => some backward
  | _ => none

theorem ofText?_text (h : Heading) : ofText? h.text = some h := by
  cases h <;> rfl

end Heading

/-- A street, with its length in metres and its speed limits in km/h. -/
structure Street (K : Type) where
  id : Int
  /-- The street of the map data that this one is a part of. -/
  refid : Int
  source : Int
  target : Int
  oneway : Bool
  /-- The number of the class of the street. -/
  category : Int
  /-- The factor by which travel on the street is disliked. -/
  priority : K
  speedForward : K
  speedBackward : K
  length : K
  geometry : Line K
  deriving Repr

namespace Street

variable {K : Type}

/-- The speed limit in a direction. -/
def maxspeed (s : Street K) : Heading → K
  | .forward => s.speedForward
  | .backward => s.speedBackward

/-- The street along a line, with that line's length. -/
def ofLine [Geodesy K] [Zero K] [One K] [Add K] [Neg K] [NatCast K] (id source target : Int)
    (line : Line K) : Street K where
  id := id
  refid := id
  source := source
  target := target
  oneway := false
  category := 0
  priority := 1
  speedForward := (50 : Nat)
  speedBackward := (50 : Nat)
  length := line.metres
  geometry := line

end Street

end RoadMatching
