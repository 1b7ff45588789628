import RoadMatching.Geo.Arc

/-!
Lines looked up by the positions on them that are closest to a position.

The lines are kept in a tree, which has them from the start or gets them later. `LineTree K` is how
the tree is walked; nothing else is known of it.

* `ofList`: the index of many lines; it holds those with distinct identifiers (`lines_ofList`).
* `LineTree.IsLawful`: no walk loses a line or meets one twice.
* `Hit`: a line with its closest fraction and the distance in metres.
* `within`: the lines whose boxes meet the box around a circle and whose distance is at most the
  radius.
* `nearest`: the lines of least distance among the first eight in planar order.
* `firstNearest`: the first `k` lines in planar order, by their distance.
-/

namespace RoadMatching

/-- A line with the place on it that is closest to a position. -/
structure Hit (K : Type) where
  id : Int
  fraction : K
  /-- The distance of the place to the position, in metres. -/
  distance : K
  deriving Repr, DecidableEq

/-- A line with its identifier and the box around it. -/
structure IndexedLine (K : Type) where
  id : Int
  line : Line K
  box : Box K

/-- Lines under distinct identifiers. -/
structure LineIndex (K : Type) where
  /-- The lines that the tree was made of. -/
  loaded : List (IndexedLine K)
  /-- The lines inserted since, first to last. -/
  inserted : List (IndexedLine K)

namespace LineIndex

variable {K : Type}

/-- The index without lines. -/
def empty : LineIndex K := ⟨[], []⟩

/-- The lines in the order in which they came. -/
def lines (index : LineIndex K) : List (IndexedLine K) := index.loaded ++ index.inserted

/-- The number of lines. -/
def size (index : LineIndex K) : Nat := index.lines.length

/-- Whether an identifier is in use. -/
def contains (index : LineIndex K) (id : Int) : Bool := index.lines.any fun l => l.id == id

section Insert

variable [LT K] [DecidableLT K] [Zero K]

/-- A line with the box around it. -/
def indexed (id : Int) (line : Line K) : IndexedLine K := ⟨id, line, Box.around line⟩

/-- The index with another line; none if its identifier is in use. -/
def insert? (index : LineIndex K) (id : Int) (line : Line K) : Option (LineIndex K) :=
  if index.contains id then none
  else some { index with inserted := index.inserted ++ [indexed id line] }

/-- The lines whose identifiers are not those of earlier lines. -/
def distinct (lines : List (Int × Line K)) : List (IndexedLine K) :=
  lines.foldl
    (fun taken entry =>
      if taken.any fun l => l.id == entry.1 then taken else taken ++ [indexed entry.1 entry.2])
    []

/-- The index of the lines; repeated identifiers are passed over. -/
def ofList (lines : List (Int × Line K)) : LineIndex K := ⟨distinct lines, []⟩

/-- The index of lines holds the distinct ones. -/
theorem lines_ofList (lines : List (Int × Line K)) : (ofList lines).lines = distinct lines :=
  List.append_nil _

end Insert

end LineIndex

/-! ### Walks -/

/-- Walks of the tree that keeps the lines of an index. -/
class LineTree (K : Type) where
  /-- The lines whose boxes meet a box. -/
  meeting : LineIndex K → Box K → List (IndexedLine K)
  /-- The lines by planar distance to a position, as far as the tree keeps this order. -/
  nearestFirst : LineIndex K → Point K → List (IndexedLine K)

/-- The walks take the lines of an index, each of them once. -/
structure LineTree.IsLawful (K : Type) [LE K] [DecidableLE K] [LineTree K] : Prop where
  meeting : ∀ (index : LineIndex K) (box : Box K),
    (LineTree.meeting index box).Perm (index.lines.filter fun l => box.meets l.box)
  nearestFirst : ∀ (index : LineIndex K) (p : Point K),
    (LineTree.nearestFirst index p).Perm index.lines

namespace LineIndex

variable {K : Type}

/-- The lines by planar distance. -/
def byPlanarDistance [LineTree K] (index : LineIndex K) (p : Point K) : List (IndexedLine K) :=
  LineTree.nearestFirst index p

/-- The square of the planar distance, by which lines are ordered. -/
def planarSquare [Geodesy K] [Mul K] (p : Point K) (l : IndexedLine K) : K :=
  let d := Geodesy.planar p l.line
  d * d

section Search

variable [Geodesy K] [Zero K] [One K] [Add K] [Sub K] [Mul K] [Div K] [Neg K] [BEq K]
variable [LT K] [DecidableLT K] [LE K] [DecidableLE K]

/-- The place on a line that is closest to a position. -/
def hit (p : Point K) (l : IndexedLine K) : Hit K :=
  let fraction := l.line.intercept p
  { id := l.id
    fraction := fraction
    distance := Geodesy.distance (l.line.interpolate fraction) p }

/-- Adds a hit to the closest ones so far, all of one distance: a closer one replaces them and a
farther one is passed over. -/
def gather (closest : List (Hit K)) (h : Hit K) : List (Hit K) :=
  match closest.head? with
  | none => closest ++ [h]
  | some first =>
    if first.distance < h.distance then closest
    else if h.distance < first.distance then [h]
    else closest ++ [h]

variable [LineTree K]

/-- The closest of the first eight lines in planar order, more than one if equally close. -/
def nearest (index : LineIndex K) (p : Point K) : List (Hit K) :=
  (((index.byPlanarDistance p).take 8).map (hit p)).foldl gather []

/-- The lines within the radius. -/
def within (index : LineIndex K) (p : Point K) (radius : K) : List (Hit K) :=
  ((LineTree.meeting index (Geodesy.envelope p radius)).map (hit p)).filter
    fun h => h.distance ≤ radius

/-- The first `k` lines in planar order, by their distance. -/
def firstNearest [Ord K] (index : LineIndex K) (p : Point K) (k : Nat) : List (Hit K) :=
  (((index.byPlanarDistance p).take k).map (hit p)).mergeSort
    fun a b => (compare a.distance b.distance).isLE

end Search

end LineIndex

end RoadMatching
