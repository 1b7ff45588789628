import RoadMatching.Geo.LineIndex
import RoadMatching.Geo.Packing

/-!
A tree of lines in tiles.

The lines that the tree is made of are packed by the lower corners of their boxes. A line that is
inserted later is in no tile.

* `parts`: the tiles of an index.
* `lineTree`: the walks of the tiles. In planar order a tile counts by the box around it.
* `isLawful_lineTree`: each line is met once.
-/

namespace RoadMatching.TiledLines

variable {K : Type} [Zero K] [LT K] [DecidableLT K]

/-- The lines that the tree is made of in tiles along the latitudes and then the longitudes of their
boxes, and those inserted since in none. -/
def parts (index : LineIndex K) : List (Tiling (IndexedLine K)) :=
  Packing.pack (fun a b => a.box.lower.y < b.box.lower.y) (fun a b => a.box.lower.x < b.box.lower.x)
    index.loaded ++ index.inserted.map .item

omit [Zero K] in
/-- The tiles hold the lines of the index. -/
theorem itemsOf_parts_perm (index : LineIndex K) :
    (Tiling.itemsOf (parts index)).Perm index.lines := by
  refine (Tiling.itemsOf_perm_flatMap _).trans ?_
  rw [parts, List.flatMap_append]
  refine List.Perm.append ?_ ?_
  · exact (Tiling.itemsOf_perm_flatMap _).symm.trans (Packing.pack_perm _ _ _)
  · rw [List.flatMap_map]
    exact .of_eq (List.flatMap_singleton' _)

/-- The box around a part. -/
def boxOf (part : Tiling (IndexedLine K)) : Box K :=
  match part.items.map IndexedLine.box with
  | [] => Box.around []
  | box :: rest => rest.foldl Box.join box

variable [Geodesy K] [Add K] [Sub K] [Mul K] [LE K] [DecidableLE K]

/-- The square of the planar distance of a line, or of the box around a tile. -/
def planarKey (p : Point K) (part : Tiling (IndexedLine K)) : K :=
  match part with
  | .item l => LineIndex.planarSquare p l
  | .tile _ => (boxOf part).squareTo p

/-- The walks of the tiles. -/
@[reducible]
def lineTree : LineTree K where
  meeting index box := (Tiling.itemsOf (parts index)).filter fun l => box.meets l.box
  nearestFirst index p := Tiling.nearestFirst (planarKey p) (parts index)

/-- They take each line once. -/
theorem isLawful_lineTree : @LineTree.IsLawful K _ _ lineTree :=
  letI : LineTree K := lineTree
  { meeting := fun index _ => (itemsOf_parts_perm index).filter _
    nearestFirst := fun index _ => (Tiling.nearestFirst_perm _ _).trans (itemsOf_parts_perm index) }

end RoadMatching.TiledLines
