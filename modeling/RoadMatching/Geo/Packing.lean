import RoadMatching.Geo.Tiling
import RoadMatching.Selection

/-!
Packing: the tiling of items in which the items of a tile are neighbours in the plane.

Many items are cut into slabs along one axis and each slab into tiles along the other one, as many
of them along either axis, and the tiles are packed in turn. Few items are not divided.

`pack_perm`: packing is a matter of order only.
-/

namespace RoadMatching.Packing

variable {α : Type}

/-- The number of items in a tile that is not divided. -/
def capacity : Nat := 6

/-- The quotient, rounded up. -/
def ceilDiv (n d : Nat) : Nat := (n + d - 1) / d

/-- The greatest power of the capacity below `n`, or one. -/
def powerBelow (n : Nat) : Nat :=
  if capacity < n then capacity * powerBelow (ceilDiv n capacity) else 1
termination_by n
decreasing_by simp only [ceilDiv, capacity] at *; omega

/-- The number of slabs of `n` items, and of tiles in each of them. It is the least one whose square
is the number of full tiles, in which tiles hold a power of the capacity. -/
def perAxis (n : Nat) : Nat := Nat.sqrt (ceilDiv n (powerBelow n) - 1) + 1

/-- A list cut at most `cuts` times, each time behind the `size` elements that come first in the
order. -/
def cut (lt : α → α → Bool) (size : Nat) : Nat → List α → List (List α)
  | 0, xs => [xs]
  | cuts + 1, xs =>
    if xs.length ≤ size then [xs]
    else
      let ys := Selection.select lt size xs
      ys.take size :: cut lt size cuts (ys.drop size)

/-- A list in at most `n` pieces of about the same size. -/
def pieces (lt : α → α → Bool) (n : Nat) (xs : List α) : List (List α) :=
  cut lt (ceilDiv xs.length n) (n - 1) xs

/-- The tiles of a list, by an order along each of the axes. -/
def tiles (below leftOf : α → α → Bool) (xs : List α) : List (List α) :=
  let n := perAxis xs.length
  (pieces below n xs).flatMap (pieces leftOf n)

/-- The packed tiling of a list, with `height` divisions inside one another at most. The last tile
in the order becomes the first part. -/
def packWithin (below leftOf : α → α → Bool) : Nat → List α → List (Tiling α)
  | 0, xs => xs.map .item
  | height + 1, xs =>
    if xs.length ≤ capacity then xs.map .item
    else (tiles below leftOf xs).reverse.map fun tile => .tile (packWithin below leftOf height tile)

/-- The packed tiling of a list. Every tile is smaller than what it is a tile of, so the number of
items is enough for the height. -/
def pack (below leftOf : α → α → Bool) (xs : List α) : List (Tiling α) :=
  packWithin below leftOf xs.length xs

theorem cut_perm (lt : α → α → Bool) (size cuts : Nat) (xs : List α) :
    (cut lt size cuts xs).flatten.Perm xs := by
  induction cuts generalizing xs with
  | zero => simp [cut]
  | succ cuts ih =>
    unfold cut
    split
    · simp
    · have h := (ih ((Selection.select lt size xs).drop size)).append_left
        ((Selection.select lt size xs).take size)
      rw [List.take_append_drop] at h
      simpa using h.trans (Selection.select_perm lt size xs)

theorem pieces_perm (lt : α → α → Bool) (n : Nat) (xs : List α) :
    (pieces lt n xs).flatten.Perm xs := cut_perm lt _ _ xs

/-- Lists may be rearranged before they are put in a row. -/
theorem flatMap_perm_flatten {f : List α → List α} (h : ∀ xs, (f xs).Perm xs)
    (xss : List (List α)) : (xss.flatMap f).Perm xss.flatten := by
  induction xss with
  | nil => exact .refl _
  | cons xs xss ih => exact (h xs).append ih

theorem tiles_perm (below leftOf : α → α → Bool) (xs : List α) :
    (tiles below leftOf xs).flatten.Perm xs := by
  unfold tiles
  rw [List.flatMap_def, List.flatten_flatten, List.map_map, ← List.flatMap_def]
  exact (flatMap_perm_flatten (fun ys => pieces_perm leftOf _ ys) _).trans (pieces_perm below _ xs)

theorem packWithin_perm (below leftOf : α → α → Bool) (height : Nat) (xs : List α) :
    (Tiling.itemsOf (packWithin below leftOf height xs)).Perm xs := by
  induction height generalizing xs with
  | zero =>
    rw [packWithin, Tiling.itemsOf_map_item]
    exact xs.reverse_perm
  | succ height ih =>
    unfold packWithin
    split
    · rw [Tiling.itemsOf_map_item]
      exact xs.reverse_perm
    · refine (Tiling.itemsOf_perm_flatMap _).trans ?_
      rw [List.flatMap_map]
      refine (flatMap_perm_flatten ih _).trans ?_
      exact ((List.reverse_perm _).flatten).trans (tiles_perm below leftOf xs)

/-- Packing loses nothing. -/
theorem pack_perm (below leftOf : α → α → Bool) (xs : List α) :
    (Tiling.itemsOf (pack below leftOf xs)).Perm xs := packWithin_perm below leftOf _ xs

end RoadMatching.Packing
