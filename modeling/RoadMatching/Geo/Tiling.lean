import RoadMatching.Heap

/-!
Tilings: items in tiles, which may lie in tiles again.

A tiling is given by its parts, a list of items and tiles.

* `itemsOf`: the items in the order in which they are visited: the parts from the last to the first.
* `nearestFirst`: the items by a key, such as a distance. The part of least key is taken first, and
  in place of a tile its own parts are considered. `nearestFirst_perm`: nothing is lost.
-/

namespace RoadMatching

/-- An item, or a tile with its parts. -/
inductive Tiling (α : Type) where
  | item (a : α)
  | tile (parts : List (Tiling α))

namespace Tiling

variable {α K : Type}

/-! ### Visits -/

mutual

/-- The items of a part. -/
def items : Tiling α → List α
  | item a => [a]
  | tile parts => itemsOf parts

/-- The items of parts. -/
def itemsOf : List (Tiling α) → List α
  | [] => []
  | t :: ts => itemsOf ts ++ t.items

end

mutual

/-- A part with all parts inside. -/
def nested : Tiling α → List (Tiling α)
  | item a => [item a]
  | tile parts => tile parts :: nestedOf parts

/-- Parts with all parts inside. -/
def nestedOf : List (Tiling α) → List (Tiling α)
  | [] => []
  | t :: ts => t.nested ++ nestedOf ts

end

theorem itemsOf_perm_flatMap (ts : List (Tiling α)) : (itemsOf ts).Perm (ts.flatMap items) := by
  induction ts with
  | nil => exact .refl _
  | cons t ts ih => exact List.perm_append_comm.trans (ih.append_left t.items)

theorem nestedOf_eq_flatMap (ts : List (Tiling α)) : nestedOf ts = ts.flatMap nested := by
  induction ts with
  | nil => rfl
  | cons t ts ih => rw [nestedOf, ih, List.flatMap_cons]

/-- The items of a list of items. -/
theorem itemsOf_map_item (xs : List α) : itemsOf (xs.map item) = xs.reverse := by
  induction xs with
  | nil => rfl
  | cons x xs ih => rw [List.map_cons, itemsOf, ih, items, List.reverse_cons]

/-! ### Walks -/

section Walk

variable [LT K] [DecidableLT K]

/-- Whether the key of one part is less than that of another. -/
def closer (a b : K × Tiling α) : Bool := decide (a.1 < b.1)

/-- The queue with more parts. -/
def enqueue (key : Tiling α → K) (queue : List (K × Tiling α)) (parts : List (Tiling α)) :
    List (K × Tiling α) :=
  parts.foldl (fun queue t => Heap.push closer queue (key t, t)) queue

/-- The items of a queue, after at most the given number of steps. -/
def walk (key : Tiling α → K) : Nat → List (K × Tiling α) → List α
  | 0, _ => []
  | steps + 1, queue =>
    match Heap.pop? closer queue with
    | none => []
    | some ((_, item a), rest) => a :: walk key steps rest
    | some ((_, tile parts), rest) => walk key steps (enqueue key rest parts)

/-- The items by their keys, as far as the keys of tiles are no greater than those of what is
inside. Each step takes one part. -/
def nearestFirst (key : Tiling α → K) (parts : List (Tiling α)) : List α :=
  walk key (nestedOf parts).length (enqueue key [] parts)

theorem enqueue_perm (key : Tiling α → K) (queue : List (K × Tiling α))
    (parts : List (Tiling α)) :
    ((enqueue key queue parts).map Prod.snd).Perm (queue.map Prod.snd ++ parts) := by
  induction parts generalizing queue with
  | nil => rw [enqueue, List.foldl_nil, List.append_nil]
  | cons t ts ih =>
    refine (ih _).trans ?_
    refine (((Heap.push_perm closer queue (key t, t)).map Prod.snd).append_right ts).trans ?_
    exact List.perm_middle.symm

theorem walk_perm (key : Tiling α → K) (steps : Nat) (queue : List (K × Tiling α))
    (h : ((queue.map Prod.snd).flatMap nested).length ≤ steps) :
    (walk key steps queue).Perm ((queue.map Prod.snd).flatMap items) := by
  induction steps generalizing queue with
  | zero =>
    have hq : queue = [] := by
      cases queue with
      | nil => rfl
      | cons q qs =>
        obtain ⟨k, t⟩ := q
        cases t <;> simp [nested] at h
    subst hq
    exact .refl _
  | succ steps ih =>
    unfold walk
    split
    · next hpop =>
      rw [(Heap.pop?_eq_none closer).1 hpop]
      exact .refl _
    · next k a rest hpop =>
      have hperm := (Heap.pop?_perm closer hpop).map Prod.snd
      have hlen := (hperm.flatMap_right nested).length_eq
      simp only [List.map_cons, List.flatMap_cons, nested, List.length_append,
        List.length_singleton] at hlen
      refine ((ih rest (by omega)).cons a).trans ?_
      simpa [items] using (hperm.flatMap_right items).symm
    · next k parts rest hpop =>
      have hperm := (Heap.pop?_perm closer hpop).map Prod.snd
      have hlen := (hperm.flatMap_right nested).length_eq
      have hqueue := enqueue_perm key rest parts
      have hnext := (hqueue.flatMap_right nested).length_eq
      simp only [List.map_cons, List.flatMap_cons, nested, List.length_append, List.length_cons,
        List.flatMap_append, nestedOf_eq_flatMap] at hlen hnext
      refine (ih _ (by omega)).trans ?_
      refine (hqueue.flatMap_right items).trans ?_
      refine List.Perm.trans ?_ (hperm.flatMap_right items).symm
      rw [List.flatMap_append, List.map_cons, List.flatMap_cons, items]
      exact List.perm_append_comm.trans ((itemsOf_perm_flatMap parts).symm.append_right _)

/-- The walk takes every item once. -/
theorem nearestFirst_perm (key : Tiling α → K) (parts : List (Tiling α)) :
    (nearestFirst key parts).Perm (itemsOf parts) := by
  have hqueue := enqueue_perm key [] parts
  refine (walk_perm key _ _ ?_).trans ?_
  · rw [(hqueue.flatMap_right nested).length_eq, nestedOf_eq_flatMap]
    exact Nat.le_refl _
  · exact (hqueue.flatMap_right items).trans (itemsOf_perm_flatMap parts).symm

end Walk

end Tiling

end RoadMatching
