/-!
Exchanging two elements of a list, the step by which lists are rearranged in place.
-/

namespace RoadMatching

variable {α : Type}

/-- The list with the elements of two places exchanged. -/
def exchange (xs : List α) (i j : Nat) : List α :=
  if hi : i < xs.length then
    if hj : j < xs.length then (xs.set i xs[j]).set j xs[i] else xs
  else xs

theorem exchange_perm (xs : List α) (i j : Nat) : (exchange xs i j).Perm xs := by
  unfold exchange
  split
  · next hi =>
    split
    · next hj => exact List.set_set_perm hi hj
    · exact .refl xs
  · exact .refl xs

theorem length_exchange (xs : List α) (i j : Nat) : (exchange xs i j).length = xs.length :=
  (exchange_perm xs i j).length_eq

/-- Whether the element of one place precedes that of another. -/
def precedesAt (lt : α → α → Bool) (xs : List α) (i j : Nat) : Bool :=
  match xs[i]?, xs[j]? with
  | some a, some b => lt a b
  | _, _ => false

end RoadMatching
