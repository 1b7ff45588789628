import RoadMatching.Exchange

/-!
Selection: a list rearranged so that what belongs in front of a place stands in front of it.

`select lt k` brings the element of rank `k` to its place, the lesser ones in front of it. It sorts
short lists, and divides longer ones at a pivot, going on with the part around the place. How it
leaves the parts is a matter of order only: `select_perm` says that nothing is lost.

* `Parts`: a list divided at a pivot; `Parts.of?` sweeps the elements to both sides.
* `middle`: the place of the pivot, a median of three places or of three such medians.
-/

namespace RoadMatching.Selection

variable {α : Type}

/-! ### Divided lists -/

/-- A list divided at a pivot. -/
structure Parts (α : Type) where
  left : List α
  pivot : α
  right : List α

namespace Parts

/-- The list that is divided. -/
def toList (parts : Parts α) : List α := parts.left ++ parts.pivot :: parts.right

/-- Takes an element to its side. The first element on the right goes to the end there, in whichever
case. -/
def sweep (goesLeft : α → Bool) (sides : List α × List α) (x : α) : List α × List α :=
  let right := sides.2.tail ++ sides.2.head?.toList
  if goesLeft x then (sides.1 ++ [x], right) else (sides.1, x :: right)

/-- The list divided at the element of the place `i`. Its first other element is swept last, and the
last one of the left side goes to the front. -/
def of? (goesLeft : α → α → Bool) (i : Nat) (xs : List α) : Option (Parts α) :=
  match exchange xs 0 i with
  | [] => none
  | pivot :: others =>
    let sides := (others.tail ++ others.head?.toList).foldl (sweep (goesLeft · pivot)) ([], [])
    some ⟨sides.1.getLast?.toList ++ sides.1.dropLast, pivot, sides.2⟩

theorem tail_append_head_perm (xs : List α) : (xs.tail ++ xs.head?.toList).Perm xs := by
  cases xs with
  | nil => exact .refl _
  | cons x xs => exact List.perm_append_singleton x xs

theorem last_append_dropLast_perm (xs : List α) : (xs.getLast?.toList ++ xs.dropLast).Perm xs := by
  rcases List.eq_nil_or_concat xs with rfl | ⟨ys, y, rfl⟩
  · exact .refl _
  · simpa using (List.perm_append_singleton y ys).symm

theorem sweep_perm (goesLeft : α → Bool) (sides : List α × List α) (x : α) :
    ((sweep goesLeft sides x).1 ++ (sweep goesLeft sides x).2).Perm
      (x :: (sides.1 ++ sides.2)) := by
  have h := (tail_append_head_perm sides.2).append_left sides.1
  unfold sweep
  split
  · simpa using (List.perm_middle.trans (h.cons x))
  · exact List.perm_middle.trans (h.cons x)

theorem foldl_sweep_perm (goesLeft : α → Bool) (xs : List α) (sides : List α × List α) :
    ((xs.foldl (sweep goesLeft) sides).1 ++ (xs.foldl (sweep goesLeft) sides).2).Perm
      (xs ++ (sides.1 ++ sides.2)) := by
  induction xs generalizing sides with
  | nil => exact .refl _
  | cons x xs ih =>
    exact (ih _).trans (((sweep_perm goesLeft sides x).append_left xs).trans List.perm_middle)

/-- Dividing a list loses nothing. -/
theorem of?_perm {goesLeft : α → α → Bool} {i : Nat} {xs : List α} {parts : Parts α}
    (h : of? goesLeft i xs = some parts) : parts.toList.Perm xs := by
  unfold of? at h
  split at h
  · cases h
  · next pivot others heq =>
    cases h
    refine List.Perm.trans ?_ (heq ▸ exchange_perm xs 0 i)
    refine List.perm_middle.trans (List.Perm.cons pivot ?_)
    refine ((last_append_dropLast_perm _).append_right _).trans ?_
    refine (foldl_sweep_perm _ _ _).trans ?_
    simpa using tail_append_head_perm others

theorem length_of? {goesLeft : α → α → Bool} {i : Nat} {xs : List α} {parts : Parts α}
    (h : of? goesLeft i xs = some parts) :
    parts.left.length + parts.right.length + 1 = xs.length := by
  have := (of?_perm h).length_eq
  simp only [toList, List.length_append, List.length_cons] at this
  omega

end Parts

/-! ### Medians -/

variable (lt : α → α → Bool)

/-- The place among three that holds their median. -/
def median (xs : List α) (i j k : Nat) : Nat :=
  let first := precedesAt lt xs i j
  if first == precedesAt lt xs i k then
    if precedesAt lt xs j k == first then j else k
  else i

/-- The place of a middle element among the `n` elements from the place `start`. -/
def middle (xs : List α) (n start : Nat) : Nat :=
  let step := n / 8
  if 8 ≤ step then
    median lt xs (middle xs step start) (middle xs step (start + 4 * step))
      (middle xs step (start + 7 * step))
  else median lt xs start (start + 4 * step) (start + 7 * step)

/-! ### Selection -/

/-- The place of the first of the greatest elements. -/
def greatestPlace (xs : List α) : Nat :=
  (List.range xs.length).foldl (fun best i => if precedesAt lt xs best i then i else best) 0

/-- Brings the element of rank `k` to its place. No element is less than the bound, so a pivot that
is not greater is one of the least, and all its equals go left. -/
def narrow (k : Nat) (bound : Option α) (xs : List α) : List α :=
  if xs.length ≤ 16 then xs.mergeSort fun a b => !lt b a
  else
    let place := middle lt xs xs.length 0
    let isLeast := match bound, xs[place]? with
      | some b, some pivot => !lt b pivot
      | _, _ => false
    match h : Parts.of? (if isLeast then fun a pivot => !lt pivot a else lt) place xs with
    | none => xs
    | some parts =>
      have := Parts.length_of? h
      if parts.left.length < k then
        parts.left ++ parts.pivot ::
          narrow (k - parts.left.length - 1) (if isLeast then none else some parts.pivot)
            parts.right
      else if isLeast || k == parts.left.length then parts.toList
      else narrow k bound parts.left ++ parts.pivot :: parts.right
termination_by xs.length

/-- The list with the element of rank `k` at its place, and no greater element in front of it. For
the last place it is enough to bring the greatest element there. -/
def select (k : Nat) (xs : List α) : List α :=
  if k + 1 = xs.length then exchange xs (greatestPlace lt xs) k else narrow lt k none xs

theorem narrow_perm (k : Nat) (bound : Option α) (xs : List α) :
    (narrow lt k bound xs).Perm xs := by
  fun_induction narrow lt k bound xs with
  | case1 => exact List.mergeSort_perm _ _
  | case2 => exact .refl _
  | case3 k bound xs _ _ _ parts h _ _ ih =>
    exact ((ih.cons parts.pivot).append_left parts.left).trans (Parts.of?_perm h)
  | case4 k bound xs _ _ _ parts h => exact Parts.of?_perm h
  | case5 k bound xs _ _ _ parts h _ _ _ ih =>
    exact (ih.append_right (parts.pivot :: parts.right)).trans (Parts.of?_perm h)

/-- Selection loses nothing. -/
theorem select_perm (k : Nat) (xs : List α) : (select lt k xs).Perm xs := by
  unfold select
  split
  · exact exchange_perm xs _ _
  · exact narrow_perm lt k none xs

end RoadMatching.Selection
