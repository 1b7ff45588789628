import RoadMatching.Exchange

/-!
Queues as binary heaps.

A heap is a list in which no entry precedes the one above it; above the places `2 * i + 1` and
`2 * i + 2` lies the place `i`. Which of several entries comes out when none precedes the others
follows from the moves: an entry rises only past entries that it precedes, and of two such entries
below a place the second one takes it.

* `push`, `pop?`: another entry, and the top one; `push_perm` and `pop?_perm` say that nothing else
  comes in or is lost.
-/

namespace RoadMatching.Heap

variable {α : Type} (precedes : α → α → Bool)

/-- Lets the entry of a place rise past all that it precedes. -/
def rise (xs : List α) (i : Nat) : List α :=
  if 0 < i ∧ precedesAt precedes xs i ((i - 1) / 2) then
    rise (exchange xs i ((i - 1) / 2)) ((i - 1) / 2)
  else xs
termination_by i

/-- The place below the place `i` whose entry takes its place. -/
def childPlace (xs : List α) (i : Nat) : Nat :=
  if 2 * i + 2 < xs.length ∧ !precedesAt precedes xs (2 * i + 1) (2 * i + 2) then 2 * i + 2
  else 2 * i + 1

/-- Lets the entry of a place sink to the bottom, and gives the place where it ends. -/
def sink (xs : List α) (i : Nat) : List α × Nat :=
  if 2 * i + 1 < xs.length then
    sink (exchange xs i (childPlace precedes xs i)) (childPlace precedes xs i)
  else (xs, i)
termination_by xs.length - i
decreasing_by
  rw [length_exchange]
  unfold childPlace
  split <;> omega

/-- The heap with another entry. -/
def push (xs : List α) (x : α) : List α := rise precedes (xs ++ [x]) xs.length

/-- The top of a heap and the heap without it. The last entry takes the place of the top, sinks to
the bottom and rises from there. -/
def pop? : List α → Option (α × List α)
  | [] => none
  | top :: rest =>
    match rest.getLast? with
    | none => some (top, [])
    | some last =>
      let sunk := sink precedes (last :: rest.dropLast) 0
      some (top, rise precedes sunk.1 sunk.2)

theorem rise_perm (xs : List α) (i : Nat) : (rise precedes xs i).Perm xs := by
  fun_induction rise precedes xs i with
  | case1 xs i _ ih => exact ih.trans (exchange_perm xs _ _)
  | case2 => exact .refl _

theorem sink_perm (xs : List α) (i : Nat) : (sink precedes xs i).1.Perm xs := by
  fun_induction sink precedes xs i with
  | case1 xs i _ ih => exact ih.trans (exchange_perm xs _ _)
  | case2 => exact .refl _

/-- The entries after another one comes in. -/
theorem push_perm (xs : List α) (x : α) : (push precedes xs x).Perm (x :: xs) :=
  (rise_perm precedes _ _).trans (List.perm_append_singleton x xs)

/-- The entries before the top comes out. -/
theorem pop?_perm {xs rest : List α} {top : α} (h : pop? precedes xs = some (top, rest)) :
    xs.Perm (top :: rest) := by
  cases xs with
  | nil => cases h
  | cons x xs =>
    rcases List.eq_nil_or_concat xs with rfl | ⟨ys, y, rfl⟩
    · simp only [pop?, List.getLast?_nil, Option.some.injEq, Prod.mk.injEq] at h
      rw [h.1, h.2]
    · rw [List.concat_eq_append] at h ⊢
      simp only [pop?, List.getLast?_append, List.getLast?_singleton, Option.some_or,
        List.dropLast_concat, Option.some.injEq, Prod.mk.injEq] at h
      rw [← h.1, ← h.2]
      refine List.Perm.cons x (List.Perm.symm ?_)
      refine (rise_perm precedes _ _).trans ((sink_perm precedes _ _).trans ?_)
      exact (List.perm_append_singleton y ys).symm

/-- Only an empty heap has no top. -/
theorem pop?_eq_none {xs : List α} : pop? precedes xs = none ↔ xs = [] := by
  cases xs with
  | nil => simp [pop?]
  | cons x xs => cases hlast : xs.getLast? <;> simp [pop?, hlast]

end RoadMatching.Heap
