import Mathlib.Data.List.Induction
import RoadMatching.Geo.Arc

/-!
Finite numbers among all.

Of numbers some may be infinite, and some not comparable even with themselves. What comes of finite
numbers may be neither, so that it has to be told for each result on its own why it is finite.

* `InUnit`: a number of the unit interval, such as the fraction of a position on its road.
* `FiniteLaws`: what is assumed of numbers. `DistanceLaws`: what is assumed of distances. Binary64
  numbers are as assumed (`Binary64.finiteLaws`, `Binary64.distanceLaws`).
* `FiniteLaws.least_one`, `FiniteLaws.greatest_zero`, `FiniteLaws.clampUnit`: numbers held within the
  unit interval.
* `Line.inUnit_intercept`: a line comes closest to a position at a fraction of the unit interval.
-/

namespace RoadMatching

variable {K : Type}

/-- A number of the unit interval, which is thereby comparable with itself. -/
structure InUnit [Zero K] [One K] [BEq K] [LT K] (x : K) : Prop where
  comparable : (x == x) = true
  nonneg : ¬ x < 0
  le_one : ¬ 1 < x

/-- A length in metres that no distance on the earth exceeds. -/
def farthest [NatCast K] : K := (67108864 : Nat)

/-- What is assumed of numbers, not all of which need be finite or comparable. The unit interval has
finite numbers alone, zero and one are in it, and with a number its complement to one. What is not
below a number of it but below one, is in it, and so is what is not above a number of it but above
zero. Numbers that are told apart are comparable, and so are the summands of a comparable sum. The sum
of distances is finite, however many they are. A finite number has a comparable quotient by any number
above zero, and a number from zero up to a full circle is its own remainder. -/
structure FiniteLaws (K : Type) [Extended K] [Analysis K] [NatCast K] [Zero K] [One K] [Add K]
    [Sub K] [Div K] [BEq K] [LT K] : Prop where
  zero : InUnit (0 : K)
  one : InUnit (1 : K)
  finite : ∀ x : K, InUnit x → isFinite x = true
  complement : ∀ x : K, InUnit x → InUnit (1 - x)
  below : ∀ a x : K, InUnit a → ¬ x < a → x < 1 → InUnit x
  above : ∀ x b : K, InUnit b → 0 < x → ¬ b < x → InUnit x
  told_apart : ∀ a b : K, a < b → (a == a) = true ∧ (b == b) = true
  summands : ∀ a b : K, (a + b == a + b) = true → (a == a) = true ∧ (b == b) = true
  sum : ∀ xs : List K, (∀ x ∈ xs, (x == x) = true ∧ ¬ x < 0 ∧ ¬ farthest < x) →
    isFinite (xs.foldl (· + ·) 0) = true
  quotient : ∀ a b : K, isFinite a = true → 0 < b → (a / b == a / b) = true
  remainder : ∀ x : K, ¬ x < 0 → x < (360 : Nat) → Analysis.remainder x (360 : Nat) = x

/-- What is assumed of distances: none is below zero or beyond all distances on the earth. -/
structure DistanceLaws (K : Type) [Geodesy K] [Zero K] [NatCast K] [LT K] : Prop where
  nonneg : ∀ a b : Point K, ¬ Geodesy.distance a b < 0
  bounded : ∀ a b : Point K, ¬ farthest < Geodesy.distance a b

/-! ### Scans of lines -/

/-- The summands of a comparable sum are comparable. -/
lemma comparable_of_foldl [Zero K] [Add K] [BEq K]
    (h : ∀ a b : K, (a + b == a + b) = true → (a == a) = true ∧ (b == b) = true) (xs : List K)
    (hsum : (xs.foldl (· + ·) 0 == xs.foldl (· + ·) (0 : K)) = true) :
    ∀ x ∈ xs, (x == x) = true := by
  induction xs using List.reverseRecOn with
  | nil => exact List.forall_mem_nil _
  | append_singleton rest x ih =>
    rw [List.foldl_append, List.foldl_cons, List.foldl_nil] at hsum
    obtain ⟨hrest, hx⟩ := h _ _ hsum
    exact List.forall_mem_append.2 ⟨ih hrest, List.forall_mem_singleton.2 hx⟩

namespace Line.Approach

variable [Geodesy K] [Zero K] [Add K] [BEq K] [LT K] [DecidableLT K]

omit [Zero K] in
/-- A scan of a line covers the lengths of the segments passed. -/
lemma covered_foldl (p : Point K) (segments : List (Segment K)) (scan : Approach K) :
    (segments.foldl (pass p) scan).covered =
      (segments.map Segment.length).foldl (· + ·) scan.covered := by
  induction segments generalizing scan with
  | nil => rfl
  | cons s rest ih => exact ih (scan.pass p s)

/-- The closest place is reached over segments of the line and a part of one that is no longer. -/
lemma best_foldl (p : Point K) (segments : List (Segment K)) :
    ∀ place ∈ (segments.foldl (pass p) ⟨none, 0⟩).best,
      ∃ passed s rest, segments = passed ++ s :: rest ∧
        place.2 = (passed.map Segment.length ++
          [least (Geodesy.distance s.start (s.closest p)) s.length]).foldl (· + ·) 0 := by
  induction segments using List.reverseRecOn with
  | nil => simp
  | append_singleton rest s ih =>
    rw [List.foldl_append, List.foldl_cons, List.foldl_nil]
    intro place hplace
    have hpassed : (pass p (rest.foldl (pass p) ⟨none, 0⟩) s).best = some _ ∨
        (pass p (rest.foldl (pass p) ⟨none, 0⟩) s).best =
          (rest.foldl (pass p) ⟨none, 0⟩).best := ite_eq_or_eq ..
    obtain hbest | hbest := hpassed
    · obtain rfl := Option.some.inj (hbest.symm.trans hplace)
      refine ⟨rest, s, [], rfl, ?_⟩
      rw [List.foldl_append, List.foldl_cons, List.foldl_nil]
      exact congrArg (· + _) (covered_foldl p rest ⟨none, 0⟩)
    · obtain ⟨passed, t, others, rfl, heq⟩ := ih place (hbest ▸ hplace)
      exact ⟨passed, t, others ++ [s], by simp, heq⟩

end Line.Approach

variable [Extended K] [Analysis K] [NatCast K] [Zero K] [One K] [Add K] [Sub K] [Div K] [BEq K]
  [LT K] [DecidableLT K]

/-! ### The unit interval -/

/-- What is at most one, but not below a number of the unit interval, is in it. -/
lemma FiniteLaws.least_one (h : FiniteLaws K) {a y : K} (ha : InUnit a) (hle : ¬ least y 1 < a) :
    InUnit (least y 1) := by
  rw [least] at hle ⊢
  split
  · next hlt =>
    rw [if_pos hlt] at hle
    exact h.below a y ha hle hlt
  · rw [if_pos h.one.comparable]
    exact h.one

/-- What is at least zero, but not above a number of the unit interval, is in it. -/
lemma FiniteLaws.greatest_zero (h : FiniteLaws K) {b y : K} (hb : InUnit b)
    (hle : ¬ b < greatest y 0) : InUnit (greatest y 0) := by
  rw [greatest] at hle ⊢
  split
  · next hlt =>
    rw [if_pos hlt] at hle
    exact h.above y b hb hlt hle
  · rw [if_pos h.zero.comparable]
    exact h.zero

/-- The number of the unit interval closest to a comparable one is in it. -/
lemma FiniteLaws.clampUnit (h : FiniteLaws K) {x : K} (hx : (x == x) = true) :
    InUnit (clampUnit x) := by
  rw [RoadMatching.clampUnit]
  split_ifs with hlow hhigh
  · exact h.zero
  · exact h.one
  · exact ⟨hx, hlow, hhigh⟩

/-! ### Fractions of lines -/

variable [Geodesy K]

namespace Line.Approach

/-- If the lengths of the segments are comparable, the closest place is at a finite length. -/
lemma isFinite_best (h : FiniteLaws K) (hdistance : DistanceLaws K) (p : Point K)
    {segments : List (Segment K)} (hlengths : ∀ s ∈ segments, (s.length == s.length) = true) :
    ∀ place ∈ (segments.foldl (pass p) ⟨none, 0⟩).best, isFinite place.2 = true := by
  intro place hplace
  obtain ⟨passed, s, rest, rfl, heq⟩ := best_foldl p segments place hplace
  have hlength : ∀ t ∈ passed, (t.length == t.length) = true := fun t ht =>
    hlengths t (List.mem_append_left _ ht)
  have hs : (s.length == s.length) = true :=
    hlengths s (List.mem_append_right _ List.mem_cons_self)
  rw [heq]
  refine h.sum _ (List.forall_mem_append.2 ⟨?_, List.forall_mem_singleton.2 ?_⟩)
  · rw [List.forall_mem_map]
    exact fun t ht => ⟨hlength t ht, hdistance.nonneg _ _, hdistance.bounded _ _⟩
  · rw [least]
    split_ifs with hlt
    · exact ⟨(h.told_apart _ _ hlt).1, hdistance.nonneg _ _, hdistance.bounded _ _⟩
    · exact ⟨hs, hdistance.nonneg _ _, hdistance.bounded _ _⟩

end Line.Approach

/-- A line comes closest to a position at a fraction of the unit interval. -/
lemma Line.inUnit_intercept (h : FiniteLaws K) (hdistance : DistanceLaws K) (line : Line K)
    (p : Point K) : InUnit (line.intercept p) := by
  rw [intercept]
  split
  · next hpositive =>
    refine h.clampUnit (h.quotient _ _ ?_ hpositive)
    have hlengths : ∀ s ∈ line.segments, (s.length == s.length) = true := by
      have hcomparable := (h.told_apart _ _ hpositive).2
      rw [Approach.covered_foldl] at hcomparable
      exact List.forall_mem_map.1 (comparable_of_foldl h.summands _ hcomparable)
    cases hbest : (line.segments.foldl (Approach.pass p) ⟨none, 0⟩).best with
    | none => exact h.finite 0 h.zero
    | some place => exact Approach.isFinite_best h hdistance p hlengths place hbest
  · exact h.zero

end RoadMatching
