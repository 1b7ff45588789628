import RoadMatching.Proofs.Road.Reversal

/-!
Lengths that are located on a line.

A length from the start of a line is reached on a segment with a length, at a ratio of it. Segments
without length are passed over, so nothing is divided by their lengths.

* `quotient?`, `locate?`: a length is located by a division that fails where the divisor is zero.
  `locate?_eq`: it never fails, and finds what `locate` finds.
* `locate_eq_none_iff`: a line without segments is the only one on which nothing is found.
* `locate_covered`: **locating a length** is the inverse of measuring it. The segments before the one
  that is found, and the ratio of this one, are as long as the length in question.
-/

namespace RoadMatching.Line

variable {K : Type} [Field K] [LinearOrder K]

/-! ### Divisions that may fail -/

/-- The quotient of two numbers; there is none by zero. -/
def quotient? (a b : K) : Option K := if b = 0 then none else some (a / b)

variable [Geodesy K]

/-- What is located on a line, unless a number is divided by zero for it. -/
def locate? (line : Line K) (distance : K) : Option (Option (Segment K × K)) :=
  match reach distance 0 none line.segments with
  | some (s, some x) => (quotient? x s.length).map fun ratio => some (s, clampUnit ratio)
  | some (s, none) => some (some (s, 1))
  | none => some (line.segments.head?.map fun s => (s, 1))

/-- What is left of a length is left on a segment that has one. -/
lemma length_pos_of_reach {d c x : K} {last : Option (Segment K)} {segments : List (Segment K)}
    {s : Segment K} (h : reach d c last segments = some (s, some x)) : 0 < s.length := by
  induction segments generalizing c last with
  | nil =>
    obtain ⟨_, -, heq⟩ := Option.map_eq_some_iff.1 h
    cases heq
  | cons t rest ih =>
    rw [reach] at h
    split at h
    · next hon =>
      cases h
      exact hon.1
    · exact ih h

/-- Nothing is divided by zero, whatever the line and the length. -/
lemma locate?_eq (line : Line K) (d : K) : line.locate? d = some (line.locate d) := by
  rw [locate?, locate, locateFrom]
  cases hreach : reach d 0 none line.segments with
  | none => rfl
  | some found =>
    obtain ⟨s, _ | x⟩ := found
    · rfl
    · dsimp only
      rw [quotient?, if_neg (length_pos_of_reach hreach).ne']
      rfl

/-! ### What is found -/

/-- Nothing is found exactly on lines without segments. -/
lemma locate_eq_none_iff {line : Line K} {d : K} : line.locate d = none ↔ line.segments = [] := by
  rw [locate, Option.or_eq_none_iff, Option.map_eq_none_iff, List.head?_eq_none_iff]
  constructor
  · exact And.right
  · intro hnil
    rw [hnil]
    exact ⟨rfl, rfl⟩

/-- **Locating a length** on a line: no number is divided by zero, and nothing is found only if the
line has no segments. If it has a length, then a distance up to this length is located on a segment
with a length, at a ratio of the unit interval: the segments before it and the ratio of it are
together as long as the distance. It is the first segment with a length whose end is not before the
distance. -/
theorem locate_covered [IsStrictOrderedRing K] (line : Line K) :
    (∀ d, line.locate? d = some (line.locate d)) ∧
      (∀ d, line.locate d = none ↔ line.segments = []) ∧
      ((∀ s ∈ line.segments, 0 ≤ s.length) → 0 < line.metres →
        ∀ d, 0 ≤ d → d ≤ line.metres →
          ∃ front s back r, line.segments = front ++ s :: back ∧ 0 < s.length ∧
            line.locate d = some (s, r) ∧ 0 ≤ r ∧ r ≤ 1 ∧ covered front + r * s.length = d ∧
            ∀ ahead t rest, front = ahead ++ t :: rest → 0 < t.length →
              covered ahead + t.length < d) := by
  refine ⟨line.locate?_eq, fun _ => locate_eq_none_iff, fun hlengths hpos d h₀ h₁ => ?_⟩
  rw [metres_eq_covered] at hpos h₁
  obtain ⟨front, s, back, x, hsegments, hlength, hx₀, hx₁, hd, hlocated, hbefore⟩ :=
    exists_locateFrom (c := 0) hlengths none hpos h₀ (by rwa [zero_add])
  simp only [zero_add] at hd hbefore
  refine ⟨front, s, back, x / s.length, hsegments, hlength, ?_, div_nonneg hx₀ hlength.le,
    (div_le_one hlength).2 hx₁, ?_, hbefore⟩
  · rw [locate, hlocated, Option.some_or]
  · rw [div_mul_cancel₀ x hlength.ne', hd]

open Plane in
/-- Behind a vertex that is given twice, a distance is located on the segment after it. -/
theorem locate_covered_bend :
    (∀ s ∈ Street.bend.segments, 0 ≤ s.length) ∧ 0 < Street.bend.metres ∧
      Street.bend.segments.map Segment.length = [60, 0, 20] ∧
      Street.bend.locate 65 = some (⟨⟨60, 0⟩, ⟨60, 20⟩⟩, 1 / 4) ∧
      ∃ front s back r, Street.bend.segments = front ++ s :: back ∧ 0 < s.length ∧
        Street.bend.locate 65 = some (s, r) ∧ covered front + r * s.length = 65 := by
  have hlengths : ∀ s ∈ Street.bend.segments, 0 ≤ s.length := by decide +kernel
  have hpos : 0 < Street.bend.metres := by decide +kernel
  obtain ⟨-, -, hlocated⟩ := Street.bend.locate_covered
  obtain ⟨front, s, back, r, hsegments, hlength, hfound, -, -, hd, -⟩ :=
    hlocated hlengths hpos 65 (by norm_num) (by decide +kernel)
  exact ⟨hlengths, hpos, by decide +kernel, by decide +kernel, front, s, back, r, hsegments, hlength,
    hfound, hd⟩

end RoadMatching.Line
