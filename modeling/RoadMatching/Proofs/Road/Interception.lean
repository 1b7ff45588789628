import RoadMatching.Proofs.Matching.Turning
import RoadMatching.Proofs.Number.Finite
import RoadMatching.Proofs.Road.Reversal

/-!
The place where a line comes closest to a position.

The segments are passed one by one, and the first of those with the least distance counts. What is
kept of it is a length, and interpolation may find another segment at this length; but the position
there is the same.

* `Segment.HoldsClosest`: what is assumed of the closest position of a segment.
* `Line.Foremost`: the segment that is the first of the closest ones, between those before it and
  those behind it. `Line.best_foldl_pass`: a scan keeps its distance, and the length up to it.
* `Line.metres_mul_intercept`: so the fraction of the line is that of its length.
* `Line.interpolate_intercept`: **the closest place** is found, and interpolation returns to it.
-/

namespace RoadMatching

variable {K : Type} [Field K] [LinearOrder K] [Geodesy K]

/-- The closest position of a segment is on the segment: it is not farther from the start than the
segment is long, and it lies at the ratio of its distance from the start to the length. -/
structure Segment.HoldsClosest (s : Segment K) (p : Point K) : Prop where
  distance_le : Geodesy.distance s.start (s.closest p) ≤ s.length
  eq_pointAt : s.closest p = s.pointAt (Geodesy.distance s.start (s.closest p) / s.length)

namespace Line

/-! ### The foremost segment -/

/-- The distance of a segment to a position. -/
def gap (p : Point K) (s : Segment K) : K := Geodesy.distance (s.closest p) p

/-- A segment is the first one of those that are closest to a position: those before it are farther
away, and those behind it are not closer. -/
structure Foremost (p : Point K) (front : List (Segment K)) (s : Segment K)
    (back : List (Segment K)) : Prop where
  front_lt : ∀ t ∈ front, gap p s < gap p t
  le_back : ∀ t ∈ back, gap p s ≤ gap p t

omit [Field K] in
/-- The foremost segment is as close as any. -/
lemma Foremost.isLeast {p : Point K} {front back : List (Segment K)} {s : Segment K}
    (h : Foremost p front s back) :
    IsLeast {d | ∃ t ∈ front ++ s :: back, d = gap p t} (gap p s) := by
  refine ⟨⟨s, by simp, rfl⟩, ?_⟩
  rintro d ⟨t, ht, rfl⟩
  rcases List.mem_append.1 ht with ht | ht
  · exact (h.front_lt t ht).le
  · rcases List.mem_cons.1 ht with rfl | ht
    · exact le_rfl
    · exact h.le_back t ht

variable [BEq K] [LawfulBEq K]

/-! ### Passing the segments -/

/-- The length up to the closest position of a segment, if a length has been covered before. -/
def placeOn (p : Point K) (before : K) (s : Segment K) : K :=
  before + min (Geodesy.distance s.start (s.closest p)) s.length

/-- The first segment is closer than none. -/
lemma Approach.best_pass_none {p : Point K} {scan : Approach K} (hbest : scan.best = none)
    (s : Segment K) : (scan.pass p s).best = some (gap p s, placeOn p scan.covered s) := by
  rw [pass]
  dsimp only
  rw [hbest, if_pos (beq_self_eq_true _), least_eq_min]
  rfl

/-- A segment counts if it is closer than the foremost one. -/
lemma Approach.best_pass_some {p : Point K} {scan : Approach K} {least place : K}
    (hbest : scan.best = some (least, place)) (s : Segment K) :
    (scan.pass p s).best =
      if gap p s < least then some (gap p s, placeOn p scan.covered s)
      else some (least, place) := by
  rw [pass]
  dsimp only
  rw [hbest, least_eq_min]
  simp only [decide_eq_true_eq]
  rfl

/-- **The invariant of a scan**: after some segments it has the distance of the foremost one, and
the length up to the place on it. -/
lemma best_foldl_pass (p : Point K) {segments : List (Segment K)} (hne : segments ≠ []) :
    ∃ front s back, segments = front ++ s :: back ∧ Foremost p front s back ∧
      (segments.foldl (Approach.pass p) ⟨none, 0⟩).best =
        some (gap p s, placeOn p (covered front) s) := by
  induction segments using List.reverseRecOn with
  | nil => exact absurd rfl hne
  | append_singleton segments t ih =>
    have hcovered : (segments.foldl (Approach.pass p) ⟨none, 0⟩).covered = covered segments := by
      rw [Approach.covered_foldl, covered, List.sum_eq_foldl]
    rw [List.foldl_concat]
    rcases eq_or_ne segments [] with rfl | hsegments
    · exact ⟨[], t, [], rfl, ⟨by simp, by simp⟩, Approach.best_pass_none rfl t⟩
    · obtain ⟨front, s, back, rfl, hforemost, hbest⟩ := ih hsegments
      rw [Approach.best_pass_some hbest, hcovered]
      split
      · next hcloser =>
        refine ⟨front ++ s :: back, t, [], rfl, ⟨fun u hu => ?_, by simp⟩, rfl⟩
        exact hcloser.trans_le (hforemost.isLeast.2 ⟨u, hu, rfl⟩)
      · next hfarther =>
        refine ⟨front, s, back ++ [t], by simp, ⟨hforemost.front_lt, fun u hu => ?_⟩, rfl⟩
        rcases List.mem_append.1 hu with hu | hu
        · exact hforemost.le_back u hu
        · rw [List.mem_singleton.1 hu]
          exact not_lt.1 hfarther

/-! ### The closest place -/

variable [IsStrictOrderedRing K]

/-- A line comes closest to a position at the fraction of its length up to the place on the foremost
segment. -/
lemma metres_mul_intercept (h : Geodesy.IsDefinite K) (p : Point K) {line : Line K}
    (hne : line.segments ≠ []) :
    ∃ front s back, line.segments = front ++ s :: back ∧ Foremost p front s back ∧
      line.metres * line.intercept p = placeOn p (covered front) s := by
  obtain ⟨front, s, back, hsegments, hforemost, hbest⟩ := best_foldl_pass p hne
  have hcovered : (line.segments.foldl (Approach.pass p) ⟨none, 0⟩).covered = line.metres := by
    rw [Approach.covered_foldl, metres_eq_covered, covered, List.sum_eq_foldl]
  have hfront := covered_nonneg h front
  have hback := covered_nonneg h back
  have hplace₀ : covered front ≤ placeOn p (covered front) s :=
    le_add_of_nonneg_right (le_min (h.nonneg _ _) (h.nonneg _ _))
  have hplace₁ : placeOn p (covered front) s ≤ covered front + s.length :=
    add_le_add_right (min_le_right _ _) _
  have hmetres : line.metres = covered front + s.length + covered back := by
    rw [metres_eq_covered, hsegments, covered_append, covered_cons, add_assoc]
  refine ⟨front, s, back, hsegments, hforemost, ?_⟩
  rw [intercept, hcovered, hbest]
  split
  · next hpos =>
    have hratio₀ : 0 ≤ placeOn p (covered front) s / line.metres :=
      div_nonneg (by linarith) hpos.le
    have hratio₁ : placeOn p (covered front) s / line.metres ≤ 1 :=
      (div_le_one hpos).2 (by linarith)
    show line.metres * clampUnit (placeOn p (covered front) s / line.metres) = _
    rw [clampUnit_of_mem (not_lt.2 hratio₀) (not_lt.2 hratio₁), mul_div_cancel₀ _ hpos.ne']
  · next hnot =>
    rw [mul_zero]
    exact le_antisymm (by linarith) (by linarith [not_lt.1 hnot])

/-- **The closest place**: a line with segments comes closest to a position at a fraction of the
unit interval, and what is interpolated there is the closest position of the first segment of least
distance. So its distance is the least one of those of the closest positions of all segments. -/
theorem interpolate_intercept (h : Geodesy.IsDefinite K) {line : Line K}
    (hne : line.segments ≠ []) {p : Point K}
    (hclosest : ∀ s ∈ line.segments, s.HoldsClosest p) :
    0 ≤ line.intercept p ∧ line.intercept p ≤ 1 ∧
      IsLeast {d | ∃ s ∈ line.segments, d = Geodesy.distance (s.closest p) p}
        (Geodesy.distance (line.interpolate (line.intercept p)) p) ∧
      ∃ front s back, line.segments = front ++ s :: back ∧
        line.interpolate (line.intercept p) = s.closest p ∧
        (∀ t ∈ front,
          Geodesy.distance (s.closest p) p < Geodesy.distance (t.closest p) p) ∧
        ∀ t ∈ back, Geodesy.distance (s.closest p) p ≤ Geodesy.distance (t.closest p) p := by
  obtain ⟨h₀, h₁⟩ := line.intercept_mem p
  obtain ⟨front, s, back, hsegments, hforemost, hlength⟩ := metres_mul_intercept h p hne
  have hs : s.HoldsClosest p := hclosest s (by rw [hsegments]; simp)
  have hplace : Reaches line.segments (line.metres * line.intercept p) (s.closest p) := by
    refine ⟨front, s, back, _, hsegments, h.nonneg _ _, hs.distance_le, ?_, hs.eq_pointAt⟩
    rw [hlength, placeOn, min_eq_left hs.distance_le]
  have hfound : line.interpolate (line.intercept p) = s.closest p :=
    (reaches_interpolate h hne h₀ h₁).unique h line.isChain_segments hplace
  refine ⟨h₀, h₁, ?_, front, s, back, hsegments, hfound, hforemost.front_lt, hforemost.le_back⟩
  rw [hfound, hsegments]
  exact hforemost.isLeast

/-! ### Beside a turn -/

open Plane in
/-- Beside a line that turns, the closest place is on the segment behind the turn. -/
theorem interpolate_intercept_bend :
    Geodesy.IsDefinite ℚ ∧ Street.bend.segments ≠ [] ∧
      (∀ s ∈ Street.bend.segments, s.HoldsClosest ⟨70, 8⟩) ∧
      Street.bend.intercept ⟨70, 8⟩ = 17 / 20 ∧
      Street.bend.interpolate (17 / 20) = ⟨60, 8⟩ ∧
      IsLeast {d | ∃ s ∈ Street.bend.segments, d = Geodesy.distance (s.closest ⟨70, 8⟩) ⟨70, 8⟩}
        (Geodesy.distance (Street.bend.interpolate (Street.bend.intercept ⟨70, 8⟩)) ⟨70, 8⟩) := by
  have hne : Street.bend.segments ≠ [] := List.cons_ne_nil _ _
  have hclosest : ∀ s ∈ Street.bend.segments, s.HoldsClosest ⟨70, 8⟩ := by
    have hall : ∀ s ∈ Street.bend.segments,
        Geodesy.distance s.start (s.closest ⟨70, 8⟩) ≤ s.length ∧ s.closest ⟨70, 8⟩ =
          s.pointAt (Geodesy.distance s.start (s.closest ⟨70, 8⟩) / s.length) := by
      decide +kernel
    exact fun s hs => ⟨(hall s hs).1, (hall s hs).2⟩
  obtain ⟨-, -, hleast, -⟩ := interpolate_intercept isReversible.toIsDefinite hne hclosest
  exact ⟨isReversible.toIsDefinite, hne, hclosest, by decide +kernel, by decide +kernel, hleast⟩

end Line

end RoadMatching
