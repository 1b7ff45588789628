import RoadMatching.Proofs.Routing.Trip
import RoadMatching.Road.Route

/-!
Places on the segments of a line.

A place is told by the segment, and by the length from its start. Several segments may share a
place, and a segment may have no length. If positions without a distance are equal, all places after
one length of a line are the same, whichever segment they are told by.

* `Geodesy.IsDefinite`: distances are not negative, and zero only between equal positions.
* `Segment.pointAfter`: the position after a length of a segment.
* `Line.covered`: the length of segments in a row. `Line.isChain_segments`: each one starts where the
  one before stops.
* `Line.Reaches`: a position after a length of segments in a row. `Line.Reaches.unique`: there is
  one such position.
* `Line.intercept_mem`: a line comes closest to a position at a fraction of the unit interval.
* `Line.exists_locateFrom`: a length that is located is that of the segments before the one that is
  found, and the ratio of this one, which is the first on which the length is reached.
* `Line.reaches_interpolate`: what is interpolated is after its fraction of the length.
-/

namespace RoadMatching

variable {K : Type} [Field K] [LinearOrder K]

/-! ### Distances -/

/-- Distances are not negative, and zero only between equal positions. The way between two positions
starts at the one and stops at the other. -/
structure Geodesy.IsDefinite (K : Type) [Field K] [LinearOrder K] [Geodesy K] : Prop where
  nonneg : ∀ a b : Point K, 0 ≤ Geodesy.distance a b
  eq_of_distance : ∀ a b : Point K, Geodesy.distance a b = 0 → a = b
  start : ∀ a b : Point K, Geodesy.between a b 0 = a
  stop : ∀ a b : Point K, Geodesy.between a b 1 = b

variable [Geodesy K]

/-! ### One segment -/

namespace Segment

/-- The position after a length of a segment. -/
def pointAfter (s : Segment K) (x : K) : Point K := s.pointAt (x / s.length)

/-- A segment without length starts where it stops. -/
lemma start_eq_stop (h : Geodesy.IsDefinite K) {s : Segment K} (hs : s.length = 0) :
    s.start = s.stop :=
  h.eq_of_distance _ _ hs

lemma pointAfter_zero (h : Geodesy.IsDefinite K) (s : Segment K) : s.pointAfter 0 = s.start := by
  rw [pointAfter, zero_div]
  exact h.start s.start s.stop

/-- The end of a segment is after its length, also if it has none. -/
lemma pointAfter_length (h : Geodesy.IsDefinite K) (s : Segment K) :
    s.pointAfter s.length = s.stop := by
  by_cases hs : s.length = 0
  · rw [hs, pointAfter_zero h, start_eq_stop h hs]
  · rw [pointAfter, div_self hs]
    exact h.stop s.start s.stop

end Segment

namespace Line

/-! ### Segments in a row -/

/-- The length of segments in a row. -/
def covered (segments : List (Segment K)) : K := (segments.map Segment.length).sum

omit [LinearOrder K] in
@[simp] lemma covered_nil : covered ([] : List (Segment K)) = 0 := rfl

omit [LinearOrder K] in
@[simp] lemma covered_cons (s : Segment K) (rest : List (Segment K)) :
    covered (s :: rest) = s.length + covered rest :=
  List.sum_cons

omit [LinearOrder K] in
@[simp] lemma covered_append (front back : List (Segment K)) :
    covered (front ++ back) = covered front + covered back := by
  rw [covered, List.map_append, List.sum_append]
  rfl

omit [LinearOrder K] in
lemma metres_eq_covered (line : Line K) : line.metres = covered line.segments :=
  total_eq_sum _

omit [Field K] [LinearOrder K] [Geodesy K] in
/-- Each segment of a line starts where the one before it stops. -/
lemma isChain_segments (line : Line K) :
    line.segments.IsChain fun s t => s.stop = t.start := by
  induction line with
  | nil => exact .nil
  | cons v rest ih =>
    cases rest with
    | nil => exact .nil
    | cons w rest =>
      show List.IsChain _ (⟨v, w⟩ :: segments (w :: rest))
      cases rest with
      | nil => exact List.isChain_singleton _
      | cons x rest => exact List.isChain_cons_cons.2 ⟨rfl, ih⟩

variable [IsStrictOrderedRing K]

lemma covered_nonneg (h : Geodesy.IsDefinite K) (segments : List (Segment K)) :
    0 ≤ covered segments := by
  refine List.sum_nonneg fun x hx => ?_
  obtain ⟨s, -, rfl⟩ := List.mem_map.1 hx
  exact h.nonneg s.start s.stop

/-- Segments without length in between do not lead away. -/
lemma stop_eq_start (h : Geodesy.IsDefinite K) {s t : Segment K} {mid back : List (Segment K)}
    (hchain : (s :: mid ++ t :: back).IsChain fun s t => s.stop = t.start)
    (hmid : covered mid = 0) : s.stop = t.start := by
  induction mid generalizing s with
  | nil => exact (List.isChain_cons_cons.1 hchain).1
  | cons u mid ih =>
    obtain ⟨hfirst, hrest⟩ := List.isChain_cons_cons.1 hchain
    have hnonneg := covered_nonneg h mid
    have hlength : 0 ≤ u.length := h.nonneg u.start u.stop
    rw [covered_cons] at hmid
    rw [hfirst, Segment.start_eq_stop h (by linarith)]
    exact ih hrest (by linarith)

/-! ### Places -/

/-- A position after a length of segments in a row: it is on one of them, at what remains of the
length behind those before. -/
def Reaches (segments : List (Segment K)) (d : K) (p : Point K) : Prop :=
  ∃ front s back x, segments = front ++ s :: back ∧ 0 ≤ x ∧ x ≤ s.length ∧
    d = covered front + x ∧ p = s.pointAfter x

/-- Two places after one length, the one on a segment that is not behind that of the other. -/
lemma pointAfter_eq_of_append (h : Geodesy.IsDefinite K) {s t : Segment K}
    {front more back rest : List (Segment K)} {x y : K}
    (hchain : (front ++ s :: back).IsChain fun s t => s.stop = t.start)
    (heq : s :: back = more ++ t :: rest) (hx : x ≤ s.length) (hy : 0 ≤ y)
    (hd : covered front + x = covered (front ++ more) + y) : s.pointAfter x = t.pointAfter y := by
  rw [covered_append] at hd
  cases more with
  | nil =>
    obtain ⟨rfl, -⟩ := List.cons_eq_cons.1 heq
    rw [covered_nil, add_zero] at hd
    rw [add_left_cancel hd]
  | cons u mid =>
    obtain ⟨rfl, rfl⟩ := List.cons_eq_cons.1 heq
    -- the first place is at the end of its segment, the second at the start, with nothing between
    have hmid := covered_nonneg h mid
    rw [covered_cons] at hd
    obtain rfl : x = s.length := by linarith
    obtain rfl : y = 0 := by linarith
    rw [Segment.pointAfter_length h, Segment.pointAfter_zero h]
    exact stop_eq_start h (List.isChain_append.1 hchain).2.1 (by linarith)

/-- After a length of a line there is one position, whichever segment it is told by. -/
lemma Reaches.unique (h : Geodesy.IsDefinite K) {segments : List (Segment K)}
    (hchain : segments.IsChain fun s t => s.stop = t.start) {d : K} {p q : Point K}
    (hp : Reaches segments d p) (hq : Reaches segments d q) : p = q := by
  obtain ⟨front, s, back, x, rfl, hx₀, hx₁, rfl, rfl⟩ := hp
  obtain ⟨ahead, t, rest, y, heq, hy₀, hy₁, hd, rfl⟩ := hq
  rcases List.append_eq_append_iff.1 heq with ⟨more, rfl, hback⟩ | ⟨more, rfl, hback⟩
  · exact pointAfter_eq_of_append h hchain hback hx₁ hy₀ hd
  · rw [heq] at hchain
    exact (pointAfter_eq_of_append h hchain hback hy₁ hx₀ hd.symm).symm

/-! ### Fractions -/

omit [Geodesy K] in
lemma clampUnit_mem (x : K) : 0 ≤ clampUnit x ∧ clampUnit x ≤ 1 := by
  rw [clampUnit]
  split_ifs with hlow hhigh
  · exact ⟨le_rfl, zero_le_one⟩
  · exact ⟨zero_le_one, le_rfl⟩
  · exact ⟨not_lt.1 hlow, not_lt.1 hhigh⟩

/-- A line comes closest to a position at a fraction of it. -/
lemma intercept_mem [BEq K] (line : Line K) (p : Point K) :
    0 ≤ line.intercept p ∧ line.intercept p ≤ 1 := by
  rw [intercept]
  split
  · exact clampUnit_mem _
  · exact ⟨le_rfl, zero_le_one⟩

/-! ### Locating a length -/

/-- What is located: the first segment with a length on which the length in question is reached. The
ratio of the segment is what remains behind the segments before it. -/
lemma exists_locateFrom {segments : List (Segment K)} (hlengths : ∀ s ∈ segments, 0 ≤ s.length)
    {c d : K} (last : Option (Segment K)) (hpos : 0 < covered segments) (hlow : c ≤ d)
    (hhigh : d ≤ c + covered segments) :
    ∃ front s back x, segments = front ++ s :: back ∧ 0 < s.length ∧ 0 ≤ x ∧ x ≤ s.length ∧
      d = c + covered front + x ∧ locateFrom d c last segments = some (s, x / s.length) ∧
      ∀ ahead t rest, front = ahead ++ t :: rest → 0 < t.length →
        c + covered ahead + t.length < d := by
  induction segments generalizing c last with
  | nil => exact absurd hpos (lt_irrefl 0)
  | cons s rest ih =>
    obtain ⟨hs, hlengths⟩ := List.forall_mem_cons.1 hlengths
    rw [covered_cons] at hpos hhigh
    rw [locateFrom_cons]
    by_cases hon : 0 < s.length ∧ d ≤ c + s.length
    · obtain ⟨hlength, hle⟩ := hon
      have hratio₀ : 0 ≤ (d - c) / s.length := div_nonneg (sub_nonneg.2 hlow) hlength.le
      have hratio₁ : (d - c) / s.length ≤ 1 := (div_le_one hlength).2 (by linarith)
      rw [if_pos ⟨hlength, hle⟩, clampUnit_of_mem (not_lt.2 hratio₀) (not_lt.2 hratio₁)]
      exact ⟨[], s, rest, d - c, rfl, hlength, by linarith, by linarith,
        by rw [covered_nil]; ring, rfl, by simp⟩
    · rw [if_neg hon]
      -- the segment is passed, as it has no length or ends before
      have hpassed : c + s.length ≤ d ∧ 0 < covered rest := by
        rcases hs.eq_or_lt with hzero | hlength
        · rw [← hzero] at hpos ⊢
          exact ⟨by linarith, by linarith⟩
        · have hlt : c + s.length < d := not_le.1 fun hle => hon ⟨hlength, hle⟩
          exact ⟨hlt.le, by linarith⟩
      obtain ⟨front, t, back, x, rfl, hlength, hx₀, hx₁, hd, hlocated, hbefore⟩ :=
        ih hlengths (if 0 < s.length then some s else last) hpassed.2 hpassed.1 (by linarith)
      refine ⟨s :: front, t, back, x, rfl, hlength, hx₀, hx₁, by rw [hd, covered_cons]; ring,
        hlocated, fun ahead u behind heq hu => ?_⟩
      rcases List.cons_eq_append_iff.1 heq with ⟨rfl, hfirst⟩ | ⟨others, rfl, hfront⟩
      · obtain ⟨rfl, -⟩ := List.cons_eq_cons.1 hfirst
        rw [covered_nil, add_zero]
        exact not_le.1 fun hle => hon ⟨hu, hle⟩
      · have hearlier := hbefore others u behind hfront hu
        rw [covered_cons]
        linarith

omit [IsStrictOrderedRing K] in
/-- On segments without length nothing is located. -/
lemma locateFrom_eq_none {segments : List (Segment K)} (hlengths : ∀ s ∈ segments, s.length = 0)
    (c d : K) : locateFrom d c none segments = none := by
  induction segments generalizing c with
  | nil => rfl
  | cons s rest ih =>
    obtain ⟨hs, hlengths⟩ := List.forall_mem_cons.1 hlengths
    have hnot : ¬ 0 < s.length := hs.not_gt
    rw [locateFrom_cons, if_neg fun hon => hnot hon.1, if_neg hnot]
    exact ih hlengths _

/-- Where all segments together have no length, none of them has one. -/
lemma length_eq_zero (h : Geodesy.IsDefinite K) {segments : List (Segment K)}
    (hzero : covered segments = 0) : ∀ s ∈ segments, s.length = 0 := by
  intro s hs
  obtain ⟨front, back, rfl⟩ := List.append_of_mem hs
  have hfront := covered_nonneg h front
  have hback := covered_nonneg h back
  have hlength : 0 ≤ s.length := h.nonneg s.start s.stop
  rw [covered_append, covered_cons] at hzero
  linarith

/-- **Interpolation** gives the position after a fraction of the length of a line. -/
lemma reaches_interpolate (h : Geodesy.IsDefinite K) {line : Line K} (hne : line.segments ≠ [])
    {fraction : K} (h₀ : 0 ≤ fraction) (h₁ : fraction ≤ 1) :
    Reaches line.segments (line.metres * fraction) (line.interpolate fraction) := by
  rw [interpolate, clampUnit_of_mem (not_lt.2 h₀) (not_lt.2 h₁), locate]
  have hnonneg := covered_nonneg h line.segments
  rw [metres_eq_covered]
  rcases hnonneg.eq_or_lt with hzero | hpos
  · have hlengths := length_eq_zero h hzero.symm
    obtain ⟨s, rest, hsegments⟩ := List.exists_cons_of_ne_nil hne
    have hs : s.length = 0 := hlengths s (hsegments ▸ List.mem_cons_self)
    rw [locateFrom_eq_none hlengths, ← hzero, hsegments]
    refine ⟨[], s, rest, 0, rfl, le_rfl, hs.ge, by rw [zero_mul, covered_nil, zero_add], ?_⟩
    calc s.pointAt 1 = s.stop := h.stop s.start s.stop
      _ = s.pointAfter 0 := by rw [Segment.pointAfter_zero h, Segment.start_eq_stop h hs]
  · obtain ⟨front, s, back, x, hsegments, -, hx₀, hx₁, hd, hlocated, -⟩ :=
      exists_locateFrom (fun s _ => h.nonneg s.start s.stop) (c := 0) none hpos
        (mul_nonneg hnonneg h₀) (by rw [zero_add]; exact mul_le_of_le_one_right hnonneg h₁)
    rw [hlocated]
    exact ⟨front, s, back, x, hsegments, hx₀, hx₁, by rw [hd, zero_add], rfl⟩

end Line

end RoadMatching
