import RoadMatching.Proofs.Routing.Trip
import RoadMatching.Road.Route

/-!
Positions along a line.

A position is told by the length covered up to it, and a line may have segments without length, so
that several vertices are at the same length. The positions at one length are at no distance from
each other, and that is all that is known of them.

* `Geodesy.IsMetric`: the laws of distances, and that they add up along a segment.
* `Line.stonesFrom`: the vertices of a line, each with the length covered up to it.
* `Line.Lies`: a position lies at a length of a line. `Lies.distance_le`: two positions are no
  farther apart than along the line. `Lies.distance_eq`: they are as far apart if there is no vertex
  between them.
* `Line.lies_interpolate`: what is interpolated lies at its fraction of the line.
* `Line.Lies.append`, `Line.Lies.prepend`, `Line.stonesFrom_append`: lines that are joined.
* `Line.Shows`: the vertices of a line between two lengths.
* `Line.milestonesFrom_cut`: **a line that is cut out** between two positions covers the same
  lengths as the whole one.
* `Plane.isMetric`: distances along two axes are such a measure.
-/

namespace RoadMatching

variable {K : Type} [Field K] [LinearOrder K]

/-! ### Distances -/

/-- Distances are those of a metric, except that different coordinates may stand for one position,
and they add up along a segment. -/
structure Geodesy.IsMetric (K : Type) [Field K] [LinearOrder K] [Geodesy K] : Prop where
  symm : ∀ a b : Point K, Geodesy.distance a b = Geodesy.distance b a
  triangle : ∀ a b c : Point K,
    Geodesy.distance a c ≤ Geodesy.distance a b + Geodesy.distance b c
  start : ∀ a b : Point K, Geodesy.between a b 0 = a
  stop : ∀ a b : Point K, Geodesy.between a b 1 = b
  along : ∀ (a b : Point K) (s t : K), 0 ≤ s → s ≤ t → t ≤ 1 →
    Geodesy.distance (Geodesy.between a b s) (Geodesy.between a b t) =
      (t - s) * Geodesy.distance a b

variable [IsStrictOrderedRing K] [Geodesy K]

namespace Geodesy.IsMetric

variable (h : IsMetric K)
include h

lemma self (a : Point K) : distance a a = 0 := by
  have := h.along a a 0 0 le_rfl le_rfl zero_le_one
  rwa [h.start, sub_self, zero_mul] at this

lemma nonneg (a b : Point K) : 0 ≤ distance a b := by
  have hback := h.triangle a b a
  rw [h.self, h.symm b a] at hback
  linarith

/-- Two positions on one segment. -/
lemma on_segment (a b : Point K) {s t : K} (hs₀ : 0 ≤ s) (hs₁ : s ≤ 1) (ht₀ : 0 ≤ t) (ht₁ : t ≤ 1) :
    distance (between a b s) (between a b t) = |t - s| * distance a b := by
  rcases le_total s t with hst | hts
  · rw [h.along a b s t hs₀ hst ht₁, abs_of_nonneg (sub_nonneg.2 hst)]
  · rw [h.symm, h.along a b t s ht₀ hts hs₁, abs_of_nonpos (sub_nonpos.2 hts), neg_sub]

/-- Positions that coincide are equally far apart from others that do. -/
lemma distance_congr {p q p' q' : Point K} (hp : distance p q = 0) (hq : distance p' q' = 0) :
    distance p p' = distance q q' := by
  have hthere := (h.triangle p q p').trans (add_le_add le_rfl (h.triangle q q' p'))
  have hback := (h.triangle q p q').trans (add_le_add le_rfl (h.triangle p p' q'))
  rw [hp, h.symm q' p', hq] at hthere
  rw [h.symm q p, hp, hq] at hback
  exact le_antisymm (by linarith) (by linarith)

end Geodesy.IsMetric

namespace Line

/-! ### Vertices -/

omit [LinearOrder K] [IsStrictOrderedRing K] in
@[simp] lemma metres_nil : metres ([] : Line K) = 0 := by
  simp [metres, segments, total_eq_sum]

omit [LinearOrder K] [IsStrictOrderedRing K] in
@[simp] lemma metres_singleton (v : Point K) : metres [v] = 0 := by
  simp [metres, segments, total_eq_sum]

omit [LinearOrder K] [IsStrictOrderedRing K] in
lemma metres_cons_cons (v w : Point K) (rest : Line K) :
    metres (v :: w :: rest) = Geodesy.distance v w + metres (w :: rest) := by
  simp [metres, segments, total_eq_sum, Segment.length]

lemma metres_nonneg (hm : Geodesy.IsMetric K) (line : Line K) : 0 ≤ metres line := by
  rw [metres, total_eq_sum]
  refine List.sum_nonneg fun x hx => ?_
  obtain ⟨s, -, rfl⟩ := List.mem_map.1 hx
  exact hm.nonneg s.start s.stop

/-- The vertices of a line, each with the length covered up to it. -/
def stonesFrom (covered : K) : Line K → List (K × Point K)
  | [] => []
  | v :: rest => (covered, v) :: Route.milestonesFrom covered (segments (v :: rest))

omit [LinearOrder K] [IsStrictOrderedRing K] in
lemma stonesFrom_cons_cons (c : K) (v w : Point K) (rest : Line K) :
    stonesFrom c (v :: w :: rest) =
      (c, v) :: stonesFrom (c + Geodesy.distance v w) (w :: rest) := rfl

/-- The vertices are as far along the line as the length covered before, and come in order. -/
lemma le_of_mem_stonesFrom (hm : Geodesy.IsMetric K) {line : Line K} {c : K} {stone : K × Point K}
    (h : stone ∈ stonesFrom c line) : c ≤ stone.1 ∧ stone.1 ≤ c + metres line := by
  induction line generalizing c with
  | nil => cases h
  | cons v rest ih =>
    cases rest with
    | nil =>
      rw [List.mem_singleton.1 h, metres_singleton, add_zero]
      exact ⟨le_rfl, le_rfl⟩
    | cons w rest =>
      have hstep := hm.nonneg v w
      have hrest := metres_nonneg hm (w :: rest)
      rw [metres_cons_cons]
      rw [stonesFrom_cons_cons] at h
      rcases List.mem_cons.1 h with rfl | h
      · exact ⟨le_rfl, by dsimp only; linarith⟩
      · obtain ⟨hlow, hhigh⟩ := ih h
        exact ⟨by linarith, by linarith⟩

lemma pairwise_stonesFrom (hm : Geodesy.IsMetric K) (c : K) (line : Line K) :
    (stonesFrom c line).Pairwise fun a b => a.1 ≤ b.1 := by
  induction line generalizing c with
  | nil => exact List.Pairwise.nil
  | cons v rest ih =>
    cases rest with
    | nil => exact List.pairwise_singleton _ _
    | cons w rest =>
      rw [stonesFrom_cons_cons]
      refine List.pairwise_cons.2 ⟨fun stone hstone => ?_, ih _⟩
      exact (le_add_of_nonneg_right (hm.nonneg v w)).trans (le_of_mem_stonesFrom hm hstone).1

/-! ### Positions -/

/-- A position at a length of a line, of which the length `c` has been covered before. Lines without
segments have one position. -/
def Lies (c : K) : Line K → K → Point K → Prop
  | [], d, p => d = c ∧ p = ⟨0, 0⟩
  | [v], d, p => d = c ∧ p = v
  | v :: w :: rest, d, p =>
    (∃ ratio, 0 ≤ ratio ∧ ratio ≤ 1 ∧ d = c + ratio * Geodesy.distance v w ∧
      p = Geodesy.between v w ratio) ∨
    Lies (c + Geodesy.distance v w) (w :: rest) d p

/-- A line starts with its first vertex. -/
lemma lies_head (hm : Geodesy.IsMetric K) (c : K) (v : Point K) (rest : Line K) :
    Lies c (v :: rest) c v := by
  cases rest with
  | nil => exact ⟨rfl, rfl⟩
  | cons w rest => exact .inl ⟨0, le_rfl, zero_le_one, by ring, (hm.start v w).symm⟩

/-- Vertices lie on the line. -/
lemma lies_of_mem_stonesFrom (hm : Geodesy.IsMetric K) {line : Line K} {c : K}
    {stone : K × Point K} (h : stone ∈ stonesFrom c line) : Lies c line stone.1 stone.2 := by
  induction line generalizing c with
  | nil => cases h
  | cons v rest ih =>
    cases rest with
    | nil =>
      rw [List.mem_singleton.1 h]
      exact ⟨rfl, rfl⟩
    | cons w rest =>
      rw [stonesFrom_cons_cons] at h
      rcases List.mem_cons.1 h with rfl | h
      · exact lies_head hm c v _
      · exact .inr (ih h)

namespace Lies

variable {c d d' : K} {p p' v w : Point K} {line rest : Line K}

lemma le (hm : Geodesy.IsMetric K) (h : Lies c line d p) : c ≤ d := by
  induction line generalizing c with
  | nil => exact h.1.ge
  | cons v rest ih =>
    cases rest with
    | nil => exact h.1.ge
    | cons w rest =>
      rcases h with ⟨ratio, hratio, -, rfl, -⟩ | h
      · exact le_add_of_nonneg_right (mul_nonneg hratio (hm.nonneg v w))
      · exact (le_add_of_nonneg_right (hm.nonneg v w)).trans (ih h)

/-- Two positions are no farther apart than along the line. -/
lemma distance_le (hm : Geodesy.IsMetric K) (h : Lies c line d p) (h' : Lies c line d' p') :
    Geodesy.distance p p' ≤ |d' - d| := by
  induction line generalizing c p p' d d' with
  | nil => rw [h.2, h'.2, hm.self]; exact abs_nonneg _
  | cons v rest ih =>
    cases rest with
    | nil => rw [h.2, h'.2, hm.self]; exact abs_nonneg _
    | cons w rest =>
      -- from a position on the first segment to one behind it, by way of the vertex between them
      have hacross : ∀ {d d' : K} {p p' : Point K}, (∃ ratio, 0 ≤ ratio ∧ ratio ≤ 1 ∧
          d = c + ratio * Geodesy.distance v w ∧ p = Geodesy.between v w ratio) →
          Lies (c + Geodesy.distance v w) (w :: rest) d' p' →
          Geodesy.distance p p' ≤ |d' - d| := by
        rintro d d' p p' ⟨ratio, hratio, hratio', rfl, rfl⟩ h'
        have hvertex := hm.along v w ratio 1 hratio hratio' le_rfl
        rw [hm.stop] at hvertex
        have hbehind := ih (lies_head hm _ w rest) h'
        have hlow := h'.le hm
        rw [abs_of_nonneg (sub_nonneg.2 hlow)] at hbehind
        have hthrough := hm.triangle (Geodesy.between v w ratio) w p'
        refine le_trans ?_ (le_abs_self _)
        linarith
      rcases h with h | h <;> rcases h' with h' | h'
      · obtain ⟨r, hr, hr', rfl, rfl⟩ := h
        obtain ⟨s, hs, hs', rfl, rfl⟩ := h'
        rw [hm.on_segment v w hr hr' hs hs', add_sub_add_left_eq_sub, ← sub_mul, abs_mul,
          abs_of_nonneg (hm.nonneg v w)]
      · exact hacross h h'
      · rw [hm.symm, abs_sub_comm]
        exact hacross h' h
      · exact ih h h'

/-- Positions at one length are at no distance. -/
lemma distance_eq_zero (hm : Geodesy.IsMetric K) (h : Lies c line d p) (h' : Lies c line d p') :
    Geodesy.distance p p' = 0 := by
  have hle := h.distance_le hm h'
  rw [sub_self, abs_zero] at hle
  exact le_antisymm hle (hm.nonneg p p')

/-- A position that is not behind the second vertex coincides with one on the first segment. -/
lemma on_first (hm : Geodesy.IsMetric K) (h : Lies c (v :: w :: rest) d p)
    (hd : d ≤ c + Geodesy.distance v w) :
    ∃ ratio, 0 ≤ ratio ∧ ratio ≤ 1 ∧ d = c + ratio * Geodesy.distance v w ∧
      Geodesy.distance p (Geodesy.between v w ratio) = 0 := by
  rcases h with ⟨ratio, hratio, hratio', rfl, rfl⟩ | h
  · exact ⟨ratio, hratio, hratio', rfl, hm.self _⟩
  · obtain rfl : d = c + Geodesy.distance v w := le_antisymm hd (h.le hm)
    refine ⟨1, zero_le_one, le_rfl, by rw [one_mul], ?_⟩
    rw [hm.stop]
    exact h.distance_eq_zero hm (lies_head hm _ w rest)

/-- A position that is not in front of the second vertex coincides with one behind it. -/
lemma on_rest (hm : Geodesy.IsMetric K) (h : Lies c (v :: w :: rest) d p)
    (hd : c + Geodesy.distance v w ≤ d) :
    ∃ q, Lies (c + Geodesy.distance v w) (w :: rest) d q ∧ Geodesy.distance p q = 0 := by
  rcases h with ⟨ratio, hratio, hratio', rfl, rfl⟩ | h
  · have hlength : ratio * Geodesy.distance v w = Geodesy.distance v w :=
      le_antisymm (mul_le_of_le_one_left (hm.nonneg v w) hratio') (by linarith)
    refine ⟨w, by rw [hlength]; exact lies_head hm _ w rest, ?_⟩
    have hvertex := hm.along v w ratio 1 hratio hratio' le_rfl
    rwa [hm.stop, sub_mul, one_mul, hlength, sub_self] at hvertex
  · exact ⟨p, h, hm.self p⟩

/-- Two positions are as far apart as along the line if there is no vertex between them. -/
lemma distance_eq (hm : Geodesy.IsMetric K) (h : Lies c line d p) (h' : Lies c line d' p')
    (hle : d ≤ d') (hbetween : ∀ stone ∈ stonesFrom c line, stone.1 ≤ d ∨ d' ≤ stone.1) :
    Geodesy.distance p p' = d' - d := by
  rcases hle.eq_or_lt with rfl | hlt
  · rw [h.distance_eq_zero hm h', sub_self]
  induction line generalizing c p p' with
  | nil => exact absurd (h'.1.trans h.1.symm) hlt.ne'
  | cons v rest ih =>
    cases rest with
    | nil => exact absurd (h'.1.trans h.1.symm) hlt.ne'
    | cons w rest =>
      rw [stonesFrom_cons_cons, List.forall_mem_cons] at hbetween
      have hsecond : c + Geodesy.distance v w ≤ d ∨ d' ≤ c + Geodesy.distance v w :=
        hbetween.2 (c + Geodesy.distance v w, w) List.mem_cons_self
      rcases hsecond with hbehind | hfront
      · obtain ⟨q, hq, hpq⟩ := h.on_rest hm hbehind
        obtain ⟨q', hq', hpq'⟩ := h'.on_rest hm (hbehind.trans hle)
        rw [hm.distance_congr hpq hpq']
        exact ih hq hq' hbetween.2
      · obtain ⟨r, hr, hr', hdr, hpq⟩ := h.on_first hm (hle.trans hfront)
        obtain ⟨s, hs, hs', hds, hpq'⟩ := h'.on_first hm hfront
        have hrs : r ≤ s := by
          by_contra hsr
          have := mul_le_mul_of_nonneg_right (not_le.1 hsr).le (hm.nonneg v w)
          linarith
        rw [hm.distance_congr hpq hpq', hm.along v w r s hr hrs hs', sub_mul, hdr, hds]
        ring

end Lies

/-! ### Interpolation -/

/-- A length beyond the start is found on the segment at which it is covered. -/
lemma lies_locateFrom (hm : Geodesy.IsMetric K) {line : Line K} {c d : K}
    (last : Option (Segment K)) (hlow : c < d) (hhigh : d ≤ c + metres line) :
    ∃ s ratio, locateFrom d c last line.segments = some (s, ratio) ∧
      Lies c line d (s.pointAt ratio) := by
  induction line generalizing c last with
  | nil =>
    rw [metres_nil, add_zero] at hhigh
    exact absurd hhigh (not_le.2 hlow)
  | cons v rest ih =>
    cases rest with
    | nil =>
      rw [metres_singleton, add_zero] at hhigh
      exact absurd hhigh (not_le.2 hlow)
    | cons w rest =>
      rw [metres_cons_cons, ← add_assoc] at hhigh
      show ∃ s ratio, locateFrom d c last (⟨v, w⟩ :: segments (w :: rest)) = some (s, ratio) ∧ _
      rw [locateFrom_cons]
      by_cases hon : 0 < Segment.length ⟨v, w⟩ ∧ d ≤ c + Segment.length ⟨v, w⟩
      · obtain ⟨hpos, hle⟩ := hon
        have hratio₀ : 0 ≤ (d - c) / Segment.length ⟨v, w⟩ := div_nonneg (by linarith) hpos.le
        have hratio₁ : (d - c) / Segment.length ⟨v, w⟩ ≤ 1 := (div_le_one hpos).2 (by linarith)
        rw [if_pos ⟨hpos, hle⟩, clampUnit_of_mem (not_lt.2 hratio₀) (not_lt.2 hratio₁)]
        refine ⟨_, _, rfl, .inl ⟨_, hratio₀, hratio₁, ?_, rfl⟩⟩
        show d = c + (d - c) / Segment.length ⟨v, w⟩ * Segment.length ⟨v, w⟩
        rw [div_mul_cancel₀ _ hpos.ne', add_sub_cancel]
      · rw [if_neg hon]
        have hpassed : c + Geodesy.distance v w < d := by
          rcases (hm.nonneg v w).eq_or_lt with hzero | hpos
          · rwa [← hzero, add_zero]
          · exact not_le.1 fun hle => hon ⟨hpos, hle⟩
        obtain ⟨s, ratio, hfound, hlies⟩ := ih (if 0 < Segment.length ⟨v, w⟩ then some ⟨v, w⟩ else last)
          hpassed hhigh
        exact ⟨s, ratio, hfound, .inr hlies⟩

/-- The start is found on the first segment that has a length, if there is one. -/
lemma lies_locateFrom_start (hm : Geodesy.IsMetric K) (line : Line K) (c : K) :
    (∃ s ratio, locateFrom c c none line.segments = some (s, ratio) ∧
      Lies c line c (s.pointAt ratio)) ∨
    locateFrom c c none line.segments = none ∧ metres line = 0 := by
  induction line with
  | nil => exact .inr ⟨rfl, metres_nil⟩
  | cons v rest ih =>
    cases rest with
    | nil => exact .inr ⟨rfl, metres_singleton v⟩
    | cons w rest =>
      show (∃ s ratio, locateFrom c c none (⟨v, w⟩ :: segments (w :: rest)) = some (s, ratio) ∧ _) ∨
        locateFrom c c none (⟨v, w⟩ :: segments (w :: rest)) = none ∧ _
      rw [locateFrom_cons]
      rcases (hm.nonneg v w).eq_or_lt with hzero | hpos
      · have hnot : ¬ 0 < Segment.length ⟨v, w⟩ := hzero.ge.not_gt
        have hcovered : c + Segment.length ⟨v, w⟩ = c := by
          rw [Segment.length, ← hzero, add_zero]
        rw [if_neg fun h => hnot h.1, if_neg hnot, hcovered]
        rcases ih with ⟨s, ratio, hfound, hlies⟩ | ⟨hnone, hmetres⟩
        · refine .inl ⟨s, ratio, hfound, .inr ?_⟩
          rwa [← hzero, add_zero]
        · exact .inr ⟨hnone, by rw [metres_cons_cons, ← hzero, hmetres, add_zero]⟩
      · have hpos : 0 < Segment.length ⟨v, w⟩ := hpos
        have hstart : clampUnit ((c - c) / Segment.length ⟨v, w⟩) = 0 := by
          rw [sub_self, zero_div]
          exact clampUnit_of_mem (lt_irrefl 0) zero_le_one.not_gt
        rw [if_pos ⟨hpos, le_add_of_nonneg_right hpos.le⟩, hstart]
        exact .inl ⟨_, _, rfl, .inl ⟨0, le_rfl, zero_le_one, by ring, rfl⟩⟩

/-- **Interpolation** gives a position at a fraction of the length of a line. -/
theorem lies_interpolate (hm : Geodesy.IsMetric K) (line : Line K) {fraction : K}
    (h₀ : 0 ≤ fraction) (h₁ : fraction ≤ 1) :
    Lies 0 line (line.metres * fraction) (line.interpolate fraction) := by
  rw [interpolate, clampUnit_of_mem (not_lt.2 h₀) (not_lt.2 h₁), locate]
  have hmetres := metres_nonneg hm line
  have hhigh : line.metres * fraction ≤ 0 + line.metres := by
    rw [zero_add]
    exact mul_le_of_le_one_right hmetres h₁
  rcases (mul_nonneg hmetres h₀).eq_or_lt with hzero | hpos
  · rw [← hzero]
    rcases lies_locateFrom_start hm line 0 with ⟨s, ratio, hfound, hlies⟩ | ⟨hnone, hmetres⟩
    · rw [hfound]
      exact hlies
    · rw [hnone]
      cases line with
      | nil => exact ⟨rfl, rfl⟩
      | cons v rest =>
        cases rest with
        | nil => exact ⟨rfl, rfl⟩
        | cons w rest =>
          -- all segments are without length, and the end of the first one counts
          have hfirst : Geodesy.distance v w = 0 := by
            rw [metres_cons_cons] at hmetres
            exact le_antisymm (by have := metres_nonneg hm (w :: rest); linarith) (hm.nonneg v w)
          exact .inl ⟨1, zero_le_one, le_rfl, by rw [hfirst, mul_zero, add_zero], rfl⟩
  · obtain ⟨s, ratio, hfound, hlies⟩ := lies_locateFrom hm none hpos hhigh
    rw [hfound]
    exact hlies

/-! ### Lines that are joined -/

section Joined

variable {c d : K} {p : Point K} {front rest : Line K}

/-- A position on a line lies on the line that goes on. -/
lemma Lies.append (hm : Geodesy.IsMetric K) (hmeet : front.getLast? = rest.head?)
    (h : Lies c front d p) : Lies c (front ++ rest.tail) d p := by
  induction front generalizing c with
  | nil =>
    obtain rfl := List.head?_eq_none_iff.1 hmeet.symm
    exact h
  | cons u front ih =>
    cases front with
    | nil =>
      rw [h.1, h.2]
      exact lies_head hm c u rest.tail
    | cons w front => exact h.imp_right fun h => ih hmeet h

omit [IsStrictOrderedRing K] in
/-- So does a position on the line with which it goes on. -/
lemma Lies.prepend (hmeet : front.getLast? = rest.head?) (h : Lies (c + metres front) rest d p) :
    Lies c (front ++ rest.tail) d p := by
  induction front generalizing c with
  | nil =>
    obtain rfl := List.head?_eq_none_iff.1 hmeet.symm
    rwa [metres_nil, add_zero] at h
  | cons u front ih =>
    cases front with
    | nil =>
      obtain ⟨more, rfl⟩ := List.head?_eq_some_iff.1 hmeet.symm
      rwa [metres_singleton, add_zero] at h
    | cons w front =>
      rw [metres_cons_cons, ← add_assoc] at h
      exact .inr (ih hmeet h)

omit [LinearOrder K] [IsStrictOrderedRing K] in
/-- The vertices of a line that goes on: the vertex in the middle stands once. -/
lemma stonesFrom_append (hmeet : front.getLast? = rest.head?) :
    stonesFrom c (front ++ rest.tail) =
      stonesFrom c front ++ Route.milestonesFrom (c + metres front) rest.segments := by
  induction front generalizing c with
  | nil =>
    obtain rfl := List.head?_eq_none_iff.1 hmeet.symm
    rfl
  | cons u front ih =>
    cases front with
    | nil =>
      obtain ⟨more, rfl⟩ := List.head?_eq_some_iff.1 hmeet.symm
      rw [metres_singleton, add_zero]
      rfl
    | cons w front =>
      rw [metres_cons_cons, ← add_assoc]
      exact congrArg (List.cons (c, u)) (ih hmeet)

omit [LinearOrder K] [IsStrictOrderedRing K] in
lemma metres_append (hmeet : front.getLast? = rest.head?) :
    metres (front ++ rest.tail) = metres front + metres rest := by
  induction front with
  | nil =>
    obtain rfl := List.head?_eq_none_iff.1 hmeet.symm
    rw [metres_nil, zero_add]
    exact metres_nil
  | cons u front ih =>
    cases front with
    | nil =>
      obtain ⟨more, rfl⟩ := List.head?_eq_some_iff.1 hmeet.symm
      rw [metres_singleton, zero_add]
      rfl
    | cons w front =>
      have hrest : metres (w :: (front ++ rest.tail)) = metres (w :: front) + metres rest := ih hmeet
      rw [List.cons_append, List.cons_append, metres_cons_cons, metres_cons_cons, hrest, add_assoc]

omit [IsStrictOrderedRing K] in
/-- A line is as long the other way round. -/
lemma metres_reverse (hm : Geodesy.IsMetric K) (line : Line K) :
    metres line.reverse = metres line := by
  induction line with
  | nil => rfl
  | cons u line ih =>
    cases line with
    | nil => rfl
    | cons w line =>
      have hmeet : (w :: line).reverse.getLast? = List.head? [w, u] := by
        rw [List.getLast?_reverse, List.head?_cons, List.head?_cons]
      have happend : metres ((w :: line).reverse ++ [u]) = _ := metres_append hmeet
      rw [List.reverse_cons, happend, ih, metres_cons_cons, metres_cons_cons, metres_singleton,
        add_zero, hm.symm w u, add_comm]

omit [LinearOrder K] [IsStrictOrderedRing K] in
/-- What has been covered before counts for each length. -/
lemma milestonesFrom_add (c : K) (covered : K) (segments : List (Segment K)) :
    Route.milestonesFrom (c + covered) segments =
      (Route.milestonesFrom covered segments).map fun stone => (c + stone.1, stone.2) := by
  induction segments generalizing covered with
  | nil => rfl
  | cons s segments ih =>
    rw [Route.milestonesFrom, Route.milestonesFrom, List.map_cons, add_assoc, ih]

omit [IsStrictOrderedRing K] in
lemma Lies.shift (h : Lies c rest d p) (covered : K) : Lies (covered + c) rest (covered + d) p := by
  induction rest generalizing c with
  | nil => exact ⟨congrArg (covered + ·) h.1, h.2⟩
  | cons u rest ih =>
    cases rest with
    | nil => exact ⟨congrArg (covered + ·) h.1, h.2⟩
    | cons w rest =>
      rcases h with ⟨ratio, hratio, hratio', rfl, rfl⟩ | h
      · exact .inl ⟨ratio, hratio, hratio', (add_assoc ..).symm, rfl⟩
      · refine .inr ?_
        rw [add_assoc]
        exact ih h

end Joined

/-! ### Lines that are cut out -/

omit [LinearOrder K] [IsStrictOrderedRing K] in
/-- A line whose vertices are as far apart as their stones say covers the lengths of these. -/
lemma milestonesFrom_of_isChain (departure : K) {stone : K × Point K} {stones : List (K × Point K)}
    (h : (stone :: stones).IsChain fun a b => Geodesy.distance a.2 b.2 = b.1 - a.1) :
    Route.milestonesFrom (stone.1 - departure) (segments ((stone :: stones).map Prod.snd)) =
      stones.map fun s => (s.1 - departure, s.2) := by
  induction stones generalizing stone with
  | nil => rfl
  | cons next stones ih =>
    obtain ⟨hfirst, hrest⟩ := List.isChain_cons_cons.1 h
    have hcovered : stone.1 - departure + Segment.length ⟨stone.2, next.2⟩ =
        next.1 - departure := by
      rw [Segment.length, hfirst]
      ring
    show (stone.1 - departure + Segment.length ⟨stone.2, next.2⟩, next.2) ::
      Route.milestonesFrom (stone.1 - departure + Segment.length ⟨stone.2, next.2⟩)
        (segments ((next :: stones).map Prod.snd)) = _
    rw [hcovered, ih hrest]
    rfl

/-- Vertices of a line from one length to another, in order: all those that are strictly between the
two lengths. Of the vertices at the two lengths themselves any may be left out. -/
structure Shows (c : K) (line : Line K) (departure arrival : K) (shown : List (K × Point K)) :
    Prop where
  inner : ((stonesFrom c line).filter fun s => departure < s.1 ∧ s.1 < arrival).Sublist shown
  outer : shown.Sublist ((stonesFrom c line).filter fun s => departure ≤ s.1 ∧ s.1 ≤ arrival)

omit [IsStrictOrderedRing K] in
lemma Shows.of_mem {c departure arrival : K} {line : Line K} {shown : List (K × Point K)}
    (h : Shows c line departure arrival shown) {s : K × Point K} (hs : s ∈ shown) :
    s ∈ stonesFrom c line ∧ departure ≤ s.1 ∧ s.1 ≤ arrival := by
  simpa using List.mem_filter.1 (h.outer.subset hs)

/-- **A line that is cut out**: a line from a position of another line to a later one, with the
vertices between them, covers the same lengths as the other line does from the one position to the
other. -/
theorem milestonesFrom_cut (hm : Geodesy.IsMetric K) {line : Line K} {c departure arrival : K}
    {p q : Point K} (hp : Lies c line departure p) (hq : Lies c line arrival q)
    (hle : departure ≤ arrival) {shown : List (K × Point K)}
    (h : Shows c line departure arrival shown) :
    Route.milestonesFrom 0 (segments (p :: shown.map Prod.snd ++ [q])) =
      shown.map (fun s => (s.1 - departure, s.2)) ++ [(arrival - departure, q)] := by
  have hmem : ∀ s ∈ stonesFrom c line, departure < s.1 → s.1 < arrival →
      s ∈ (departure, p) :: shown ++ [(arrival, q)] := by
    intro s hs hlow hhigh
    have hs : s ∈ shown := h.inner.subset (List.mem_filter.2 ⟨hs, by simp [hlow, hhigh]⟩)
    simp [hs]
  have hsorted : ((departure, p) :: shown ++ [(arrival, q)]).Pairwise fun a b => a.1 ≤ b.1 := by
    refine List.pairwise_append.2 ⟨List.pairwise_cons.2 ⟨fun s hs => (h.of_mem hs).2.1, ?_⟩,
      List.pairwise_singleton _ _, fun a ha b hb => ?_⟩
    · exact (pairwise_stonesFrom hm c line).sublist (h.outer.trans List.filter_sublist)
    · rw [List.mem_singleton.1 hb]
      rcases List.mem_cons.1 ha with rfl | ha
      · exact hle
      · exact (h.of_mem ha).2.2
  have hall : ∀ s ∈ (departure, p) :: shown ++ [(arrival, q)],
      Lies c line s.1 s.2 ∧ departure ≤ s.1 ∧ s.1 ≤ arrival := by
    intro s hs
    rcases List.mem_append.1 hs with hs | hs
    · rcases List.mem_cons.1 hs with rfl | hs
      · exact ⟨hp, le_rfl, hle⟩
      · exact ⟨lies_of_mem_stonesFrom hm (h.of_mem hs).1, (h.of_mem hs).2⟩
    · rw [List.mem_singleton.1 hs]
      exact ⟨hq, hle, le_rfl⟩
  have hchain : ((departure, p) :: (shown ++ [(arrival, q)])).IsChain
      fun a b => Geodesy.distance a.2 b.2 = b.1 - a.1 := by
    rw [← List.cons_append]
    generalize (departure, p) :: shown ++ [(arrival, q)] = places at hsorted hall hmem
    refine List.isChain_iff_getElem.2 fun i hi => ?_
    rw [List.pairwise_iff_getElem] at hsorted
    obtain ⟨hfirst, hlow, -⟩ := hall places[i] (List.getElem_mem _)
    obtain ⟨hsecond, -, hhigh⟩ := hall places[i + 1] (List.getElem_mem _)
    refine hfirst.distance_eq hm hsecond (hsorted i (i + 1) _ _ (Nat.lt_succ_self i)) fun s hs => ?_
    -- a vertex strictly between would be shown, in front of the first or behind the second
    by_contra hbetween
    rw [not_or, not_le, not_le] at hbetween
    obtain ⟨hbehind, hfront⟩ := hbetween
    obtain ⟨k, hk, rfl⟩ := List.getElem_of_mem
      (hmem s hs (hlow.trans_lt hbehind) (hfront.trans_le hhigh))
    rcases Nat.lt_trichotomy k i with hki | rfl | hki
    · exact absurd hbehind (not_lt.2 (hsorted k i _ _ hki))
    · exact lt_irrefl _ hbehind
    · rcases (Nat.succ_le_of_lt hki).eq_or_lt with rfl | hki
      · exact lt_irrefl _ hfront
      · exact absurd hfront (not_lt.2 (hsorted (i + 1) k _ _ hki))
  have hcut := milestonesFrom_of_isChain departure hchain
  simpa using hcut

omit [LinearOrder K] [IsStrictOrderedRing K] in
/-- The last vertex is at the end of the line. -/
lemma getLast?_stonesFrom {line : Line K} (hne : line ≠ []) (c : K) :
    ∃ p, (stonesFrom c line).getLast? = some (c + metres line, p) := by
  induction line generalizing c with
  | nil => exact absurd rfl hne
  | cons v rest ih =>
    cases rest with
    | nil => exact ⟨v, by rw [metres_singleton, add_zero]; rfl⟩
    | cons w rest =>
      obtain ⟨p, hp⟩ := ih (List.cons_ne_nil w rest) (c + Geodesy.distance v w)
      refine ⟨p, ?_⟩
      rw [stonesFrom_cons_cons, metres_cons_cons, ← add_assoc, ← hp]
      exact List.getLast?_cons_cons

end Line

/-! ### A plane -/

namespace Plane

/-- Metres along the axes of a plane. -/
scoped instance : Geodesy ℚ where
  distance a b := |a.x - b.x| + |a.y - b.y|
  bearing a b := if a.x = b.x then if a.y ≤ b.y then 0 else 180 else if a.x ≤ b.x then 90 else 270
  between a b ratio := ⟨a.x + ratio * (b.x - a.x), a.y + ratio * (b.y - a.y)⟩
  closest s p := ⟨max s.start.x (min p.x s.stop.x), max s.start.y (min p.y s.stop.y)⟩
  envelope p radius := ⟨⟨p.x - radius, p.y - radius⟩, ⟨p.x + radius, p.y + radius⟩⟩
  planar _ _ := 0

/-- Exact numbers, which are never in need of rounding. -/
scoped instance : Analysis ℚ where
  pi := 3
  sqrt x := x
  exp x := x
  nearest x := x
  remainder x _ := x

lemma isMetric : Geodesy.IsMetric ℚ where
  symm a b := congrArg₂ (· + ·) (abs_sub_comm a.x b.x) (abs_sub_comm a.y b.y)
  triangle a b c := by
    show |a.x - c.x| + |a.y - c.y| ≤ |a.x - b.x| + |a.y - b.y| + (|b.x - c.x| + |b.y - c.y|)
    have hx := abs_sub_le a.x b.x c.x
    have hy := abs_sub_le a.y b.y c.y
    linarith
  start a b := by simp [Geodesy.between]
  stop a b := by simp [Geodesy.between]
  along a b s t _ hst _ := by
    have haxis : ∀ u v : ℚ, |u + s * (v - u) - (u + t * (v - u))| = (t - s) * |u - v| := by
      intro u v
      rw [← abs_of_nonneg (sub_nonneg.2 hst), ← abs_mul]
      congr 1
      ring
    show |a.x + s * (b.x - a.x) - (a.x + t * (b.x - a.x))| +
      |a.y + s * (b.y - a.y) - (a.y + t * (b.y - a.y))| = (t - s) * (|a.x - b.x| + |a.y - b.y|)
    rw [haxis, haxis, mul_add]

end Plane

end RoadMatching
