import RoadMatching.Geo.TiledLines
import RoadMatching.Proofs.Road.Hits
import RoadMatching.Proofs.Road.Lines
import RoadMatching.Proofs.Road.Places

/-!
Positions on a line that is travelled the other way round.

From the other end, what has been covered is what remains, and other segments may be found at a
vertex. If distances and the ways between positions are the same from both ends, the positions at a
fraction are the same as well.

* `Geodesy.IsReversible`: the measures are the same from both ends.
* `Segment.reverse`, `Line.segments_reverse`: the segments from the other end.
* `Line.Reaches.reverse`: a position after a length is after the rest of it from the other end.
* `Line.interpolate_reverse`: so the position at a fraction is that at the opposite fraction of the
  reversed line. `RoadPoint.position_on_backward`: the same for the backward road of a street.
* `RoadMap.pointsOf_coincide`: **both positions of a hit** are the same, if its roads are of one
  street. `RoadMap.pointsOf_apart`: they may be of two.
-/

namespace RoadMatching

variable {K : Type} [Field K] [LinearOrder K]

/-- Distances are the same from both ends, and the position at a ratio of the way is the one at the
remaining ratio of the way back. -/
structure Geodesy.IsReversible (K : Type) [Field K] [LinearOrder K] [Geodesy K] : Prop
    extends Geodesy.IsDefinite K where
  symm : ∀ a b : Point K, Geodesy.distance a b = Geodesy.distance b a
  back : ∀ (a b : Point K) (ratio : K), 0 ≤ ratio → ratio ≤ 1 →
    Geodesy.between a b ratio = Geodesy.between b a (1 - ratio)

/-! ### Segments from the other end -/

/-- The segment from its other end. -/
def Segment.reverse (s : Segment K) : Segment K := ⟨s.stop, s.start⟩

omit [Field K] [LinearOrder K] in
/-- The segments of a line that goes on. -/
lemma Line.segments_concat (front : Line K) (v w : Point K) :
    segments (front ++ [v] ++ [w]) = segments (front ++ [v]) ++ [⟨v, w⟩] := by
  induction front with
  | nil => rfl
  | cons u front ih =>
    cases front with
    | nil => rfl
    | cons x front => exact congrArg (⟨u, x⟩ :: ·) ih

omit [Field K] [LinearOrder K] in
/-- The segments of a line from its other end. -/
lemma Line.segments_reverse (line : Line K) :
    segments (List.reverse line) = (line.segments.map Segment.reverse).reverse := by
  induction line with
  | nil => rfl
  | cons v rest ih =>
    cases rest with
    | nil => rfl
    | cons w rest =>
      calc segments (v :: w :: rest).reverse
          = segments (rest.reverse ++ [w]) ++ [⟨w, v⟩] := by
            rw [List.reverse_cons, List.reverse_cons, segments_concat]
        _ = ((segments (w :: rest)).map Segment.reverse).reverse ++ [⟨w, v⟩] := by
            rw [← List.reverse_cons, ih]
        _ = ((⟨v, w⟩ :: segments (w :: rest)).map Segment.reverse).reverse := by
            rw [List.map_cons, List.reverse_cons]
            rfl

variable [Geodesy K]

lemma Segment.length_reverse (h : Geodesy.IsReversible K) (s : Segment K) :
    s.reverse.length = s.length :=
  h.symm s.stop s.start

/-- A position on a segment is after the rest of its length from the other end. -/
lemma Segment.pointAfter_reverse [IsStrictOrderedRing K] (h : Geodesy.IsReversible K)
    {s : Segment K} {x : K} (h₀ : 0 ≤ x) (h₁ : x ≤ s.length) :
    s.reverse.pointAfter (s.length - x) = s.pointAfter x := by
  have hlength := s.length_reverse h
  rcases (h.nonneg s.start s.stop).eq_or_lt with hzero | hpos
  · have hs : s.length = 0 := hzero.symm
    obtain rfl : x = 0 := le_antisymm (hs ▸ h₁) h₀
    rw [hs, sub_zero, pointAfter_zero h.toIsDefinite, pointAfter_zero h.toIsDefinite,
      start_eq_stop h.toIsDefinite hs]
    rfl
  · have hs : 0 < s.length := hpos
    have hratio : (s.length - x) / s.length = 1 - x / s.length := by
      rw [sub_div, div_self hs.ne']
    rw [pointAfter, pointAfter, hlength, hratio]
    exact (h.back s.start s.stop _ (div_nonneg h₀ hs.le) ((div_le_one hs).2 h₁)).symm

namespace Line

/-! ### Lines from the other end -/

lemma covered_reverse (h : Geodesy.IsReversible K) (segments : List (Segment K)) :
    covered (segments.map Segment.reverse).reverse = covered segments := by
  rw [covered, List.map_reverse, List.sum_reverse, List.map_map]
  exact congrArg List.sum (List.map_congr_left fun s _ => s.length_reverse h)

variable [IsStrictOrderedRing K]

/-- A position after a length is, from the other end, after the rest of all lengths. -/
lemma Reaches.reverse (h : Geodesy.IsReversible K) {segments : List (Segment K)} {d : K}
    {p : Point K} (hp : Reaches segments d p) :
    Reaches (segments.map Segment.reverse).reverse (covered segments - d) p := by
  obtain ⟨front, s, back, x, rfl, h₀, h₁, rfl, rfl⟩ := hp
  refine ⟨(back.map Segment.reverse).reverse, s.reverse, (front.map Segment.reverse).reverse,
    s.length - x, by simp, by linarith, ?_, ?_, (Segment.pointAfter_reverse h h₀ h₁).symm⟩
  · rw [s.length_reverse h]
    linarith
  · rw [covered_reverse h, covered_append, covered_cons]
    ring

/-- **From the other end**, the position at a fraction is the one at the opposite fraction. -/
lemma interpolate_reverse (h : Geodesy.IsReversible K) (line : Line K) {fraction : K}
    (h₀ : 0 ≤ fraction) (h₁ : fraction ≤ 1) :
    interpolate line.reverse (1 - fraction) = interpolate line fraction := by
  by_cases hne : line.segments = []
  · -- a line without segments has one point at most, and is its own reverse
    match line, hne with
    | [], _ => rfl
    | [v], _ => rfl
  · have hchain := isChain_segments (List.reverse line)
    have hreversed : segments (List.reverse line) ≠ [] := by
      rw [segments_reverse]
      simpa using hne
    have hthere := (reaches_interpolate h.toIsDefinite hne h₀ h₁).reverse h
    have hback : Reaches (segments (List.reverse line)) (metres (List.reverse line) * (1 - fraction))
        (interpolate line.reverse (1 - fraction)) :=
      reaches_interpolate h.toIsDefinite hreversed (by linarith) (by linarith)
    have hrest : metres (List.reverse line) * (1 - fraction) =
        covered line.segments - line.metres * fraction := by
      rw [metres_eq_covered, metres_eq_covered, segments_reverse, covered_reverse h]
      ring
    rw [hrest] at hback
    rw [← segments_reverse] at hthere
    exact hback.unique h.toIsDefinite hchain hthere

end Line

/-! ### Both directions of a street -/

section Roads

variable [IsStrictOrderedRing K] [Analysis K]

/-- A position on the backward road of a street is the one at the opposite fraction of its line. -/
lemma RoadPoint.position_on_backward (h : Geodesy.IsReversible K) (s : Street K) {fraction : K}
    (h₀ : 0 ≤ fraction) (h₁ : fraction ≤ 1) :
    (RoadPoint.on (⟨s, .backward⟩ : Road K) (1 - fraction)).position =
      s.geometry.interpolate fraction :=
  Line.interpolate_reverse h s.geometry h₀ h₁

/-- **Both positions of a hit**. From the other end of a line, the position at the opposite fraction
is the same. A line of an index of a map is that of a street whose forward road is on the map, and
the line that is hit yields the position of the hit on it. It yields a second one on the road that
has the identifier of the backward road: this is the position at the same fraction of the street of
that road. So both positions are the same, if the roads are of one street. -/
theorem RoadMap.pointsOf_coincide [BEq K] (h : Geodesy.IsReversible K) :
    (∀ (line : Line K) (fraction : K), 0 ≤ fraction → fraction ≤ 1 →
      Line.interpolate line.reverse (1 - fraction) = line.interpolate fraction) ∧
    ∀ {map : RoadMap K} {index : LineIndex K}, map.Made → map.index = some index →
      ∀ l ∈ index.lines, ∀ (p : Point K) (hit : Hit K), hit = LineIndex.hit p l →
        ∃ s : Street K, s.id = hit.id ∧ s.geometry = l.line ∧
          map.road? (Road.idOf hit.id .forward) = some ⟨s, .forward⟩ ∧
          map.pointsOf hit = .on ⟨s, .forward⟩ hit.fraction ::
            ((map.road? (Road.idOf hit.id .backward)).map fun b =>
              .on b (1 - hit.fraction)).toList ∧
          (RoadPoint.on (⟨s, .forward⟩ : Road K) hit.fraction).position =
            s.geometry.interpolate hit.fraction ∧
          ∀ b : Road K, map.road? (Road.idOf hit.id .backward) = some b →
            (RoadPoint.on b (1 - hit.fraction)).position =
                b.street.geometry.interpolate hit.fraction ∧
              (b.street = s → (RoadPoint.on b (1 - hit.fraction)).position =
                (RoadPoint.on (⟨s, .forward⟩ : Road K) hit.fraction).position) := by
  refine ⟨fun line fraction h₀ h₁ => Line.interpolate_reverse h line h₀ h₁, ?_⟩
  rintro map index hmap hindex l hl p _ rfl
  obtain ⟨s, hs, hid, hline, hpoints⟩ := hmap.pointsOf_eq hindex hl p
  refine ⟨s, hid, hline, hs, hpoints, rfl, ?_⟩
  rintro ⟨t, heading⟩ hb
  obtain rfl : heading = .backward := hmap.heading_of_road? hb
  obtain ⟨h₀, h₁⟩ := l.line.intercept_mem p
  have hposition := RoadPoint.position_on_backward h t h₀ h₁
  refine ⟨hposition, ?_⟩
  rintro rfl
  exact hposition

end Roads

/-! ### Streets in a plane -/

namespace Plane

scoped instance : LineTree ℚ := TiledLines.lineTree

lemma isLawful : LineTree.IsLawful ℚ := TiledLines.isLawful_lineTree

lemma isReversible : Geodesy.IsReversible ℚ where
  nonneg a b := add_nonneg (abs_nonneg _) (abs_nonneg _)
  eq_of_distance a b h := by
    obtain ⟨hx, hy⟩ := (add_eq_zero_iff_of_nonneg (abs_nonneg _) (abs_nonneg _)).1 h
    cases a
    cases b
    exact congrArg₂ Point.mk (sub_eq_zero.1 (abs_eq_zero.1 hx)) (sub_eq_zero.1 (abs_eq_zero.1 hy))
  start := isMetric.start
  stop := isMetric.stop
  symm := isMetric.symm
  back a b ratio _ _ := by
    simp only [Geodesy.between, Point.mk.injEq]
    constructor <;> ring

end Plane

namespace Street

open Plane

/-- A line that turns at a vertex that is given twice. -/
def bend : Line ℚ := [⟨0, 0⟩, ⟨60, 0⟩, ⟨60, 0⟩, ⟨60, 20⟩]

/-- The street along it. -/
def bending : Street ℚ := .ofLine 1 0 1 bend

/-- A street that is one-way, elsewhere under the same identifier. -/
def elsewhere : Street ℚ :=
  { ofLine 1 5 6 [⟨0, 500⟩, ⟨60, 500⟩] with oneway := true }

end Street

namespace RoadMap

open Plane Street

/-- The map of the bending street. -/
def streets : RoadMap ℚ := (ofList [bending]).construct

/-- The map after the other street has been added. -/
def replaced : RoadMap ℚ := (ofList [bending, elsewhere]).construct

lemma index_streets : streets.index = some (.ofList [(1, bend)]) := by
  have hlines : streets.lines = [(1, bend)] := by decide +kernel
  exact congrArg _ (congrArg _ hlines)

/-- The index holds the line of the street added last. -/
lemma index_replaced : replaced.index = some (.ofList [(1, elsewhere.geometry)]) := by
  have hlines : replaced.lines = [(1, elsewhere.geometry)] := by decide +kernel
  exact congrArg _ (congrArg _ hlines)

/-- What is closest to a position beside the turn lies at the turn, on both roads of the street. -/
theorem pointsOf_coincide_bending :
    Geodesy.IsReversible ℚ ∧ streets.Made ∧
      Line.interpolate bend.reverse (1 - 3 / 4) = bend.interpolate (3 / 4) ∧
      bend.intercept ⟨70, -5⟩ = 3 / 4 ∧ bend.interpolate (3 / 4) = ⟨60, 0⟩ ∧
      (RoadPoint.on ⟨bending, .backward⟩ (1 - bend.intercept ⟨70, -5⟩)).position =
        (RoadPoint.on ⟨bending, .forward⟩ (bend.intercept ⟨70, -5⟩)).position := by
  have hmade : streets.Made := .construct (made_ofList _)
  have hforward : streets.road? 2 = some ⟨bending, .forward⟩ := by with_unfolding_all rfl
  have hbackward : streets.road? 3 = some ⟨bending, .backward⟩ := by with_unfolding_all rfl
  obtain ⟨hreverse, hroads⟩ := RoadMap.pointsOf_coincide isReversible
  obtain ⟨s, -, -, hs, -, -, hcoincide⟩ := hroads hmade index_streets
    (LineIndex.indexed 1 bend) List.mem_cons_self ⟨70, -5⟩ _ rfl
  obtain rfl : bending = s := congrArg Road.street (Option.some.inj (hforward.symm.trans hs))
  exact ⟨isReversible, hmade, hreverse bend (3 / 4) (by norm_num) (by norm_num),
    by decide +kernel, by decide +kernel, (hcoincide _ hbackward).2 rfl⟩

/-- After a street has been replaced by a one-way street elsewhere, a hit of this one has a second
position, which is on the backward road of the other. -/
theorem pointsOf_apart :
    replaced.Made ∧ replaced.index = some (.ofList [(1, elsewhere.geometry)]) ∧
      (replaced.pointsOf (LineIndex.hit ⟨30, 510⟩ (LineIndex.indexed 1 elsewhere.geometry))).map
        (fun p => (p.spot, p.position)) =
          [(⟨2, 1 / 2⟩, ⟨30, 500⟩), (⟨3, 1 / 2⟩, ⟨40, 0⟩)] :=
  ⟨.construct (made_ofList _), index_replaced, by decide +kernel⟩

end RoadMap

end RoadMatching
