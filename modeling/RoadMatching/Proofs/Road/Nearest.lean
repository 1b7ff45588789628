import Mathlib.Tactic
import RoadMatching.Geo.TiledLines
import RoadMatching.Proofs.Road.Hits

/-!
The lines that an index finds closest to a position.

An index visits its lines by their distances in the plane of the coordinates, and measures the
leading ones on the ground. The closest of these need not be the closest of all: a degree of
longitude is shorter than one of latitude, so a line that is farther away in the plane may be closer
on the ground.

* `closestOf`: the hits that are as close as any. `gather_closestOf`: gathering one more hit keeps
  them, so what is gathered from a list are its closest hits (`foldl_gather`).
* `leading`, `trailing`: the lines that are measured, and the others. `le_length_asNear`: in planar
  order a trailing line has eight others that are as near in the plane.
* `FindsClosest`: whether the closest lines of all are found, and no others; `findsClosest_iff` says
  when.
* `nearest_leading`: **what is found** are the closest of the leading lines. A closest line is among
  them if fewer than eight others are as near in the plane.
* `Graticule.nearest_misses`: where a degree of longitude is half as long as one of latitude, the
  closest lines are missed behind eight others.
-/

namespace RoadMatching

namespace LineIndex

variable {K : Type} [LinearOrder K]

/-! ### The closest hits -/

/-- The hits that are as close as any, in their order. -/
def closestOf (hits : List (Hit K)) : List (Hit K) :=
  hits.filter fun h => hits.all fun other => decide (h.distance ≤ other.distance)

lemma mem_closestOf {hits : List (Hit K)} {h : Hit K} :
    h ∈ closestOf hits ↔ h ∈ hits ∧ ∀ other ∈ hits, h.distance ≤ other.distance := by
  simp [closestOf]

/-- Among some hits there is a closest one. -/
lemma exists_mem_closestOf {hits : List (Hit K)} (hne : hits ≠ []) : ∃ h, h ∈ closestOf hits := by
  obtain ⟨first, hfirst⟩ := List.exists_mem_of_ne_nil hits hne
  obtain ⟨h, hmem, hle⟩ :=
    Set.exists_min_image {h | h ∈ hits} Hit.distance hits.finite_toSet ⟨first, hfirst⟩
  exact ⟨h, mem_closestOf.2 ⟨hmem, hle⟩⟩

/-- With another hit, those remain that are not farther away, and the other one counts if it is not
farther away than any. -/
lemma closestOf_concat (hits : List (Hit K)) (h : Hit K) :
    closestOf (hits ++ [h]) =
      ((closestOf hits).filter fun x => decide (x.distance ≤ h.distance)) ++
        if ∀ other ∈ hits, h.distance ≤ other.distance then [h] else [] := by
  rw [closestOf, closestOf, List.filter_append, List.filter_filter]
  congr 1
  · refine List.filter_congr fun x _ => ?_
    rw [List.all_append, Bool.and_comm]
    simp
  · simp [List.filter_cons]

/-- **One more hit**: gathered to the closest hits, it yields the closest ones with it. -/
lemma gather_closestOf (hits : List (Hit K)) (h : Hit K) :
    gather (closestOf hits) h = closestOf (hits ++ [h]) := by
  rcases eq_or_ne hits [] with rfl | hne
  · simp [closestOf, gather]
  obtain ⟨first, rest, hclosest⟩ : ∃ first rest, closestOf hits = first :: rest := by
    obtain ⟨x, hx⟩ := exists_mem_closestOf hne
    exact List.exists_cons_of_ne_nil (List.ne_nil_of_mem hx)
  have hfirst : first ∈ hits ∧ ∀ other ∈ hits, first.distance ≤ other.distance :=
    mem_closestOf.1 (hclosest ▸ List.mem_cons_self)
  have hsame : ∀ x ∈ closestOf hits, x.distance = first.distance := fun x hx =>
    le_antisymm ((mem_closestOf.1 hx).2 first hfirst.1) (hfirst.2 x (mem_closestOf.1 hx).1)
  have hgather : gather (closestOf hits) h =
      if first.distance < h.distance then closestOf hits
      else if h.distance < first.distance then [h] else closestOf hits ++ [h] := by
    rw [gather, hclosest]
    rfl
  rw [hgather, closestOf_concat]
  split
  · next hfar =>
    have hnot : ¬ ∀ other ∈ hits, h.distance ≤ other.distance := fun hall =>
      hfar.not_ge (hall first hfirst.1)
    rw [if_neg hnot, List.append_nil, List.filter_eq_self.2]
    exact fun x hx => decide_eq_true ((hsame x hx).trans_le hfar.le)
  · next hnear =>
    have hall : ∀ other ∈ hits, h.distance ≤ other.distance := fun other ho =>
      (not_lt.1 hnear).trans (hfirst.2 other ho)
    rw [if_pos hall]
    split
    · next hcloser =>
      rw [List.filter_eq_nil_iff.2, List.nil_append]
      intro x hx
      rw [decide_eq_true_eq, hsame x hx, not_le]
      exact hcloser
    · next hfarther =>
      rw [List.filter_eq_self.2]
      exact fun x hx => decide_eq_true ((hsame x hx).trans_le (not_lt.1 hfarther))

/-- **What is gathered** from a list are its closest hits. -/
theorem foldl_gather (hits : List (Hit K)) : hits.foldl gather [] = closestOf hits := by
  induction hits using List.reverseRecOn with
  | nil => rfl
  | append_singleton hits h ih => rw [List.foldl_concat, ih, gather_closestOf]

/-! ### Lines in planar order -/

section Planar

variable [LineTree K] {index : LineIndex K} {p : Point K}

/-- The lines that are measured on the ground, in planar order. -/
def leading (index : LineIndex K) (p : Point K) : List (IndexedLine K) :=
  (index.byPlanarDistance p).take 8

/-- The lines that are not. -/
def trailing (index : LineIndex K) (p : Point K) : List (IndexedLine K) :=
  (index.byPlanarDistance p).drop 8

omit [LinearOrder K] in
lemma leading_append_trailing (index : LineIndex K) (p : Point K) :
    index.leading p ++ index.trailing p = index.byPlanarDistance p :=
  List.take_append_drop 8 _

lemma mem_lines_iff (htree : LineTree.IsLawful K) {l : IndexedLine K} :
    l ∈ index.lines ↔ l ∈ index.leading p ∨ l ∈ index.trailing p := by
  rw [← (htree.nearestFirst index p).mem_iff, ← byPlanarDistance, ← leading_append_trailing,
    List.mem_append]

/-- Lines with distinct identifiers are visited once. -/
lemma nodup_byPlanarDistance (htree : LineTree.IsLawful K)
    (hids : (index.lines.map IndexedLine.id).Nodup) (p : Point K) :
    ((index.byPlanarDistance p).map IndexedLine.id).Nodup :=
  ((htree.nearestFirst index p).map IndexedLine.id).nodup_iff.2 hids

lemma id_ne_of_leading (htree : LineTree.IsLawful K)
    (hids : (index.lines.map IndexedLine.id).Nodup) {l m : IndexedLine K}
    (hl : l ∈ index.leading p) (hm : m ∈ index.trailing p) : l.id ≠ m.id := by
  have hnodup := nodup_byPlanarDistance htree hids p
  rw [← leading_append_trailing, List.map_append, List.nodup_append] at hnodup
  exact hnodup.2.2 _ (List.mem_map_of_mem hl) _ (List.mem_map_of_mem hm)

variable [Geodesy K] [Mul K]

/-- The other lines that are not farther away in the plane. -/
def asNear (index : LineIndex K) (p : Point K) (l : IndexedLine K) : List (IndexedLine K) :=
  index.lines.filter fun m => m.id ≠ l.id ∧ planarSquare p m ≤ planarSquare p l

/-- In planar order a trailing line has at least eight others as near in the plane. -/
lemma le_length_asNear (htree : LineTree.IsLawful K)
    (hids : (index.lines.map IndexedLine.id).Nodup)
    (hsorted : (index.byPlanarDistance p).Pairwise fun l m => planarSquare p l ≤ planarSquare p m)
    {l : IndexedLine K} (hl : l ∈ index.trailing p) : 8 ≤ (index.asNear p l).length := by
  rw [← leading_append_trailing, List.pairwise_append] at hsorted
  have hlength : (index.leading p).length = 8 := by
    have hpos := List.length_pos_of_mem hl
    rw [trailing, List.length_drop] at hpos
    rw [leading, List.length_take]
    omega
  have hkept : (index.leading p).filter
      (fun m => m.id ≠ l.id ∧ planarSquare p m ≤ planarSquare p l) = index.leading p := by
    refine List.filter_eq_self.2 fun m hm => decide_eq_true ?_
    exact ⟨id_ne_of_leading htree hids hm hl, hsorted.2.2 m hm l hl⟩
  rw [asNear, ← ((htree.nearestFirst index p).filter _).length_eq, ← byPlanarDistance,
    ← leading_append_trailing, List.filter_append, hkept, List.length_append, hlength]
  exact Nat.le_add_right _ _

end Planar

/-! ### The closest lines -/

variable [Geodesy K] [Zero K] [One K] [Add K] [Sub K] [Mul K] [Div K] [Neg K] [BEq K] [LineTree K]
  {index : LineIndex K} {p : Point K}

/-- Whether a line is as close to a position as any. -/
def IsClosest (index : LineIndex K) (p : Point K) (l : IndexedLine K) : Prop :=
  l ∈ index.lines ∧ ∀ m ∈ index.lines, (hit p l).distance ≤ (hit p m).distance

/-- Whether the hits of the closest lines are found, and no others. -/
def FindsClosest (index : LineIndex K) (p : Point K) : Prop :=
  ∀ found, found ∈ index.nearest p ↔ ∃ l, index.IsClosest p l ∧ hit p l = found

lemma nearest_eq_closestOf (index : LineIndex K) (p : Point K) :
    index.nearest p = closestOf ((index.leading p).map (hit p)) :=
  foldl_gather _

lemma mem_nearest {found : Hit K} :
    found ∈ index.nearest p ↔ ∃ l ∈ index.leading p, hit p l = found ∧
      ∀ m ∈ index.leading p, (hit p l).distance ≤ (hit p m).distance := by
  rw [nearest_eq_closestOf, mem_closestOf]
  constructor
  · rintro ⟨hfound, hle⟩
    obtain ⟨l, hl, rfl⟩ := List.mem_map.1 hfound
    exact ⟨l, hl, rfl, fun m hm => hle _ (List.mem_map_of_mem hm)⟩
  · rintro ⟨l, hl, rfl, hle⟩
    exact ⟨List.mem_map_of_mem hl, List.forall_mem_map.2 hle⟩

/-- The closest lines are found, and no others, exactly if every line behind the leading ones is
farther away than one of these. -/
lemma findsClosest_iff (htree : LineTree.IsLawful K)
    (hids : (index.lines.map IndexedLine.id).Nodup) :
    index.FindsClosest p ↔ ∀ m ∈ index.trailing p, ∃ l ∈ index.leading p,
      (hit p l).distance < (hit p m).distance := by
  constructor
  · intro hfinds m hm
    by_contra hnone
    push Not at hnone
    -- the closest one of the trailing lines is then as close as any line
    obtain ⟨l, hl, hle⟩ := Set.exists_min_image {x | x ∈ index.trailing p}
      (fun x => (hit p x).distance) (List.finite_toSet _) ⟨m, hm⟩
    have hclosest : index.IsClosest p l := by
      refine ⟨(mem_lines_iff htree).2 (.inr hl), fun x hx => ?_⟩
      rcases (mem_lines_iff htree).1 hx with hx | hx
      · exact (hle m hm).trans (hnone x hx)
      · exact hle x hx
    obtain ⟨x, hx, hhit, -⟩ := mem_nearest.1 ((hfinds _).2 ⟨l, hclosest, rfl⟩)
    exact id_ne_of_leading htree hids hx hl (congrArg Hit.id hhit)
  · intro hfar found
    rw [mem_nearest]
    constructor
    · rintro ⟨l, hl, rfl, hle⟩
      refine ⟨l, ⟨(mem_lines_iff htree).2 (.inl hl), fun m hm => ?_⟩, rfl⟩
      rcases (mem_lines_iff htree).1 hm with hm | hm
      · exact hle m hm
      · obtain ⟨x, hx, hlt⟩ := hfar m hm
        exact (hle x hx).trans hlt.le
    · rintro ⟨l, ⟨hl, hle⟩, rfl⟩
      rcases (mem_lines_iff htree).1 hl with hl | hl
      · exact ⟨l, hl, rfl, fun m hm => hle m ((mem_lines_iff htree).2 (.inl hm))⟩
      · obtain ⟨x, hx, hlt⟩ := hfar l hl
        exact absurd (hle x ((mem_lines_iff htree).2 (.inl hx))) (not_le.2 hlt)

/-- **What is found**: the closest of the leading lines in their order, each line once. They are the
closest of all lines exactly if every line behind the leading ones is farther away than one of these.
If lines are visited in planar order, then a closest line that has fewer than eight others as near in
the plane is found. -/
theorem nearest_leading (htree : LineTree.IsLawful K)
    (hids : (index.lines.map IndexedLine.id).Nodup) (p : Point K) :
    index.nearest p = closestOf ((index.leading p).map (hit p)) ∧
      ((index.nearest p).map Hit.id).Nodup ∧
      (index.FindsClosest p ↔ ∀ m ∈ index.trailing p, ∃ l ∈ index.leading p,
        (hit p l).distance < (hit p m).distance) ∧
      (((index.byPlanarDistance p).Pairwise fun l m => planarSquare p l ≤ planarSquare p m) →
        ∀ l, index.IsClosest p l → (index.asNear p l).length < 8 → hit p l ∈ index.nearest p) := by
  refine ⟨nearest_eq_closestOf index p, ?_, findsClosest_iff htree hids, ?_⟩
  · have hleading : ((index.leading p).map IndexedLine.id).Nodup :=
      (nodup_byPlanarDistance htree hids p).sublist ((List.take_sublist _ _).map _)
    rw [nearest_eq_closestOf]
    refine .sublist (List.filter_sublist.map Hit.id) ?_
    rw [List.map_map]
    exact hleading
  · rintro hsorted l ⟨hl, hle⟩ hfew
    have hleading : l ∈ index.leading p :=
      ((mem_lines_iff htree).1 hl).resolve_right fun htrailing =>
        (le_length_asNear htree hids hsorted htrailing).not_gt hfew
    exact mem_nearest.2 ⟨l, hleading, rfl, fun m hm => hle m ((mem_lines_iff htree).2 (.inl hm))⟩

end LineIndex

/-! ### Along parallels and meridians -/

namespace Graticule

/-- Where a degree of longitude is half as long as one of latitude. -/
scoped instance : Geodesy ℚ where
  distance a b := |a.x - b.x| / 2 + |a.y - b.y|
  bearing a b := if a.x = b.x then if a.y ≤ b.y then 0 else 180 else if a.x ≤ b.x then 90 else 270
  between a b ratio := ⟨a.x + ratio * (b.x - a.x), a.y + ratio * (b.y - a.y)⟩
  closest s p := ⟨max s.start.x (min p.x s.stop.x), max s.start.y (min p.y s.stop.y)⟩
  envelope p radius := ⟨⟨p.x - 2 * radius, p.y - radius⟩, ⟨p.x + 2 * radius, p.y + radius⟩⟩
  planar p line :=
    ((line.segments.map fun s =>
      |max s.start.x (min p.x s.stop.x) - p.x| +
        |max s.start.y (min p.y s.stop.y) - p.y|).min?).getD 0

scoped instance : LineTree ℚ := TiledLines.lineTree

lemma isLawful : LineTree.IsLawful ℚ := TiledLines.isLawful_lineTree

/-- A street along a parallel. -/
def parallel (y : ℚ) : Line ℚ := [⟨-2, y⟩, ⟨2, y⟩]

/-- A street along a meridian. -/
def meridian (x : ℚ) : Line ℚ := [⟨x, -2⟩, ⟨x, 2⟩]

/-- Streets along eight parallels, and along the meridians on either side. -/
def streets (x : ℚ) : LineIndex ℚ :=
  ([(1, parallel 10), (2, parallel (-10)), (3, parallel 11), (4, parallel (-11)),
    (5, parallel 12), (6, parallel (-12)), (7, parallel 13), (8, parallel (-13)),
    (9, meridian x), (10, meridian (-x))] : List (Int × Line ℚ)).foldl
      (fun index entry => (index.insert? entry.1 entry.2).getD index) .empty

open LineIndex

/-- Between two meridians that are as near in the plane as some parallels, both are found. -/
theorem nearest_leading_meridians :
    ((streets 11).lines.map IndexedLine.id).Nodup ∧
      ((streets 11).byPlanarDistance ⟨0, 0⟩).Pairwise
        (fun l m => planarSquare ⟨0, 0⟩ l ≤ planarSquare ⟨0, 0⟩ m) ∧
      (streets 11).nearest ⟨0, 0⟩ = [⟨9, 1 / 2, 11 / 2⟩, ⟨10, 1 / 2, 11 / 2⟩] ∧
      (streets 11).FindsClosest ⟨0, 0⟩ ∧
      ∃ l, (streets 11).IsClosest ⟨0, 0⟩ l ∧ ((streets 11).asNear ⟨0, 0⟩ l).length = 5 ∧
        hit ⟨0, 0⟩ l ∈ (streets 11).nearest ⟨0, 0⟩ := by
  have hids : ((streets 11).lines.map IndexedLine.id).Nodup := by decide +kernel
  have hsorted : ((streets 11).byPlanarDistance ⟨0, 0⟩).Pairwise
      (fun l m => planarSquare ⟨0, 0⟩ l ≤ planarSquare ⟨0, 0⟩ m) := by decide +kernel
  obtain ⟨l, hl, hle, hfew⟩ : ∃ l ∈ (streets 11).lines,
      (∀ m ∈ (streets 11).lines, (hit ⟨0, 0⟩ l).distance ≤ (hit ⟨0, 0⟩ m).distance) ∧
        ((streets 11).asNear ⟨0, 0⟩ l).length = 5 := by
    decide +kernel
  obtain ⟨-, -, hfinds, hnear⟩ := nearest_leading isLawful hids ⟨0, 0⟩
  refine ⟨hids, hsorted, by decide +kernel, hfinds.2 (by decide +kernel), l, ⟨hl, hle⟩, hfew, ?_⟩
  exact hnear hsorted l ⟨hl, hle⟩ (by omega)

/-- Between two meridians that are farther away in the plane than eight parallels these are found,
though the meridians are closer on the ground. -/
theorem nearest_misses :
    ((streets 15).lines.map IndexedLine.id).Nodup ∧
      ((streets 15).byPlanarDistance ⟨0, 0⟩).Pairwise
        (fun l m => planarSquare ⟨0, 0⟩ l ≤ planarSquare ⟨0, 0⟩ m) ∧
      (streets 15).nearest ⟨0, 0⟩ = [⟨1, 1 / 2, 10⟩, ⟨2, 1 / 2, 10⟩] ∧
      ¬ (streets 15).FindsClosest ⟨0, 0⟩ := by
  have hnearest : (streets 15).nearest ⟨0, 0⟩ = [⟨1, 1 / 2, 10⟩, ⟨2, 1 / 2, 10⟩] := by
    decide +kernel
  obtain ⟨l, hl, hle, hid⟩ : ∃ l ∈ (streets 15).lines,
      (∀ m ∈ (streets 15).lines, (hit ⟨0, 0⟩ l).distance ≤ (hit ⟨0, 0⟩ m).distance) ∧
        l.id = 9 := by
    decide +kernel
  refine ⟨by decide +kernel, by decide +kernel, hnearest, fun hfinds => ?_⟩
  have hfound : hit ⟨0, 0⟩ l ∈ (streets 15).nearest ⟨0, 0⟩ :=
    (hfinds _).2 ⟨l, ⟨hl, hle⟩, rfl⟩
  have hnine : (hit ⟨0, 0⟩ l).id = 9 := hid
  rw [hnearest] at hfound
  rcases List.mem_pair.1 hfound with h | h
  · rw [h] at hnine
    cases hnine
  · rw [h] at hnine
    cases hnine

end Graticule

end RoadMatching
