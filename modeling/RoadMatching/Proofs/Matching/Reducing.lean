import Mathlib.Tactic
import RoadMatching.Matching.Reduction

/-!
What a reduction keeps.

A position is dropped if others stand for it, and those may be dropped in turn. So the positions can
all be lost, in two ways: an end has nothing behind it on which a position could be missing, or the
positions stand for each other all the way around a loop of roads.

* `mem_reduce_iff`: with one position on each road, the reduction keeps those that are not dropped;
  `startDropped_iff` and `endDropped_iff` say which these are by the positions there are.
* `exists_stuck_or_loop`: going on within a list, one is stuck or comes back.
* `Joined`: a road with a position leads into another one, both positions being at the same side.
* `reduce_lost`: **the positions lost**. All of them are lost only where a position is at the end of
  a road that leads nowhere, or where roads with all positions at their starts, or all at their
  ends, form a loop. A position without others around it is kept unless its road leads into itself
  or nowhere.
* `reduce_dead_end`: the position at the end of a road that leads nowhere is lost.
* `mem_reduce_of_subset`: what is kept among many is kept among fewer. By this `reduce_unordered`:
  **the reduction has no order and comes to rest**.
-/

namespace RoadMatching

/-- Going from item to item of a list, one is stuck at one of them, or comes back to one. -/
lemma exists_stuck_or_loop {β : Type} (r : β → β → Prop) {l : List β} (hne : l ≠ []) :
    (∃ a ∈ l, ∀ b ∈ l, ¬ r a b) ∨
      ∃ a ∈ l, Relation.TransGen (fun a b => a ∈ l ∧ b ∈ l ∧ r a b) a a := by
  by_contra hcon
  rw [not_or, not_exists, not_exists] at hcon
  obtain ⟨hstuck, hloop⟩ := hcon
  -- without a loop, being reached is a strict order of the items, and the last one is stuck
  have hirrefl : Std.Irrefl fun a b : {a // a ∈ l} =>
      Relation.TransGen (fun a b => a ∈ l ∧ b ∈ l ∧ r a b) b.1 a.1 :=
    ⟨fun a h => hloop a.1 ⟨a.2, h⟩⟩
  have htrans : IsTrans {a // a ∈ l} fun a b =>
      Relation.TransGen (fun a b => a ∈ l ∧ b ∈ l ∧ r a b) b.1 a.1 :=
    ⟨fun _ _ _ hab hbc => hbc.trans hab⟩
  have hfinite : Finite {a // a ∈ l} := l.finite_toSet.to_subtype
  obtain ⟨first, hfirst⟩ := List.exists_mem_of_ne_nil l hne
  obtain ⟨last, -, hlast⟩ := (Finite.wellFounded_of_trans_of_irrefl fun a b : {a // a ∈ l} =>
    Relation.TransGen (fun a b => a ∈ l ∧ b ∈ l ∧ r a b) b.1 a.1).has_min Set.univ
      ⟨⟨first, hfirst⟩, trivial⟩
  refine hstuck last.1 ⟨last.2, fun b hb hr => ?_⟩
  exact hlast ⟨b, hb⟩ trivial (.single ⟨last.2, hb, hr⟩)

namespace Reduction

section Positions

variable {K : Type} {points : List (RoadPoint K)} {p : RoadPoint K}

/-! ### One position on each road -/

/-- The position on the road of a position is that one. -/
lemma on?_of_mem (hroads : (points.map RoadPoint.road).Nodup) (hp : p ∈ points) :
    on? points p.road = some p := by
  obtain ⟨q, hq⟩ : ∃ q, on? points p.road = some q :=
    Option.isSome_iff_exists.1 (List.find?_isSome.2 ⟨p, List.mem_reverse.2 hp, by simp⟩)
  have hmem : q ∈ points := List.mem_reverse.1 (List.mem_of_find?_eq_some hq)
  have hroad : q.road = p.road := by simpa using List.find?_some hq
  rw [hq, List.inj_on_of_nodup_map hroads hmem hp hroad]

lemma of_on? {road : Int} (h : on? points road = some p) : p ∈ points ∧ p.road = road :=
  ⟨List.mem_reverse.1 (List.mem_of_find?_eq_some h), by simpa using List.find?_some h⟩

/-- Where there is one position on each road, it is the first. -/
lemma firstOnEach_eq (hroads : (points.map RoadPoint.road).Nodup) :
    firstOnEach points = points := by
  induction points with
  | nil => rfl
  | cons p rest ih =>
    rw [List.map_cons, List.nodup_cons] at hroads
    rw [firstOnEach, ih hroads.2, List.filter_eq_self.2]
    intro q hq
    exact bne_iff_ne.2 fun heq => hroads.1 (heq ▸ List.mem_map_of_mem hq)

variable [Analysis K] [NatCast K] [Zero K] [One K] [Mul K] [Div K] [BEq K]
variable {graph : Graph (Road K)}

/-- The reduction keeps the positions that are not dropped. -/
lemma mem_reduce_iff (hroads : (points.map RoadPoint.road).Nodup) :
    p ∈ reduce graph points ↔ p ∈ points ∧ ¬ startDropped graph points p.road = true ∧
      ¬ endDropped graph points p.road = true := by
  rw [reduce, firstOnEach_eq (hroads.sublist (List.filter_sublist.map _)), List.mem_filter]
  simp

omit [One K] in
/-- A start is dropped if a road with a position leads to it. -/
lemma startDropped_iff (hroads : (points.map RoadPoint.road).Nodup) (hp : p ∈ points) :
    startDropped graph points p.road = true ↔
      isStart p = true ∧ ∃ q ∈ points, graph.isSuccessor q.road p.road = true := by
  simp [startDropped, on?_of_mem hroads hp]

/-- An end is dropped if all roads that lead on have positions further on. -/
lemma endDropped_iff (hroads : (points.map RoadPoint.road).Nodup) (hp : p ∈ points) :
    endDropped graph points p.road = true ↔
      isEnd p = true ∧ ∀ e ∈ graph.successors p.road,
        ∃ q ∈ points, q.road = e.id ∧ isStart q = false := by
  have hmissing : ∀ road, isMissing points road = false ↔
      ∃ q ∈ points, q.road = road ∧ isStart q = false := by
    intro road
    rw [isMissing]
    constructor
    · intro h
      split at h
      · next q hq =>
        obtain ⟨hmem, hroad⟩ := of_on? hq
        exact ⟨q, hmem, hroad, h⟩
      · cases h
    · rintro ⟨q, hq, rfl, hstart⟩
      rw [on?_of_mem hroads hq]
      exact hstart
  have hend : (points.any fun q => q.road == p.road && isEnd q) = true ↔ isEnd p = true := by
    rw [List.any_eq_true]
    constructor
    · rintro ⟨q, hq, h⟩
      rw [Bool.and_eq_true, beq_iff_eq] at h
      exact List.inj_on_of_nodup_map hroads hq hp h.1 ▸ h.2
    · intro h
      exact ⟨p, hp, by simp [h]⟩
  rw [endDropped, Bool.and_eq_true, hend, Bool.not_eq_true', List.any_eq_false]
  simp only [Bool.not_eq_true, hmissing]

/-! ### Losing all positions -/

/-- The road of one position leads into that of the other, both positions being at one side. -/
def Joined (graph : Graph (Road K)) (points : List (RoadPoint K)) (side : RoadPoint K → Bool)
    (p q : RoadPoint K) : Prop :=
  (p ∈ points ∧ side p = true) ∧ (q ∈ points ∧ side q = true) ∧
    graph.isSuccessor p.road q.road = true

/-- No other position is on a road that leads into the road of a position, or out of it. -/
def IsIsolated (graph : Graph (Road K)) (points : List (RoadPoint K)) (p : RoadPoint K) : Prop :=
  ∀ q ∈ points, q.road ≠ p.road →
    graph.isSuccessor q.road p.road = false ∧ graph.isSuccessor p.road q.road = false

omit [One K] in
/-- If all positions are dropped as starts, some of them are on a loop. -/
lemma exists_loop_of_starts (hroads : (points.map RoadPoint.road).Nodup) (hne : points ≠ [])
    (hall : ∀ p ∈ points, startDropped graph points p.road = true) :
    ∃ p, Relation.TransGen (Joined graph points isStart) p p := by
  rcases exists_stuck_or_loop (fun p q => graph.isSuccessor q.road p.road = true) hne with
    ⟨p, hp, hstuck⟩ | ⟨p, -, hloop⟩
  · obtain ⟨-, q, hq, hsucc⟩ := (startDropped_iff hroads hp).1 (hall p hp)
    exact absurd hsucc (hstuck q hq)
  · have hstart : ∀ q ∈ points, isStart q = true := fun q hq =>
      ((startDropped_iff hroads hq).1 (hall q hq)).1
    have hjoined : ∀ a b, a ∈ points ∧ b ∈ points ∧ graph.isSuccessor b.road a.road = true →
        Joined graph points isStart b a := fun a b ⟨ha, hb, hsucc⟩ =>
      ⟨⟨hb, hstart b hb⟩, ⟨ha, hstart a ha⟩, hsucc⟩
    exact ⟨p, Relation.transGen_swap.1 (Relation.TransGen.mono hjoined p p hloop)⟩

/-- If all positions are dropped, one of them as an end, then one is at the end of a road that leads
nowhere, or some of them are on a loop. -/
lemma exists_loop_of_ends (hroads : (points.map RoadPoint.road).Nodup)
    (hall : ∀ p ∈ points, startDropped graph points p.road = true ∨
      endDropped graph points p.road = true)
    (hends : ∃ p ∈ points, endDropped graph points p.road = true) :
    (∃ p ∈ points, isEnd p = true ∧ graph.successors p.road = []) ∨
      ∃ p, Relation.TransGen (Joined graph points isEnd) p p := by
  obtain ⟨p₀, hp₀, hend₀⟩ := hends
  have hne : (points.filter fun p => endDropped graph points p.road) ≠ [] :=
    List.ne_nil_of_mem (List.mem_filter.2 ⟨hp₀, hend₀⟩)
  rcases exists_stuck_or_loop (fun p q => graph.isSuccessor p.road q.road = true) hne with
    ⟨p, hp, hstuck⟩ | ⟨p, -, hloop⟩
  · obtain ⟨hmem, hdropped⟩ := List.mem_filter.1 hp
    obtain ⟨hend, hahead⟩ := (endDropped_iff hroads hmem).1 hdropped
    refine .inl ⟨p, hmem, hend, List.eq_nil_iff_forall_not_mem.2 fun e he => ?_⟩
    -- a position further on is not at a start, so it is dropped as an end, and the way goes on
    obtain ⟨q, hq, hroad, hstart⟩ := hahead e he
    have hdropped : endDropped graph points q.road = true := by
      refine (hall q hq).resolve_left fun h => ?_
      rw [((startDropped_iff hroads hq).1 h).1] at hstart
      cases hstart
    refine hstuck q (List.mem_filter.2 ⟨hq, hdropped⟩) ?_
    exact List.any_eq_true.2 ⟨e, he, beq_iff_eq.2 hroad.symm⟩
  · have hend : ∀ q ∈ points.filter (fun p => endDropped graph points p.road),
        q ∈ points ∧ isEnd q = true := by
      intro q hq
      obtain ⟨hmem, hdropped⟩ := List.mem_filter.1 hq
      exact ⟨hmem, ((endDropped_iff hroads hmem).1 hdropped).1⟩
    exact .inr ⟨p, Relation.TransGen.mono
      (fun a b ⟨ha, hb, hsucc⟩ => ⟨hend a ha, hend b hb, hsucc⟩) p p hloop⟩

/-- A position without others around it is dropped only if its road leads into itself or nowhere. -/
lemma IsIsolated.mem_reduce_iff (hroads : (points.map RoadPoint.road).Nodup) (hp : p ∈ points)
    (h : IsIsolated graph points p) :
    p ∈ reduce graph points ↔
      ¬ (isStart p = true ∧ graph.isSuccessor p.road p.road = true) ∧
        ¬ (isEnd p = true ∧ ∀ e ∈ graph.successors p.road, e.id = p.road) := by
  have hstart : startDropped graph points p.road = true ↔
      isStart p = true ∧ graph.isSuccessor p.road p.road = true := by
    rw [startDropped_iff hroads hp]
    refine and_congr_right fun _ => ⟨?_, fun hself => ⟨p, hp, hself⟩⟩
    rintro ⟨q, hq, hsucc⟩
    by_cases hroad : q.road = p.road
    · rwa [hroad] at hsucc
    · rw [(h q hq hroad).1] at hsucc
      cases hsucc
  rw [Reduction.mem_reduce_iff hroads, hstart, endDropped_iff hroads hp]
  refine (and_iff_right hp).trans (and_congr_right fun hloop => not_congr
    (and_congr_right fun _ => forall₂_congr fun e he => ?_))
  constructor
  · rintro ⟨q, hq, hroad, -⟩
    have hsucc : graph.isSuccessor p.road q.road = true :=
      List.any_eq_true.2 ⟨e, he, beq_iff_eq.2 hroad.symm⟩
    by_contra hne
    rw [(h q hq (hroad ▸ hne)).2] at hsucc
    cases hsucc
  · intro hself
    have hsucc : graph.isSuccessor p.road p.road = true :=
      List.any_eq_true.2 ⟨e, he, beq_iff_eq.2 hself⟩
    exact ⟨p, hp, hself.symm, by simpa [hsucc] using hloop⟩

/-- **The positions lost**: with one position on each road, all of them are lost only where one is
at the end of a road that leads nowhere, or where roads with all positions at their starts, or all
at their ends, form a loop. A position without others on the roads into its road and out of it is
kept unless it is at the start of a road that leads into itself, or at the end of one that leads
nowhere else. -/
theorem reduce_lost (hroads : (points.map RoadPoint.road).Nodup) (hne : points ≠ []) :
    (reduce graph points = [] →
      (∃ p ∈ points, isEnd p = true ∧ graph.successors p.road = []) ∨
        (∃ p, Relation.TransGen (Joined graph points isStart) p p) ∨
        ∃ p, Relation.TransGen (Joined graph points isEnd) p p) ∧
      ∀ p ∈ points, IsIsolated graph points p →
        (p ∈ reduce graph points ↔
          ¬ (isStart p = true ∧ graph.isSuccessor p.road p.road = true) ∧
            ¬ (isEnd p = true ∧ ∀ e ∈ graph.successors p.road, e.id = p.road)) := by
  refine ⟨fun hempty => ?_, fun p hp h => h.mem_reduce_iff hroads hp⟩
  have hall : ∀ p ∈ points, startDropped graph points p.road = true ∨
      endDropped graph points p.road = true := by
    intro p hp
    by_contra hkept
    rw [not_or] at hkept
    have hmem := (mem_reduce_iff hroads).2 ⟨hp, hkept⟩
    rw [hempty] at hmem
    cases hmem
  by_cases hends : ∃ p ∈ points, endDropped graph points p.road = true
  · rcases exists_loop_of_ends hroads hall hends with hend | hloop
    · exact .inl hend
    · exact .inr (.inr hloop)
  · refine .inr (.inl (exists_loop_of_starts hroads hne fun p hp => ?_))
    exact (hall p hp).resolve_right fun h => hends ⟨p, hp, h⟩

/-! ### Order and repetition -/

omit [NatCast K] [Zero K] [One K] [Mul K] [Div K] [BEq K] [Analysis K] in
/-- The first position on each road is one of the positions, and they keep their order. -/
lemma firstOnEach_sublist (points : List (RoadPoint K)) : (firstOnEach points).Sublist points := by
  induction points with
  | nil => exact .slnil
  | cons p rest ih => exact (List.filter_sublist.trans ih).cons_cons p

/-- The positions that are kept are some of the positions, in their order. -/
lemma reduce_sublist (graph : Graph (Road K)) (points : List (RoadPoint K)) :
    (reduce graph points).Sublist points :=
  (firstOnEach_sublist _).trans List.filter_sublist

/-- A position that is kept is also kept among fewer positions, for there is less to stand for
it. -/
lemma mem_reduce_of_subset {others : List (RoadPoint K)}
    (hroads : (points.map RoadPoint.road).Nodup) (hothers : (others.map RoadPoint.road).Nodup)
    (hsubset : others ⊆ points) (hp : p ∈ others) (hkept : p ∈ reduce graph points) :
    p ∈ reduce graph others := by
  obtain ⟨hmem, hstart, hend⟩ := (mem_reduce_iff hroads).1 hkept
  refine (mem_reduce_iff hothers).2 ⟨hp, ?_, ?_⟩
  · rw [startDropped_iff hothers hp]
    rintro ⟨hside, q, hq, hsucc⟩
    exact hstart ((startDropped_iff hroads hmem).2 ⟨hside, q, hsubset hq, hsucc⟩)
  · rw [endDropped_iff hothers hp]
    rintro ⟨hside, hahead⟩
    refine hend ((endDropped_iff hroads hmem).2 ⟨hside, fun e he => ?_⟩)
    obtain ⟨q, hq, hahead⟩ := hahead e he
    exact ⟨q, hsubset hq, hahead⟩

/-- **The reduction has no order and comes to rest**. With one position on each road, the same
positions are kept in whatever order they are given, and they come in that order. Reduced again,
they are all kept. -/
theorem reduce_unordered (hroads : (points.map RoadPoint.road).Nodup) :
    (∀ others : List (RoadPoint K), others.Perm points →
      (reduce graph others).Perm (reduce graph points) ∧ (reduce graph others).Sublist others) ∧
    reduce graph (reduce graph points) = reduce graph points := by
  have hkept := reduce_sublist graph points
  refine ⟨fun others hperm => ⟨?_, reduce_sublist graph others⟩, ?_⟩
  · have hothers : (others.map RoadPoint.road).Nodup := (hperm.map _).nodup_iff.2 hroads
    refine (List.perm_ext_iff_of_nodup ((reduce_sublist graph others).nodup (.of_map _ hothers))
      (hkept.nodup (.of_map _ hroads))).2 fun p => ⟨fun hp => ?_, fun hp => ?_⟩
    · have hmem := (reduce_sublist graph others).subset hp
      exact mem_reduce_of_subset hothers hroads hperm.symm.subset (hperm.subset hmem) hp
    · have hmem := hkept.subset hp
      exact mem_reduce_of_subset hroads hothers hperm.subset (hperm.symm.subset hmem) hp
  · have hall : reduce graph points ⊆ reduce graph (reduce graph points) := fun p hp =>
      mem_reduce_of_subset hroads (hroads.sublist (hkept.map _)) hkept.subset hp hp
    have hnodup : (reduce graph points).Nodup := hkept.nodup (.of_map _ hroads)
    exact (reduce_sublist graph _).eq_of_length_le (hnodup.subperm hall).length_le

end Positions

/-! ### Two streets -/

namespace Outskirts

/-- Exact numbers, which are rounded but not measured. -/
scoped instance : Analysis ℚ where
  pi := 3
  sqrt x := x
  exp x := x
  nearest x := if x < 0 then -Rat.floor (1 / 2 - x) else Rat.floor (x + 1 / 2)
  remainder x _ := x

/-- A one-way street. -/
def street (id source target : Int) : Street ℚ where
  id := id
  refid := id
  source := source
  target := target
  oneway := true
  category := 0
  priority := 1
  speedForward := 50
  speedBackward := 50
  length := 100
  geometry := []

/-- A street, and one behind it that leads nowhere. -/
def roads : Graph (Road ℚ) := (RoadMap.ofList [street 1 0 1, street 2 1 2]).construct.graph

/-- The position at the end of a road. -/
def endOf (road : Int) : RoadPoint ℚ := ⟨⟨road, 1⟩, ⟨0, 0⟩, 0⟩

/-- The position at the start of a road. -/
def startOf (road : Int) : RoadPoint ℚ := ⟨⟨road, 0⟩, ⟨0, 0⟩, 0⟩

lemma isIsolated_endOf (road : Int) : IsIsolated roads [endOf road] (endOf road) :=
  fun _ hq hne => absurd (congrArg RoadPoint.road (List.mem_singleton.1 hq)) hne

end Outskirts

open Outskirts in
/-- Alone at the end of the first street, a position is kept for want of one on the second. -/
theorem reduce_lost_first :
    ([endOf 2].map RoadPoint.road).Nodup ∧ IsIsolated roads [endOf 2] (endOf 2) ∧
      isEnd (endOf 2) = true ∧ endOf 2 ∈ reduce roads [endOf 2] := by
  have hnodup : ([endOf 2].map RoadPoint.road).Nodup := by decide
  have hkept : endOf 2 ∈ reduce roads [endOf 2] ↔ _ :=
    (reduce_lost hnodup (List.cons_ne_nil _ _)).2 _ List.mem_cons_self (isIsolated_endOf 2)
  refine ⟨hnodup, isIsolated_endOf 2, by decide +kernel, hkept.2 ⟨?_, ?_⟩⟩
  · decide +kernel
  · decide +kernel

open Outskirts in
/-- Alone at the end of the second street, it is lost. -/
theorem reduce_dead_end :
    roads.isConstructed = true ∧ ([endOf 4].map RoadPoint.road).Nodup ∧ (endOf 4).fraction = 1 ∧
      IsIsolated roads [endOf 4] (endOf 4) ∧ reduce roads [endOf 4] = [] :=
  ⟨by decide +kernel, by decide, rfl, isIsolated_endOf 4, List.isEmpty_iff.1 (by decide +kernel)⟩

open Outskirts in
/-- Of the end of the first street and the start of the second, the end is kept, whichever is given
first, and is kept again. -/
theorem reduce_unordered_streets :
    ([endOf 2, startOf 4].map RoadPoint.road).Nodup ∧
      (reduce roads [endOf 2, startOf 4]).map RoadPoint.road = [2] ∧
      (reduce roads [startOf 4, endOf 2]).Perm (reduce roads [endOf 2, startOf 4]) ∧
      (reduce roads [startOf 4, endOf 2]).Sublist [startOf 4, endOf 2] ∧
      reduce roads (reduce roads [endOf 2, startOf 4]) = reduce roads [endOf 2, startOf 4] := by
  have hnodup : ([endOf 2, startOf 4].map RoadPoint.road).Nodup := by decide
  obtain ⟨horder, hagain⟩ : _ ∧ reduce roads (reduce roads _) = _ := reduce_unordered hnodup
  obtain ⟨hperm, hsublist⟩ := horder [startOf 4, endOf 2] (.swap _ _ _)
  exact ⟨hnodup, by decide +kernel, hperm, hsublist, hagain⟩

end Reduction

end RoadMatching
