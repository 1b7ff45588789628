import RoadMatching.Proofs.Routing.Changes
import RoadMatching.Proofs.Routing.Frontier
import RoadMatching.Proofs.Routing.Soundness

/-!
Paths in a row, and paths that are cut.

A path is continued by another one in two ways. The other one starts at the very position where the
path ends, and the edge they share stands once. Or the path ends at the end of its edge and the
other one starts at the start of an edge that leaves this vertex, and both edges stand.

* `append?_eq_some_iff`: the two ways; `isValid_append_tail` and `isValid_append_edges` are about one
  each. `isValid_append`, `cost_append`: in both the paths make a valid path, whose cost is the sum
  of theirs.
* `extend`: a path that is continued in place. `extend_eq`: it is `append?`, and where that has no
  answer the path is left as it was.
* `upTo`, `onward`: the two parts of a path that is cut, each valid; `Passes`: where it can be cut.
* `IsContiguous`, `Rounds`: a path that continues another, and one that goes round the loop again on
  which that one has come to the end. `append?_eq_none_iff`: of those that continue another, only
  these are refused.
* `cut_rejoined`: **the parts make the path again**, unless it is cut between two rounds of a loop.
* `loop_not_rejoined`: the parts of a path twice around a loop.
-/

namespace RoadMatching

/-! ### Answers in place -/

section Answers

variable {β : Type} {answer : Option β} {before after : β}

/-- A value that takes an answer, and says so, is the answer. -/
lemma answered_iff :
    (answer.isSome, answer.getD before) = (true, after) ↔ answer = some after := by
  cases answer <;> simp

/-- A value that takes no answer, and says so, is as it was. -/
lemma unanswered_iff :
    (answer.isSome, answer.getD before) = (false, after) ↔ answer = none ∧ after = before := by
  cases answer <;> simp [eq_comm]

end Answers

namespace Path

variable {α K : Type} {g : Graph α}

/-- Where the links have been computed, an edge is linked to all edges that leave the vertex where
it ends. -/
lemma isSuccessor_of_adjacent (hg : g.Built) (hlinks : g.links.isSome = true) {a b : Int}
    (h : adjacent g a b = true) : g.isSuccessor a b = true := by
  obtain ⟨e, f, ha, hb, hvertex⟩ := adjacent_iff.1 h
  obtain ⟨i, he, hi⟩ := (Graph.get?_eq_some_iff hg.distinct).1 ha
  obtain ⟨j, hf, hj⟩ := (Graph.get?_eq_some_iff hg.distinct).1 hb
  refine (Graph.isSuccessor_iff hg.distinct).2 ⟨i, j, ?_, ?_, ?_⟩
  · exact (Graph.indexOf?_eq_some_iff hg.distinct).2 ⟨e, he, hi⟩
  · exact (((hg.isCurrent hlinks).successors i e he).2 j).2 ⟨f, hf, hvertex.symm⟩
  · exact (Graph.indexOf?_eq_some_iff hg.distinct).2 ⟨f, hf, hj⟩

variable [Field K] [LinearOrder K] [BEq K] [LawfulBEq K] {p q after : Path K}

/-! ### Joining paths -/

omit [LinearOrder K] in
/-- A path is continued at the position where it ends, or on an edge behind the end of its own. -/
lemma append?_eq_some_iff :
    p.append? g q = some after ↔
      (p.target = q.source ∧ after = ⟨p.source, q.target, p.edges ++ q.edges.tail⟩) ∨
        (p.target.edge ≠ q.source.edge ∧ adjacent g p.target.edge q.source.edge = true ∧
          p.target.fraction = 1 ∧ q.source.fraction = 0 ∧
          after = ⟨p.source, q.target, p.edges ++ q.edges⟩) := by
  have hspot : p.target = q.source ↔
      p.target.edge = q.source.edge ∧ p.target.fraction = q.source.fraction := by
    rw [Spot.mk.injEq]
  rw [append?, hspot]
  split
  · next hedge => simp [hedge, @eq_comm _ _ after]
  · next hedge => simp [hedge, and_assoc, @eq_comm _ _ after]

omit [LinearOrder K] in
/-- Paths in a row lead from the source of the first to the target of the second. -/
lemma ends_append (h : p.append? g q = some after) :
    after.source = p.source ∧ after.target = q.target := by
  rcases append?_eq_some_iff.1 h with ⟨-, rfl⟩ | ⟨-, -, -, -, rfl⟩ <;> exact ⟨rfl, rfl⟩

section Edges

omit [Field K] [LinearOrder K] [BEq K] [LawfulBEq K]
variable [LT K] [DecidableLT K]

/-- The edges of a valid path are its first one and the others. -/
lemma edges_eq_cons (hq : q.isValid g = true) : q.edges = q.source.edge :: q.edges.tail :=
  List.eq_cons_of_mem_head? (isValid_iff.1 hq).1

lemma edges_ne_nil (hq : q.isValid g = true) : q.edges ≠ [] := by
  rw [edges_eq_cons hq]
  exact List.cons_ne_nil _ _

end Edges

omit [Field K] [BEq K] [LawfulBEq K] in
/-- Valid paths in a row are valid if the edge they share stands once. -/
lemma isValid_append_tail (hp : p.isValid g = true) (hq : q.isValid g = true)
    (hspot : p.target = q.source) :
    isValid g ⟨p.source, q.target, p.edges ++ q.edges.tail⟩ = true := by
  obtain ⟨hphead, hplast, hpahead, hplinks⟩ := isValid_iff.1 hp
  obtain ⟨hqhead, hqlast, hqahead, hqlinks⟩ := isValid_iff.1 hq
  refine isValid_iff.2 ⟨?_, ?_, fun hlength => ?_, ?_⟩
  · rw [List.head?_append_of_ne_nil _ (edges_ne_nil hp), hphead]
  · rw [getLast?_append_tail (by rw [hplast, hqhead, hspot]), hqlast]
  · -- on a single edge both paths run forwards, and so do they in a row
    have hsingle : p.edges.length = 1 ∧ q.edges.length = 1 := by
      have hplength := List.length_pos_iff.2 (edges_ne_nil hp)
      have hqlength := List.length_pos_iff.2 (edges_ne_nil hq)
      rw [List.length_append, List.length_tail] at hlength
      omega
    refine not_lt.2 ?_
    calc p.source.fraction
        ≤ p.target.fraction := not_lt.1 (hpahead hsingle.1)
      _ = q.source.fraction := by rw [hspot]
      _ ≤ q.target.fraction := not_lt.1 (hqahead hsingle.2)
  · refine List.isChain_append.2 ⟨hplinks, hqlinks.tail, fun a ha b hb => ?_⟩
    obtain rfl : p.target.edge = a := Option.some.inj (hplast.symm.trans ha)
    rw [edges_eq_cons hq, ← hspot] at hqlinks
    exact hqlinks.rel_head? hb

omit [Field K] [BEq K] [LawfulBEq K] in
/-- Valid paths in a row are valid if the second one starts on a successor of the first one's last
edge. -/
lemma isValid_append_edges (hp : p.isValid g = true) (hq : q.isValid g = true)
    (hlink : g.isSuccessor p.target.edge q.source.edge = true) :
    isValid g ⟨p.source, q.target, p.edges ++ q.edges⟩ = true := by
  obtain ⟨hphead, hplast, -, hplinks⟩ := isValid_iff.1 hp
  obtain ⟨hqhead, hqlast, -, hqlinks⟩ := isValid_iff.1 hq
  refine isValid_iff.2 ⟨?_, ?_, fun hlength => ?_, ?_⟩
  · rw [List.head?_append_of_ne_nil _ (edges_ne_nil hp), hphead]
  · rw [List.getLast?_append_of_ne_nil _ (edges_ne_nil hq), hqlast]
  · have hplength := List.length_pos_iff.2 (edges_ne_nil hp)
    have hqlength := List.length_pos_iff.2 (edges_ne_nil hq)
    rw [List.length_append] at hlength
    omega
  · refine List.isChain_append.2 ⟨hplinks, hqlinks, fun a ha b hb => ?_⟩
    obtain rfl : p.target.edge = a := Option.some.inj (hplast.symm.trans ha)
    obtain rfl : q.source.edge = b := Option.some.inj (hqhead.symm.trans hb)
    exact hlink

/-- **Paths in a row are a path**: its links are there if all links have been computed. -/
lemma isValid_append (hg : g.Built) (hlinks : g.links.isSome = true) (hp : p.isValid g = true)
    (hq : q.isValid g = true) (h : p.append? g q = some after) : after.isValid g = true := by
  rcases append?_eq_some_iff.1 h with ⟨hspot, rfl⟩ | ⟨-, hadjacent, -, -, rfl⟩
  · exact isValid_append_tail hp hq hspot
  · exact isValid_append_edges hp hq (isSuccessor_of_adjacent hg hlinks hadjacent)

/-- **Paths in a row cost as much as both of them**: what is left of the first one's last edge is
what the second one begins with, or there is nothing left of it. -/
lemma cost_append (hp : p.isValid g = true) (hq : q.isValid g = true)
    (h : p.append? g q = some after) {cost : Cost α K} (hnone : ∀ label, cost.part label 0 = 0)
    (hfull : ∀ label, cost.part label 1 = cost.full label) :
    after.cost g cost = p.cost g cost + q.cost g cost := by
  have hpne := edges_ne_nil hp
  rcases append?_eq_some_iff.1 h with ⟨hspot, rfl⟩ | ⟨-, hadjacent, htarget, hsource, rfl⟩
  · calc remainder g cost p.source + fullCost g cost (p.edges ++ q.edges.tail).tail -
          remainder g cost q.target
        = remainder g cost p.source +
            (fullCost g cost p.edges.tail + fullCost g cost q.edges.tail) -
          remainder g cost q.target := by
          rw [List.tail_append_of_ne_nil hpne, fullCost_append]
      _ = p.cost g cost + q.cost g cost := by
          rw [Path.cost, Path.cost, hspot]
          ring
  · obtain ⟨e, f, he, hf, -⟩ := adjacent_iff.1 hadjacent
    have hend : remainder g cost p.target = 0 := by
      rw [remainder, he, htarget, sub_self]
      exact hnone _
    have hstart : remainder g cost q.source = cost.full f.label := by
      rw [remainder, hf, hsource, sub_zero]
      exact hfull _
    have hedges : fullCost g cost q.edges = cost.full f.label + fullCost g cost q.edges.tail := by
      rw [edges_eq_cons hq, fullCost, total_eq_sum, List.filterMap_cons_some hf, List.map_cons,
        List.sum_cons, ← total_eq_sum]
      rfl
    calc remainder g cost p.source + fullCost g cost (p.edges ++ q.edges).tail -
          remainder g cost q.target
        = remainder g cost p.source + (fullCost g cost p.edges.tail + fullCost g cost q.edges) -
          remainder g cost q.target := by
          rw [List.tail_append_of_ne_nil hpne, fullCost_append]
      _ = p.cost g cost + q.cost g cost := by
          rw [Path.cost, Path.cost, hend, hstart, hedges]
          ring

/-! ### Joining in place -/

/-- Continues a path in place by another one, and says whether this one goes on where it ends. -/
def extend (g : Graph α) (q : Path K) : StateM (Path K) Bool := do
  let p ← get
  if p.target.edge = q.source.edge then
    if p.target.fraction != q.source.fraction then
      return false
    modify fun p => { p with edges := p.edges ++ q.edges.tail }
  else
    if !(adjacent g p.target.edge q.source.edge && p.target.fraction == 1 &&
        q.source.fraction == 0) then
      return false
    modify fun p => { p with edges := p.edges ++ q.edges }
  modify fun p => { p with target := q.target }
  return true

omit [LinearOrder K] [LawfulBEq K] in
/-- In place, a path becomes what `append?` gives, or stays as it is. -/
lemma extend_eq (p q : Path K) :
    (extend g q).run p = ((p.append? g q).isSome, (p.append? g q).getD p) := by
  rw [append?]
  show (if p.target.edge = q.source.edge then _ else _ : StateM (Path K) Bool).run p = _
  split
  · cases hfraction : p.target.fraction == q.source.fraction <;> simp only [bne, hfraction] <;> rfl
  · cases adjacent g p.target.edge q.source.edge && p.target.fraction == 1 &&
      q.source.fraction == 0 <;> rfl

/-! ### Cutting paths -/

/-- The path up to a position on its edge at an index. -/
def upTo (p : Path K) (i : Nat) (spot : Spot K) : Path K := ⟨p.source, spot, p.edges.take (i + 1)⟩

/-- The path on from a position on its edge at an index. -/
def onward (p : Path K) (i : Nat) (spot : Spot K) : Path K := ⟨spot, p.target, p.edges.drop i⟩

/-- The path passes a position on its edge at an index: on its first edge the position is not in
front of the source, and on its last one not behind the target. -/
structure Passes (p : Path K) (i : Nat) (spot : Spot K) : Prop where
  edge : p.edges[i]? = some spot.edge
  isOnEdge : spot.IsOnEdge
  source : i = 0 → p.source.fraction ≤ spot.fraction
  target : i + 1 = p.edges.length → spot.fraction ≤ p.target.fraction

/-- One path continues another: it starts where that one ends, or at the start of an edge that
leaves the vertex at which that one ends. -/
def IsContiguous (g : Graph α) (p q : Path K) : Prop :=
  p.target = q.source ∨
    p.target.fraction = 1 ∧ q.source.fraction = 0 ∧
      ∃ e f, g.get? p.target.edge = some e ∧ g.get? q.source.edge = some f ∧ e.target = f.source

/-- One path ends where a loop does, and another one starts on the same loop. -/
structure Rounds (g : Graph α) (p q : Path K) : Prop where
  edge : p.target.edge = q.source.edge
  loop : ∃ e, g.get? p.target.edge = some e ∧ e.target = e.source
  stop : p.target.fraction = 1
  start : q.source.fraction = 0

omit [LinearOrder K] in
/-- Of the paths that continue each other, those are not accepted that go round a loop twice. -/
lemma append?_eq_none_iff (h : p.IsContiguous g q) : p.append? g q = none ↔ p.Rounds g q := by
  rw [Option.eq_none_iff_forall_ne_some]
  constructor
  · intro hnone
    rcases h with hspot | ⟨hstop, hstart, e, f, he, hf, hvertex⟩
    · exact absurd (append?_eq_some_iff.2 (.inl ⟨hspot, rfl⟩)) (hnone _)
    · by_cases hedge : p.target.edge = q.source.edge
      · rw [hedge, hf, Option.some.injEq] at he
        exact ⟨hedge, ⟨f, hedge ▸ hf, by rw [← hvertex, he]⟩, hstop, hstart⟩
      · have hadjacent := adjacent_iff.2 ⟨e, f, he, hf, hvertex⟩
        exact absurd (append?_eq_some_iff.2 (.inr ⟨hedge, hadjacent, hstop, hstart, rfl⟩)) (hnone _)
  · intro hrounds after hsome
    rcases append?_eq_some_iff.1 hsome with ⟨hspot, -⟩ | ⟨hedge, -⟩
    · have hfraction := congrArg Spot.fraction hspot
      rw [hrounds.stop, hrounds.start] at hfraction
      exact one_ne_zero hfraction
    · exact hedge hrounds.edge

omit [Field K] [BEq K] [LawfulBEq K] in
/-- The first part of a path that is cut is valid. -/
lemma isValid_upTo (hp : p.isValid g = true) {i : Nat} {spot : Spot K}
    (hedge : p.edges[i]? = some spot.edge) (hsource : i = 0 → p.source.fraction ≤ spot.fraction) :
    (p.upTo i spot).isValid g = true := by
  obtain ⟨hhead, -, -, hlinks⟩ := isValid_iff.1 hp
  obtain ⟨hi, -⟩ := List.getElem?_eq_some_iff.1 hedge
  refine isValid_iff.2 ⟨?_, ?_, fun hlen => not_lt.2 (hsource ?_), hlinks.take _⟩
  · rw [upTo, List.head?_take, if_neg i.succ_ne_zero, hhead]
  · rw [upTo, List.getLast?_take, if_neg i.succ_ne_zero, Nat.add_sub_cancel, hedge, Option.some_or]
  · rw [upTo, List.length_take] at hlen
    omega

omit [Field K] [BEq K] [LawfulBEq K] in
/-- The second part of a path that is cut is valid. -/
lemma isValid_onward (hp : p.isValid g = true) {i : Nat} {spot : Spot K}
    (hedge : p.edges[i]? = some spot.edge)
    (htarget : i + 1 = p.edges.length → spot.fraction ≤ p.target.fraction) :
    (p.onward i spot).isValid g = true := by
  obtain ⟨-, hlast, -, hlinks⟩ := isValid_iff.1 hp
  obtain ⟨hi, -⟩ := List.getElem?_eq_some_iff.1 hedge
  refine isValid_iff.2 ⟨?_, ?_, fun hlen => not_lt.2 (htarget ?_), hlinks.drop _⟩
  · rw [onward, List.head?_drop, hedge]
  · rw [onward, List.getLast?_drop, if_neg (by omega), hlast]
  · rw [onward, List.length_drop] at hlen
    omega

omit [LawfulBEq K] [BEq K] in
/-- Where a path is cut between two of its edges, the second part continues the first one. -/
lemma isContiguous_cut (hg : g.Built) (hp : p.isValid g = true) {i : Nat} {a b : Int}
    (ha : p.edges[i]? = some a) (hb : p.edges[i + 1]? = some b) :
    (p.upTo i ⟨a, 1⟩).IsContiguous g (p.onward (i + 1) ⟨b, 0⟩) := by
  obtain ⟨-, -, -, hlinks⟩ := isValid_iff.1 hp
  obtain ⟨hi, rfl⟩ := List.getElem?_eq_some_iff.1 ha
  obtain ⟨hnext, rfl⟩ := List.getElem?_eq_some_iff.1 hb
  have hlink := List.isChain_iff_getElem.1 hlinks i hnext
  exact .inr ⟨rfl, rfl, adjacent_iff.1 (adjacent_of_isSuccessor hg hlink)⟩

/-- **The parts of a path make the path again**. A valid path that is cut at a position it passes
has two valid parts, and so has one that is cut between two of its edges, the first part ending at
the end of the one edge and the second one starting at the start of the other. The first part
continued by the second is the path, unless it is cut between two rounds of a loop: there the second
part is not accepted. Of all paths that continue each other, those that go round a loop twice are
the only ones that are not accepted. -/
theorem cut_rejoined (hg : g.Built) (hp : p.isValid g = true) (hsource : p.source.IsOnEdge)
    (htarget : p.target.IsOnEdge) :
    (∀ i spot, p.Passes i spot →
      (p.upTo i spot).isValid g = true ∧ (p.onward i spot).isValid g = true ∧
        (p.upTo i spot).append? g (p.onward i spot) = some p) ∧
    (∀ i a b, p.edges[i]? = some a → p.edges[i + 1]? = some b →
      (p.upTo i ⟨a, 1⟩).isValid g = true ∧ (p.onward (i + 1) ⟨b, 0⟩).isValid g = true ∧
        (p.upTo i ⟨a, 1⟩).append? g (p.onward (i + 1) ⟨b, 0⟩) = if a = b then none else some p) ∧
    ∀ first second : Path K, first.IsContiguous g second →
      (first.append? g second = none ↔ first.Rounds g second) := by
  refine ⟨fun i spot h => ⟨isValid_upTo hp h.edge h.source, isValid_onward hp h.edge h.target, ?_⟩,
    fun i a b ha hb => ⟨isValid_upTo hp ha fun _ => hsource.2,
      isValid_onward hp hb fun _ => htarget.1, ?_⟩, fun _ _ => append?_eq_none_iff⟩
  · refine append?_eq_some_iff.2 (.inl ⟨rfl, ?_⟩)
    rw [upTo, onward, List.tail_drop, List.take_append_drop]
  · have hcontiguous := isContiguous_cut hg hp ha hb
    obtain ⟨-, -, e, f, he, hf, hvertex⟩ := hcontiguous.resolve_left fun hspot =>
      one_ne_zero (congrArg Spot.fraction hspot)
    split
    · next hloop =>
      subst hloop
      obtain rfl : e = f := Option.some.inj (he.symm.trans hf)
      exact (append?_eq_none_iff hcontiguous).2 ⟨rfl, ⟨e, he, hvertex⟩, rfl, rfl⟩
    · next hne =>
      have hadjacent := adjacent_iff.2 ⟨e, f, he, hf, hvertex⟩
      refine append?_eq_some_iff.2 (.inr ⟨hne, hadjacent, rfl, rfl, ?_⟩)
      rw [upTo, onward, List.take_append_drop]

/-! ### A loop -/

/-- A street from one crossing to another, a street back, and a loop at the first crossing. -/
def circuit : Graph ℚ :=
  (Graph.ofList [⟨1, 0, 1, 10⟩, ⟨2, 1, 0, 20⟩, ⟨3, 0, 0, 5⟩]).construct

/-- There and back, twice around the loop, and on. -/
def tour : Path ℚ := ⟨⟨1, 1 / 2⟩, ⟨1, 1 / 4⟩, [1, 2, 3, 3, 1]⟩

/-- Twice around the loop. -/
def twice : Path ℚ := ⟨⟨3, 1 / 2⟩, ⟨3, 1 / 4⟩, [3, 3]⟩

/-- Cut on the way back, at the other crossing or on the second round, the tour is made again. Cut
between the rounds it is not. -/
theorem cut_rejoined_tour :
    tour.isValid circuit = true ∧ tour.source.IsOnEdge ∧ tour.target.IsOnEdge ∧
      tour.Passes 1 ⟨2, 1 / 3⟩ ∧
      (tour.upTo 1 ⟨2, 1 / 3⟩).append? circuit (tour.onward 1 ⟨2, 1 / 3⟩) = some tour ∧
      tour.Passes 3 ⟨3, 0⟩ ∧
      (tour.upTo 3 ⟨3, 0⟩).append? circuit (tour.onward 3 ⟨3, 0⟩) = some tour ∧
      (tour.upTo 0 ⟨1, 1⟩).append? circuit (tour.onward 1 ⟨2, 0⟩) = some tour ∧
      (tour.upTo 2 ⟨3, 1⟩).append? circuit (tour.onward 3 ⟨3, 0⟩) = none := by
  have hvalid : tour.isValid circuit = true := by decide +kernel
  have hsource : tour.source.IsOnEdge := ⟨by decide +kernel, by decide +kernel⟩
  have htarget : tour.target.IsOnEdge := ⟨by decide +kernel, by decide +kernel⟩
  have hback : tour.Passes 1 ⟨2, 1 / 3⟩ :=
    ⟨rfl, ⟨by decide +kernel, by decide +kernel⟩, by decide, by decide⟩
  have hround : tour.Passes 3 ⟨3, 0⟩ :=
    ⟨rfl, ⟨by decide +kernel, by decide +kernel⟩, by decide, by decide⟩
  have hbuilt : circuit.Built := (Graph.Built.ofList _).construct
  obtain ⟨hwithin, hbetween, -⟩ := cut_rejoined hbuilt hvalid hsource htarget
  obtain ⟨-, -, hcrossing⟩ := hbetween 0 1 2 rfl rfl
  obtain ⟨-, -, hrounds⟩ := hbetween 2 3 3 rfl rfl
  exact ⟨hvalid, hsource, htarget, hback, (hwithin 1 _ hback).2.2, hround, (hwithin 3 _ hround).2.2,
    hcrossing, hrounds⟩

/-- A path that goes round a loop twice is lost when it is cut at the end of the first round: its
parts are valid, and the second starts on an edge that leaves the vertex where the first one ends,
but it is not accepted. -/
theorem loop_not_rejoined :
    circuit.isConstructed = true ∧ twice.isValid circuit = true ∧
      (twice.upTo 0 ⟨3, 1⟩).isValid circuit = true ∧
      (twice.onward 1 ⟨3, 0⟩).isValid circuit = true ∧
      (twice.upTo 0 ⟨3, 1⟩).IsContiguous circuit (twice.onward 1 ⟨3, 0⟩) ∧
      (twice.upTo 0 ⟨3, 1⟩).append? circuit (twice.onward 1 ⟨3, 0⟩) = none := by
  have hloop : circuit.get? 3 = some ⟨3, 0, 0, 5⟩ := by decide +kernel
  exact ⟨by decide +kernel, by decide +kernel, by decide +kernel, by decide +kernel,
    .inr ⟨rfl, rfl, _, _, hloop, hloop, rfl⟩, by decide +kernel⟩

end Path

end RoadMatching
