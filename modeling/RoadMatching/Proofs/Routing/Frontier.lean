import RoadMatching.Proofs.Routing.Queue
import RoadMatching.Proofs.Routing.Trace

/-!
The frontier of a search with fair costs.

Labels are taken in the order of their costs, and a label never waits for a cheaper one than the
last taken. An edge keeps the label by which it was first entered: no later one is cheaper, since it
costs at least what was taken last and the whole edge, and a start costs no more than the whole
edge.

* `Frontier`: the invariant. Every start is entered, every entry waits or has been passed on to its
  successors and the goals on them, and the goals ahead of a start have labels that wait.
* `frontier_initial`, `Frontier.expand`, `Frontier.finish`: it holds at the start, and steps keep
  it.
* `Frontier.covers`: a trip ends on an edge entered at no higher cost, unless a label that costs no
  more is still waiting.
* `Frontier.waits`: whoever arrives at a goal not finished pays at least what a waiting label costs.
-/

namespace RoadMatching

variable {α K : Type} [Field K] [LinearOrder K]

/-- The fraction of a position is between those of the ends of its edge. -/
def Spot.IsOnEdge (spot : Spot K) : Prop := 0 ≤ spot.fraction ∧ spot.fraction ≤ 1

/-- The part of its edge behind a position is a fraction too. -/
lemma Spot.IsOnEdge.behind [IsStrictOrderedRing K] {spot : Spot K} (h : spot.IsOnEdge) :
    0 ≤ 1 - spot.fraction ∧ 1 - spot.fraction ≤ 1 :=
  ⟨sub_nonneg.2 h.2, sub_le_self 1 h.1⟩

namespace Search

variable {g : Graph α} {cost : Cost α K} {limit : Option (Limit α K)}
  {sources targets : List (Spot K)}

/-! ### The order of the queue -/

/-- The labels wait in the order of their costs. -/
def Sorted (queue : List (Label K)) : Prop := queue.Pairwise fun l m => l.cost ≤ m.cost

omit [Field K] in
lemma sorted_iff_ordered {queue : List (Label K)} : Sorted queue ↔ Ordered queue := by
  rw [Sorted, Ordered]
  simp only [Ordering.isLE_iff_ne_gt, compare_gt_iff_gt, not_lt]

omit [Field K] in
lemma Sorted.enqueue {queue : List (Label K)} (h : Sorted queue) (l : Label K) :
    Sorted (enqueue l queue) :=
  sorted_iff_ordered.2 ((sorted_iff_ordered.1 h).enqueue l)

/-! ### The invariant -/

/-- What the entries cost when the labels that wait cost at least `level`. -/
structure Level (g : Graph α) (cost : Cost α K) (level : K) (s : State K) : Prop where
  sorted : Sorted s.queue
  queue : ∀ l ∈ s.queue, level ≤ l.cost
  entries : ∀ m ∈ s.entries, ∀ e, g.at? m.edge = some e → m.cost ≤ level + cost.full e.label
  full : ∀ m ∈ s.entries, m.goal = none

/-- A label has been passed on: all successors of its edge are entered, and the labels of all goals
on them wait, at no higher cost than after it. -/
def Passed (g : Graph α) (cost : Cost α K) (s : State K) (l : Label K) : Prop :=
  ∀ j ∈ g.successorIndices l.edge, ∀ e, g.at? j = some e →
    (∃ m ∈ s.entries, m.edge = j ∧ m.cost ≤ l.cost + cost.full e.label) ∧
    ∀ goal ∈ s.pending, goal.edge = j → ∃ m ∈ s.queue, m.goal = some goal.place ∧
      m.cost ≤ l.cost + cost.full e.label - cost.part e.label (1 - goal.fraction)

/-- What a search with fair costs keeps. -/
structure Frontier (g : Graph α) (cost : Cost α K) (sources : List (Spot K)) (s : State K) :
    Prop where
  level : ∃ b, 0 ≤ b ∧ Level g cost b s
  started : ∀ source ∈ sources, ∀ i e, g.indexOf? source.edge = some i → g.at? i = some e →
    ∃ m ∈ s.entries, m.edge = i ∧ m.cost ≤ cost.part e.label (1 - source.fraction)
  ahead : ∀ source ∈ sources, ∀ goal ∈ s.pending, ∀ e, g.indexOf? source.edge = some goal.edge →
    g.at? goal.edge = some e → ¬ goal.fraction < source.fraction →
    ∃ m ∈ s.queue, m.goal = some goal.place ∧
      m.cost ≤ cost.part e.label (1 - source.fraction) - cost.part e.label (1 - goal.fraction)
  passed : ∀ l ∈ s.entries, l ∈ s.queue ∨ Passed g cost s l

/-- What has been passed on stays so while entries stay, and labels wait for the goals left. -/
lemma Passed.mono {s t : State K} {l : Label K} (h : Passed g cost s l)
    (hentries : ∀ m ∈ s.entries, m ∈ t.entries) (hpending : ∀ goal ∈ t.pending, goal ∈ s.pending)
    (hkeep : ∀ goal ∈ t.pending, ∀ m ∈ s.queue, m.goal = some goal.place → m ∈ t.queue) :
    Passed g cost t l := by
  intro j hj e he
  obtain ⟨⟨n, hn, hedge, hcost⟩, hgoals⟩ := h j hj e he
  refine ⟨⟨n, hentries n hn, hedge, hcost⟩, fun goal hgoal hon => ?_⟩
  obtain ⟨m, hm, hplace, hle⟩ := hgoals goal (hpending goal hgoal) hon
  exact ⟨m, hkeep goal hgoal m hm hplace, hplace, hle⟩

lemma mem_edges_of_at? {i : Nat} {e : Edge α} (h : g.at? i = some e) : e ∈ g.edges :=
  Array.mem_of_getElem? h

lemma Level.push {b : K} {s : State K} (h : Level g cost b s) {l : Label K} (hl : b ≤ l.cost) :
    Level g cost b (s.push l) where
  sorted := h.sorted.enqueue l
  queue m hm := by
    rcases State.mem_queue_push.1 hm with rfl | hm
    · exact hl
    · exact h.queue m hm
  entries := h.entries
  full := h.full

lemma Level.enter {b : K} {s : State K} (h : Level g cost b s) {l : Label K} (hl : b ≤ l.cost)
    (hgoal : l.goal = none)
    (hle : ∀ e, g.at? l.edge = some e → l.cost ≤ b + cost.full e.label) :
    Level g cost b (s.enter l) where
  sorted := h.sorted.enqueue l
  queue m hm := by
    rcases State.mem_queue_enter.1 hm with rfl | hm
    · exact hl
    · exact h.queue m hm
  entries m hm := by
    rcases List.mem_cons.1 hm with rfl | hm
    · exact hle
    · exact h.entries m hm
  full m hm := by
    rcases List.mem_cons.1 hm with rfl | hm
    · exact hgoal
    · exact h.full m hm

/-- The first label costs no more than any other. -/
lemma Level.head_le {b : K} {s : State K} (h : Level g cost b s) {l m : Label K}
    {rest : List (Label K)} (hq : s.queue = l :: rest) (hm : m ∈ s.queue) : l.cost ≤ m.cost := by
  have hsorted := h.sorted
  rw [hq] at hsorted hm
  rcases List.mem_cons.1 hm with rfl | hm
  · exact le_rfl
  · exact (List.pairwise_cons.1 hsorted).1 m hm

variable [IsStrictOrderedRing K]

/-- The level rises to the cost of the label taken. -/
lemma Level.taken {b : K} {s : State K} (h : Level g cost b s)
    {l : Label K} {rest : List (Label K)} (hq : s.queue = l :: rest) :
    Level g cost l.cost { s with queue := rest } := by
  have hsorted := h.sorted
  rw [hq] at hsorted
  obtain ⟨hfirst, hrest⟩ := List.pairwise_cons.1 hsorted
  have hb : b ≤ l.cost := h.queue l (hq ▸ List.mem_cons_self)
  refine ⟨hrest, hfirst, fun m hm e he => ?_, h.full⟩
  exact (h.entries m hm e he).trans (add_le_add_left hb _)

/-! ### Starting -/

/-- The goals lie on their edges. -/
lemma isOnEdge_of_mem_goals (ht : ∀ target ∈ targets, target.IsOnEdge) {goal : Goal K}
    (h : goal ∈ goals g targets) : 0 ≤ 1 - goal.fraction ∧ 1 - goal.fraction ≤ 1 := by
  obtain ⟨target, htarget, -, hf⟩ := mem_goals.1 h
  rw [hf]
  exact (ht target (List.mem_of_getElem? htarget)).behind

/-- At the start no label costs less than nothing. -/
lemma level_initial (limit : Option (Limit α K)) (hc : cost.IsFair g)
    (hs : ∀ source ∈ sources, source.IsOnEdge) (ht : ∀ target ∈ targets, target.IsOnEdge) :
    Level g cost 0 (initial g cost limit sources targets) ∧
      ∀ m ∈ (initial g cost limit sources targets).entries,
        m ∈ (initial g cost limit sources targets).queue := by
  suffices h : (initial g cost limit sources targets).pending = goals g targets ∧
      Level g cost 0 (initial g cost limit sources targets) ∧
        ∀ m ∈ (initial g cost limit sources targets).entries,
          m ∈ (initial g cost limit sources targets).queue from h.2
  refine initial_induction (motive := fun t => t.pending = goals g targets ∧ Level g cost 0 t ∧
    ∀ m ∈ t.entries, m ∈ t.queue) ?_ ?_ ?_
  · exact ⟨rfl, ⟨List.Pairwise.nil, fun _ h => absurd h List.not_mem_nil,
      fun _ h => absurd h List.not_mem_nil, fun _ h => absurd h List.not_mem_nil⟩,
      fun _ h => absurd h List.not_mem_nil⟩
  · rintro t source index edge goal hsource hi he hgoal hf ⟨hp, hlevel, hwait⟩
    refine ⟨hp, hlevel.push ?_, fun m hm => State.mem_queue_push.2 (.inr (hwait m hm))⟩
    rw [State.mem_goalsOn, hp] at hgoal
    have hbehind := isOnEdge_of_mem_goals ht hgoal.1
    exact sub_nonneg.2 (hc.part_mono edge (mem_edges_of_at? he) _ _ hbehind.1
      (sub_le_sub_left (not_lt.1 hf) 1) (hs source hsource).behind.2)
  · rintro t source index edge hsource hi he hlt ⟨hp, hlevel, hwait⟩
    have hbehind := (hs source hsource).behind
    refine ⟨hp, hlevel.enter ?_ rfl fun e he' => ?_, fun m hm => ?_⟩
    · exact hc.part_nonneg edge (mem_edges_of_at? he) _ hbehind.1 hbehind.2
    · have hsame : edge = e := Option.some.inj (he.symm.trans he')
      rw [zero_add, ← hsame]
      exact hc.part_le_full edge (mem_edges_of_at? he) _ hbehind.1 hbehind.2
    · rcases List.mem_cons.1 hm with rfl | hm
      · exact State.mem_queue_enter.2 (.inl rfl)
      · exact State.mem_queue_enter.2 (.inr (hwait m hm))

/-- The invariant holds at the start. -/
lemma frontier_initial (hc : cost.IsFair g) (hs : ∀ source ∈ sources, source.IsOnEdge)
    (ht : ∀ target ∈ targets, target.IsOnEdge) :
    Frontier g cost sources (initial g cost limit sources targets) := by
  obtain ⟨hlevel, hwait⟩ := level_initial limit hc hs ht
  refine ⟨⟨0, le_rfl, hlevel⟩, fun source hsource i e hi he => ?_,
    fun source hsource goal hgoal e hi he hf => ?_, fun l hl => .inl (hwait l hl)⟩
  · obtain ⟨s, -, hext⟩ := exists_start g cost limit targets hsource
    obtain ⟨m, hm, hedge, hle⟩ := start_enters cost limit s hi he
    refine ⟨m, hext.entries.subset hm, hedge, ?_⟩
    rcases hle with rfl | hle
    · exact le_rfl
    · exact not_lt.1 hle
  · obtain ⟨s, hp, hext⟩ := exists_start g cost limit targets hsource
    have hgoal' : goal ∈ s.goalsOn goal.edge := by
      have hstart : (start g cost limit s source).pending = s.pending :=
        (extends_start s source).pending
      rw [State.mem_goalsOn, ← hstart, ← hext.pending]
      exact ⟨hgoal, rfl⟩
    have hreach := start_reaches cost limit hi he hgoal' hf
    exact ⟨_, hext.queue _ hreach, rfl, le_rfl⟩

/-! ### Steps -/

/-- The labels that come in when a label is passed on cost at least as much, and those that are
entered wait. -/
lemma Level.expand (limit : Option (Limit α K)) (hc : cost.IsFair g)
    (ht : ∀ target ∈ targets, target.IsOnEdge) {s : State K}
    (hp : ∀ goal ∈ s.pending, goal ∈ goals g targets) {l : Label K}
    (hlevel : Level g cost l.cost s) :
    Level g cost l.cost (expand g cost limit l s) ∧
      ∀ m ∈ (expand g cost limit l s).entries,
        m ∈ s.entries ∨ m ∈ (expand g cost limit l s).queue := by
  suffices h : (Search.expand g cost limit l s).pending = s.pending ∧
      Level g cost l.cost (Search.expand g cost limit l s) ∧
        ∀ m ∈ (Search.expand g cost limit l s).entries,
          m ∈ s.entries ∨ m ∈ (Search.expand g cost limit l s).queue from h.2
  refine expand_induction (motive := fun t => t.pending = s.pending ∧ Level g cost l.cost t ∧
    ∀ m ∈ t.entries, m ∈ s.entries ∨ m ∈ t.queue) ⟨rfl, hlevel, fun m hm => .inl hm⟩ ?_ ?_
  · rintro u j e goal hj he hgoal ⟨hpending, hu, hwait⟩
    refine ⟨hpending, hu.push ?_, fun m hm =>
      (hwait m hm).imp_right fun h => State.mem_queue_push.2 (.inr h)⟩
    rw [State.mem_goalsOn, hpending] at hgoal
    have hbehind := isOnEdge_of_mem_goals ht (hp goal hgoal.1)
    have hpart := hc.part_le_full e (mem_edges_of_at? he) _ hbehind.1 hbehind.2
    show l.cost ≤ l.cost + cost.full e.label - cost.part e.label (1 - goal.fraction)
    linarith
  · rintro u j e hj he hnone ⟨hpending, hu, hwait⟩
    have hnext : l.cost ≤ l.cost + cost.full e.label :=
      le_add_of_nonneg_right (hc.full_nonneg (mem_edges_of_at? he))
    refine ⟨hpending, hu.enter hnext rfl fun e' he' => ?_, fun m hm => ?_⟩
    · have hsame : e = e' := Option.some.inj (he.symm.trans he')
      exact hsame ▸ le_rfl
    · rcases List.mem_cons.1 hm with rfl | hm
      · exact .inr (State.mem_queue_enter.2 (.inl rfl))
      · exact (hwait m hm).imp_right fun h => State.mem_queue_enter.2 (.inr h)

/-- Expanding the label taken keeps the invariant. -/
lemma Frontier.expand (hc : cost.IsFair g) (ht : ∀ target ∈ targets, target.IsOnEdge) {s : State K}
    (h : Frontier g cost sources s) (hp : ∀ goal ∈ s.pending, goal ∈ goals g targets)
    {l : Label K} {rest : List (Label K)} (hq : s.queue = l :: rest) (hgoal : l.goal = none) :
    Frontier g cost sources (expand g cost limit l { s with queue := rest }) := by
  obtain ⟨b, hb, hlevel⟩ := h.level
  have hbl : b ≤ l.cost := hlevel.queue l (hq ▸ List.mem_cons_self)
  set taken : State K := { s with queue := rest } with htaken
  obtain ⟨hlevel', hwait⟩ := Level.expand limit hc ht (s := taken) hp (hlevel.taken hq)
  set t := Search.expand g cost limit l taken with hexpand
  have hext : taken.Extends t := extends_expand l taken
  -- a label of a goal that waited still waits, since the one taken has no goal
  have hkeep : ∀ m ∈ s.queue, ∀ place, m.goal = some place → m ∈ t.queue := by
    intro m hm place hplace
    rw [hq] at hm
    rcases List.mem_cons.1 hm with rfl | hm
    · rw [hgoal] at hplace
      cases hplace
    · exact hext.queue m hm
  have hpassed : ∀ m, Passed g cost s m → Passed g cost t m := fun m hm =>
    hm.mono (fun n hn => hext.entries.subset hn) (fun goal hg => hext.pending ▸ hg)
      fun goal _ r hr hplace => hkeep r hr goal.place hplace
  refine ⟨⟨l.cost, hb.trans hbl, hlevel'⟩, fun source hsource i e hi he => ?_,
    fun source hsource goal hg e hi he hf => ?_, fun m hm => ?_⟩
  · obtain ⟨m, hm, hedge, hcost⟩ := h.started source hsource i e hi he
    exact ⟨m, hext.entries.subset hm, hedge, hcost⟩
  · obtain ⟨m, hm, hplace, hcost⟩ := h.ahead source hsource goal (hext.pending ▸ hg) e hi he hf
    exact ⟨m, hkeep m hm _ hplace, hplace, hcost⟩
  · rcases hwait m hm with hm | hm
    · rcases h.passed m hm with hm' | hm'
      · rw [hq] at hm'
        rcases List.mem_cons.1 hm' with rfl | hm'
        · -- the label taken has just been passed on
          refine .inr fun j hj e he => ⟨?_, fun goal hg hj' => ?_⟩
          · obtain ⟨n, hn, rfl⟩ := expand_enters cost limit taken hj he
            exact ⟨n, hn, rfl, hlevel'.entries n hn e he⟩
          · have hg' : goal ∈ taken.goalsOn j := State.mem_goalsOn.2 ⟨hext.pending ▸ hg, hj'⟩
            exact ⟨_, expand_reaches hj he hg', rfl, le_rfl⟩
        · exact .inl (hext.queue m hm')
      · exact .inr (hpassed m hm')
    · exact .inl hm

/-- Finishing a goal by the label taken keeps the invariant. -/
lemma Frontier.finish {s : State K} (h : Frontier g cost sources s)
    (hpending : ∀ goal ∈ s.pending, s.isFinished goal.place = false)
    {l : Label K} {rest : List (Label K)} (hq : s.queue = l :: rest) {place : Nat}
    (hplace : l.goal = some place) :
    Frontier g cost sources (finish l place { s with queue := rest }) := by
  obtain ⟨b, hb, hlevel⟩ := h.level
  have hbl : b ≤ l.cost := hlevel.queue l (hq ▸ List.mem_cons_self)
  set t := Search.finish l place { s with queue := rest } with hfinish
  have hqueue : t.queue = rest := by
    rw [hfinish, Search.finish]
    split <;> rfl
  have hentries : t.entries = s.entries := by
    rw [hfinish, Search.finish]
    split <;> rfl
  -- the goals left are others than the one finished
  have hgoals : ∀ goal ∈ t.pending, goal ∈ s.pending ∧ goal.place ≠ place := by
    intro goal hg
    rw [hfinish, Search.finish] at hg
    split at hg
    · next hdone =>
      refine ⟨hg, ?_⟩
      rintro rfl
      have hnot := hpending goal hg
      rw [show s.isFinished goal.place = true from hdone] at hnot
      cases hnot
    · simpa using hg
  have hkeep : ∀ goal ∈ t.pending, ∀ m ∈ s.queue, m.goal = some goal.place → m ∈ t.queue := by
    intro goal hg m hm hm'
    rw [hq] at hm
    rcases List.mem_cons.1 hm with rfl | hm
    · rw [hplace, Option.some.injEq] at hm'
      exact absurd hm'.symm (hgoals goal hg).2
    · rwa [hqueue]
  have hlevel' : Level g cost l.cost t := by
    have htaken := hlevel.taken hq
    exact ⟨hqueue ▸ htaken.sorted, hqueue ▸ htaken.queue, hentries ▸ htaken.entries,
      hentries ▸ htaken.full⟩
  refine ⟨⟨l.cost, hb.trans hbl, hlevel'⟩, hentries ▸ h.started,
    fun source hsource goal hg e hi he hf => ?_, fun m hm => ?_⟩
  · obtain ⟨m, hm, hm', hcost⟩ := h.ahead source hsource goal (hgoals goal hg).1 e hi he hf
    exact ⟨m, hkeep goal hg m hm hm', hm', hcost⟩
  · rw [hentries] at hm
    rcases h.passed m hm with hm' | hm'
    · rw [hq] at hm'
      rcases List.mem_cons.1 hm' with rfl | hm'
      · have hnone := hlevel.full m hm
        rw [hplace] at hnone
        cases hnone
      · exact .inl (hqueue ▸ hm')
    · exact .inr (hm'.mono (fun n hn => hentries ▸ hn) (fun goal hg => (hgoals goal hg).1) hkeep)

/-! ### What a trip costs -/

/-- The edge at the end of a trip has been entered at no higher cost and passed on, unless a label
that costs no more than the trip still waits. -/
theorem Frontier.covers (hc : cost.IsFair g) {s : State K} (h : Frontier g cost sources s)
    {source : Spot K} {ids : List Int} {i : Nat} {c : K}
    (htrip : Trip g cost sources source ids i c) :
    (∃ m ∈ s.queue, m.cost ≤ c) ∨
      ∃ l ∈ s.entries, l.edge = i ∧ l.cost ≤ c ∧ Passed g cost s l := by
  induction htrip with
  | start hs hi he =>
    obtain ⟨m, hm, hedge, hcost⟩ := h.started _ hs _ _ hi he
    rcases h.passed m hm with hwait | hpass
    · exact .inl ⟨m, hwait, hcost⟩
    · exact .inr ⟨m, hm, hedge, hcost, hpass⟩
  | @next ids i j c e _ hj he ih =>
    have hfull := hc.full_nonneg (mem_edges_of_at? he)
    rcases ih with ⟨m, hm, hcost⟩ | ⟨l, hl, rfl, hcost, hpass⟩
    · exact .inl ⟨m, hm, hcost.trans (le_add_of_nonneg_right hfull)⟩
    · obtain ⟨⟨m, hm, hedge, hm'⟩, -⟩ := hpass j hj e he
      have hle : m.cost ≤ c + cost.full e.label := hm'.trans (add_le_add_left hcost _)
      rcases h.passed m hm with hwait | hpass
      · exact .inl ⟨m, hwait, hle⟩
      · exact .inr ⟨m, hm, hedge, hle, hpass⟩

/-- While a goal is not finished, a label waits that costs no more than any arrival there. -/
theorem Frontier.waits (hc : cost.IsFair g) {s : State K} (h : Frontier g cost sources s)
    {goal : Goal K} (hgoal : goal ∈ s.pending) {target : Spot K} (ht : target.IsOnEdge)
    (hi : g.indexOf? target.edge = some goal.edge) (hf : goal.fraction = target.fraction)
    {source : Spot K} {ids : List Int} {c : K} (harr : Arrival g cost sources target source ids c) :
    ∃ m ∈ s.queue, m.cost ≤ c := by
  cases harr with
  | @ahead i e hs hedge hi' he hf' =>
    rw [hedge, hi, Option.some.injEq] at hi'
    subst hi'
    rw [← hf] at hf' ⊢
    obtain ⟨m, hm, -, hcost⟩ := h.ahead source hs goal hgoal e (hedge ▸ hi) he hf'
    exact ⟨m, hm, hcost⟩
  | @entering ids i j c e htrip hj hi' he =>
    rw [hi, Option.some.injEq] at hi'
    subst hi'
    have hpart := hc.part_le_full e (mem_edges_of_at? he) _ ht.behind.1 ht.behind.2
    rcases h.covers hc htrip with ⟨m, hm, hcost⟩ | ⟨l, -, rfl, hcost, hpass⟩
    · refine ⟨m, hm, ?_⟩
      linarith
    · obtain ⟨m, hm, -, hle⟩ := (hpass _ hj e he).2 goal hgoal rfl
      refine ⟨m, hm, ?_⟩
      rw [hf] at hle
      linarith

end Search

end RoadMatching
