import RoadMatching.Proofs.Routing.Limits

/-!
What a limit on another cost takes away.

A search takes its labels by one cost, and a limit may be on another one. The first label over the
limit ends the search, for all goals, whether or not it is on the way to any of them. A goal is then
lost although a route to it would have been within the limit.

* `Travelled`: a label stands for a trip of its own, at the cost and the spending it says.
  `travelled_run`: all labels that wait do.
* `Trip.isValid_end`: the path of a trip to the end of an edge.
* `routes_cutoff`: a route is a cheapest path and within the limit; and if there is none, then some
  path over the limit, to the end of an edge or to one of the targets, costs no more than any path
  to the target. `routes_cutoff_stub`: the path that ends the search at a fork.
* `routes_lost_at_stub`: at that fork the only path to the target is within the limit, and it is
  lost.
-/

namespace RoadMatching

variable {α K : Type} [Field K] [LinearOrder K] {g : Graph α} {cost : Cost α K}
  {limit : Option (Limit α K)} {sources targets : List (Spot K)}

namespace Search

/-! ### Labels as trips -/

/-- A label stands for a trip, to the end of its edge or up to a target, which costs and spends what
the label says. An entry that is replaced later on leaves it as it is. -/
inductive Travelled (g : Graph α) (cost : Cost α K) (limit : Option (Limit α K))
    (sources targets : List (Spot K)) (l : Label K) : Prop
  | whole {source : Spot K} {ids : List Int} (hgoal : l.goal = none)
      (htrip : Trip g cost sources source ids l.edge l.cost)
      (hspent : Trip g (spending limit) sources source ids l.edge l.spent)
  | arriving {source target : Spot K} {ids : List Int} (hgoal : l.goal ≠ none)
      (htarget : target ∈ targets) (harr : Arrival g cost sources target source ids l.cost)
      (hspent : Arrival g (spending limit) sources target source ids l.spent)

/-- The label of a goal ahead of a trip stands for the trip up to its target. -/
lemma Travelled.ofGoal {source : Spot K} {ids : List Int} {whole : Label K} {e : Edge α}
    {goal : Goal K} (htrip : Trip g cost sources source ids whole.edge whole.cost)
    (hspent : Trip g (spending limit) sources source ids whole.edge whole.spent)
    (he : g.at? whole.edge = some e) (hgoal : goal ∈ goals g targets)
    (hedge : goal.edge = whole.edge) (hahead : ids.length = 1 → ¬ goal.fraction < source.fraction) :
    Travelled g cost limit sources targets (upTo cost limit e whole goal) := by
  obtain ⟨target, htarget, hi, hf⟩ := mem_goals.1 hgoal
  rw [hedge] at hi
  rw [hf] at hahead
  have harr := htrip.arrival hi he hahead
  have hspend := hspent.arrival hi he hahead
  rw [← hf] at harr hspend
  exact .arriving (Option.some_ne_none _) (List.mem_of_getElem? htarget) harr hspend

/-- The labels at the start are travelled. -/
lemma travelled_initial :
    ∀ l ∈ (initial g cost limit sources targets).queue,
      Travelled g cost limit sources targets l := by
  suffices h : (initial g cost limit sources targets).pending = goals g targets ∧
      ∀ l ∈ (initial g cost limit sources targets).queue,
        Travelled g cost limit sources targets l from h.2
  refine initial_induction (motive := fun t => t.pending = goals g targets ∧
    ∀ l ∈ t.queue, Travelled g cost limit sources targets l) ?_ ?_ ?_
  · exact ⟨rfl, fun l hl => absurd hl List.not_mem_nil⟩
  · rintro t source index edge goal hs hi he hgoal hf ⟨hp, h⟩
    refine ⟨hp, fun l hl => ?_⟩
    rcases State.mem_queue_push.1 hl with rfl | hl
    · rw [State.mem_goalsOn, hp] at hgoal
      exact .ofGoal (.start hs hi he) (.start hs hi he) he hgoal.1 hgoal.2 fun _ => hf
    · exact h l hl
  · rintro t source index edge hs hi he - ⟨hp, h⟩
    refine ⟨hp, fun l hl => ?_⟩
    rcases State.mem_queue_enter.1 hl with rfl | hl
    · exact .whole rfl (.start hs hi he) (.start hs hi he)
    · exact h l hl

/-- The labels after a travelled one are travelled. -/
lemma Travelled.expand {l : Label K} (hl : Travelled g cost limit sources targets l)
    (hgoal : l.goal = none) {s : State K} (hp : ∀ goal ∈ s.pending, goal ∈ goals g targets)
    (h : ∀ m ∈ s.queue, Travelled g cost limit sources targets m) :
    ∀ m ∈ (expand g cost limit l s).queue, Travelled g cost limit sources targets m := by
  cases hl with
  | arriving hsome => exact absurd hgoal hsome
  | @whole source ids _ htrip hspent =>
    have hlong : ∀ id : Int, (ids ++ [id]).length ≠ 1 := by
      have := List.length_pos_of_ne_nil htrip.ne_nil
      intro id
      rw [List.length_append, List.length_singleton]
      omega
    suffices hmoves : (Search.expand g cost limit l s).pending = s.pending ∧
        ∀ m ∈ (Search.expand g cost limit l s).queue, Travelled g cost limit sources targets m from
      hmoves.2
    refine expand_induction (motive := fun t => t.pending = s.pending ∧
      ∀ m ∈ t.queue, Travelled g cost limit sources targets m) ⟨rfl, h⟩ ?_ ?_
    · rintro t j e goal hj he hon ⟨hpending, ht⟩
      refine ⟨hpending, fun m hm => ?_⟩
      rcases State.mem_queue_push.1 hm with rfl | hm
      · rw [State.mem_goalsOn, hpending] at hon
        exact .ofGoal (htrip.next hj he) (hspent.next hj he) he (hp goal hon.1) hon.2
          fun hlen => absurd hlen (hlong e.id)
      · exact ht m hm
    · rintro t j e hj he - ⟨hpending, ht⟩
      refine ⟨hpending, fun m hm => ?_⟩
      rcases State.mem_queue_enter.1 hm with rfl | hm
      · exact .whole rfl (htrip.next hj he) (hspent.next hj he)
      · exact ht m hm

/-- All labels that wait are travelled, however long the search runs. -/
theorem travelled_run (fuel : Nat) :
    ∀ l ∈ (run g cost limit fuel (initial g cost limit sources targets)).queue,
      Travelled g cost limit sources targets l := by
  suffices h : Sound g cost limit sources targets
        (run g cost limit fuel (initial g cost limit sources targets)) ∧
      ∀ l ∈ (run g cost limit fuel (initial g cost limit sources targets)).queue,
        Travelled g cost limit sources targets l from h.2
  refine run_induction (motive := fun s => Sound g cost limit sources targets s ∧
    ∀ l ∈ s.queue, Travelled g cost limit sources targets l) fuel
    ⟨sound_initial, travelled_initial⟩ ?_
  rintro s t hstep ⟨hsound, h⟩
  refine ⟨hsound.step hstep, ?_⟩
  obtain ⟨l, rest, hq, -, ⟨hgoal, rfl⟩ | ⟨place, -, rfl⟩⟩ := step_cases hstep
  · exact (h l (hq ▸ List.mem_cons_self)).expand hgoal hsound.pending
      fun m hm => h m (hq ▸ List.mem_cons_of_mem l hm)
  · have hqueue : (finish l place { s with queue := rest }).queue = rest := by
      rw [finish]
      split <;> rfl
    rw [hqueue]
    exact fun m hm => h m (hq ▸ List.mem_cons_of_mem l hm)

end Search

/-! ### Paths over the limit -/

open Search

variable {full spend : α → K}

/-- A trip to the end of an edge is a path there. At a cost in proportion to the fraction nothing
remains behind the end of an edge, so that the path costs what the trip does. -/
lemma Trip.isValid_end [IsStrictOrderedRing K] (hg : g.Distinct) {source : Spot K} {ids : List Int}
    {i : Nat} {e : Edge α} {c : K} (htrip : Trip g (Cost.linear full) sources source ids i c)
    (he : g.at? i = some e) (hsource : source.IsOnEdge) :
    (⟨source, ⟨e.id, 1⟩, ids⟩ : Path K).isValid g = true ∧
      Path.cost g (Cost.linear full) ⟨source, ⟨e.id, 1⟩, ids⟩ = c := by
  have hi : g.indexOf? (⟨e.id, 1⟩ : Spot K).edge = some i :=
    (Graph.indexOf?_eq_some_iff hg).2 ⟨e, he, rfl⟩
  obtain ⟨-, hvalid, hcost⟩ :=
    (htrip.arrival hi he fun _ => not_lt.2 hsource.2).isValid hg
  refine ⟨hvalid, hcost.symm.trans ?_⟩
  show c - full e.label * (1 - 1) = c
  rw [sub_self, mul_zero, sub_zero]

/-- A travelled label is a path to the end of an edge or to one of the targets. -/
lemma Search.Travelled.exists_path [IsStrictOrderedRing K] (hg : g.Distinct) {max : K}
    (hs : ∀ source ∈ sources, source.IsOnEdge) {l : Label K}
    (h : Travelled g (Cost.linear full) (some ⟨Cost.linear spend, max⟩) sources targets l) :
    ∃ p : Path K, p.isValid g = true ∧ p.source ∈ sources ∧
      (p.target.fraction = 1 ∨ p.target ∈ targets) ∧
      p.cost g (Cost.linear full) = l.cost ∧ p.cost g (Cost.linear spend) = l.spent := by
  cases h with
  | @whole source ids _ htrip hspent =>
    obtain ⟨e, he, -⟩ := htrip.getLast?
    obtain ⟨hvalid, hcost⟩ := htrip.isValid_end hg he (hs source htrip.mem_sources)
    have hspent : Trip g (Cost.linear spend) sources source ids l.edge l.spent := hspent
    obtain ⟨-, hspends⟩ := hspent.isValid_end hg he (hs source htrip.mem_sources)
    exact ⟨_, hvalid, htrip.mem_sources, .inl rfl, hcost, hspends⟩
  | @arriving source target ids _ htarget harr hspent =>
    obtain ⟨hsource, hvalid, hcost⟩ := harr.isValid hg
    obtain ⟨-, -, hspends⟩ := hspent.isValid hg
    exact ⟨_, hvalid, hsource, .inr htarget, hcost.symm, hspends.symm⟩

/-- **The first path over the limit ends the search**: for sources and targets on their edges and
costs in proportion to the fraction, of which the one of the search is not negative, a route is a
cheapest path and within the limit. If a target on the graph has no route, then a path that costs no
more than any path to the target, to the end of an edge or to one of the targets, is over the
limit. -/
theorem routes_cutoff [IsStrictOrderedRing K] (hg : g.Built)
    (hfull : ∀ e ∈ g.edges, 0 ≤ full e.label) (max : K) (hs : ∀ source ∈ sources, source.IsOnEdge)
    (ht : ∀ target ∈ targets, target.IsOnEdge) {i : Nat} {target : Spot K}
    (hi : targets[i]? = some target)
    (hknown : (g.get? target.edge).isSome) :
    ∃ answer,
      (g.routes (Cost.linear full) (some ⟨Cost.linear spend, max⟩) sources targets)[i]? =
        some answer ∧
      (∀ source edges, answer = some (source, edges) →
        Path.IsCheapest g (Cost.linear full) sources target ⟨source, target, edges⟩ ∧
          Path.cost g (Cost.linear spend) ⟨source, target, edges⟩ ≤ max) ∧
      (answer = none → ∀ q : Path K, q.isValid g = true → q.source ∈ sources → q.target = target →
        ∃ p : Path K, p.isValid g = true ∧ p.source ∈ sources ∧
          (p.target.fraction = 1 ∨ p.target ∈ targets) ∧
          p.cost g (Cost.linear full) ≤ q.cost g (Cost.linear full) ∧
          max < p.cost g (Cost.linear spend)) := by
  have hc : (Cost.linear full).IsFair g := Cost.isFair_linear hfull
  have hlen : i < targets.length := (List.getElem?_eq_some_iff.1 hi).1
  obtain ⟨j, hj⟩ := Graph.get?_isSome_iff.1 hknown
  -- valid paths are arrivals
  have harrival : ∀ q : Path K, q.isValid g = true → q.source ∈ sources → q.target = target →
      Arrival g (Cost.linear full) sources target q.source q.edges
        (q.cost g (Cost.linear full)) := by
    rintro ⟨source, _, edges⟩ hv hsource rfl
    exact (arrival_iff_isValid hg.distinct ⟨j, hj⟩).2 ⟨hsource, hv, rfl⟩
  set limit : Option (Limit α K) := some ⟨Cost.linear spend, max⟩
  set final := run g (Cost.linear full) limit (budget g sources targets)
    (initial g (Cost.linear full) limit sources targets) with hfinal
  have hprog : Progress g (Cost.linear full) limit sources targets final :=
    progress_run hc hs ht _
  refine ⟨Search.route? g final i, Graph.getElem?_routes hlen, ?_, fun hnone q hv hsource hq => ?_⟩
  · intro source edges hroute
    have hdone : final.isFinished i = true := by
      by_contra hleft
      rw [Bool.not_eq_true] at hleft
      rw [route?_of_not_finished hleft] at hroute
      cases hroute
    obtain ⟨l, hl, source', edges', c, hroute', harr, hspend, hleast⟩ :=
      hprog.exists_route_of_label hdone hi
    rw [hroute, Option.some.injEq, Prod.mk.injEq] at hroute'
    obtain ⟨rfl, rfl⟩ := hroute'
    obtain ⟨hsource, hvalid, rfl⟩ := harr.isValid hg.distinct
    obtain ⟨-, -, hspent⟩ := hspend.isValid hg.distinct
    refine ⟨⟨hvalid, hsource, rfl, fun q hv hs hq => hleast _ _ _ (harrival q hv hs hq)⟩, ?_⟩
    have hwithin := within_run (budget g sources targets) l hl
    rw [exceeds, Option.any_some, decide_eq_false_iff_not, not_lt, hspent] at hwithin
    exact hwithin
  · have hleft : final.isFinished i = false := by
      by_contra hdone
      rw [Bool.not_eq_false] at hdone
      obtain ⟨-, -, source, ids, c, hroute, -⟩ := hprog.exists_route_of_label hdone hi
      rw [hnone] at hroute
      cases hroute
    have hgoal : (⟨i, j, target.fraction⟩ : Goal K) ∈ goals g targets :=
      mem_goals.2 ⟨target, hi, hj, rfl⟩
    obtain ⟨l, hl, hexceeds, hcost⟩ := hprog.exists_exceeding hc ht (step_run_budget hg) hgoal
      hleft hi (harrival q hv hsource hq)
    obtain ⟨p, hvalid, hsource', htarget, hfull', hspend⟩ :=
      (travelled_run _ l hl).exists_path hg.distinct hs
    have hmax : max < l.spent := by simpa [exceeds, limit] using hexceeds
    exact ⟨p, hvalid, hsource', htarget, hfull' ▸ hcost, hspend ▸ hmax⟩

/-- A road that goes on as a long one, with a short stub beside it. -/
def Graph.stub : Graph ℚ := (Graph.ofList [⟨1, 0, 1, 10⟩, ⟨2, 1, 2, 1⟩, ⟨3, 1, 3, 10⟩]).construct

/-- On the long road, the path to the end of the stub ends the search: it is no longer than the path
to the target, and goes over the limit of one and a half edges. -/
theorem routes_cutoff_stub :
    Graph.stub.routes Cost.weight (some ⟨Cost.hops, 3 / 2⟩) [⟨1, 0⟩] [⟨3, 1 / 2⟩] = [none] ∧
      ∃ p : Path ℚ, p.isValid Graph.stub = true ∧ p.source = ⟨1, 0⟩ ∧
        p.cost Graph.stub Cost.weight ≤ 15 ∧ 3 / 2 < p.cost Graph.stub Cost.hops := by
  have hroutes : Graph.stub.routes Cost.weight (some ⟨Cost.hops, 3 / 2⟩) [⟨1, 0⟩] [⟨3, 1 / 2⟩] =
      [none] := by decide +kernel
  have hon : ∀ source ∈ [(⟨1, 0⟩ : Spot ℚ)], source.IsOnEdge := by
    rw [List.forall_mem_singleton]
    constructor <;> norm_num
  have hon' : ∀ target ∈ [(⟨3, 1 / 2⟩ : Spot ℚ)], target.IsOnEdge := by
    rw [List.forall_mem_singleton]
    constructor <;> norm_num
  obtain ⟨answer, hanswer, -, hlost⟩ := @routes_cutoff ℚ ℚ _ _ Graph.stub
    [⟨1, 0⟩] [⟨3, 1 / 2⟩] id (fun _ => 1) _ (Graph.Built.ofList _).construct (by decide +kernel)
    (3 / 2) hon hon' 0 ⟨3, 1 / 2⟩ rfl (by decide +kernel)
  obtain rfl : none = answer := Option.some.inj ((congrArg (·[0]?) hroutes).symm.trans hanswer)
  obtain ⟨p, hvalid, hsource, -, hcost, hspend⟩ :=
    hlost rfl ⟨⟨1, 0⟩, ⟨3, 1 / 2⟩, [1, 3]⟩ (by decide +kernel) (List.mem_singleton_self _) rfl
  have hfull : Path.cost Graph.stub Cost.weight ⟨⟨1, 0⟩, ⟨3, 1 / 2⟩, [1, 3]⟩ = 15 := by
    decide +kernel
  exact ⟨hroutes, p, hvalid, List.mem_singleton.1 hsource, hfull ▸ hcost, hspend⟩

/-- From the long road there is one path to the middle of its continuation. -/
lemma Graph.edges_stub {p : Path ℚ} (hvalid : p.isValid Graph.stub = true)
    (hsource : p.source = ⟨1, 0⟩) (htarget : p.target = ⟨3, 1 / 2⟩) : p.edges = [1, 3] := by
  obtain ⟨hhead, hlast, -, hchain⟩ := Path.isValid_iff.1 hvalid
  rw [hsource] at hhead
  rw [htarget] at hlast
  -- the first road leads on to the two others, and these lead nowhere
  have hfirst : ∀ b, Graph.stub.isSuccessor 1 b = true → b = 2 ∨ b = 3 := by
    have hnext : (Graph.stub.successors 1).map Edge.id = [2, 3] := by decide +kernel
    intro b hb
    have hmem : b ∈ (Graph.stub.successors 1).map Edge.id := by
      obtain ⟨e, he, hid⟩ := List.any_eq_true.1 hb
      exact List.mem_map.2 ⟨e, he, by simpa using hid⟩
    rw [hnext] at hmem
    simpa using hmem
  have hdead : ∀ a b, a = 2 ∨ a = 3 → Graph.stub.isSuccessor a b = false := by
    have hnone : ∀ a ∈ [(2 : Int), 3], Graph.stub.successors a = [] := by decide +kernel
    intro a b ha
    rw [Graph.isSuccessor, hnone a (by simpa using ha), List.any_nil]
  rcases hedges : p.edges with _ | ⟨a, _ | ⟨b, _ | ⟨c, rest⟩⟩⟩ <;> rw [hedges] at hhead hlast hchain
  · cases hhead
  · rw [List.head?_cons, Option.some.injEq] at hhead
    subst hhead
    cases hlast
  · rw [List.head?_cons, Option.some.injEq] at hhead
    simp only [List.getLast?_cons_cons, List.getLast?_singleton, Option.some.injEq] at hlast
    rw [hhead, hlast]
  · rw [List.head?_cons, Option.some.injEq] at hhead
    subst hhead
    simp only [List.isChain_cons_cons] at hchain
    obtain ⟨hab, hbc, -⟩ := hchain
    rw [hdead b c (hfirst b hab)] at hbc
    cases hbc

/-- Every cheapest path to the middle of the continuation is within the limit of one and a half
edges, and there is one; yet there is no route, since the stub is taken first and goes over the
limit. -/
theorem routes_lost_at_stub :
    Graph.stub.Built ∧ (∀ e ∈ Graph.stub.edges, 0 ≤ e.label) ∧
      (∃ p : Path ℚ, p.IsCheapest Graph.stub Cost.weight [⟨1, 0⟩] ⟨3, 1 / 2⟩) ∧
      (∀ p : Path ℚ, p.IsCheapest Graph.stub Cost.weight [⟨1, 0⟩] ⟨3, 1 / 2⟩ →
        p.cost Graph.stub Cost.hops ≤ 3 / 2) ∧
      Graph.stub.routes Cost.weight (some ⟨Cost.hops, 3 / 2⟩) [⟨1, 0⟩] [⟨3, 1 / 2⟩] = [none] := by
  have hunique : ∀ p : Path ℚ, p.isValid Graph.stub = true → p.source ∈ [⟨1, 0⟩] →
      p.target = ⟨3, 1 / 2⟩ → p = ⟨⟨1, 0⟩, ⟨3, 1 / 2⟩, [1, 3]⟩ := by
    rintro ⟨source, _, edges⟩ hvalid hsource rfl
    obtain rfl := List.mem_singleton.1 hsource
    obtain rfl : edges = [1, 3] := Graph.edges_stub hvalid rfl rfl
    rfl
  refine ⟨(Graph.Built.ofList _).construct, by decide +kernel,
    ⟨⟨⟨1, 0⟩, ⟨3, 1 / 2⟩, [1, 3]⟩, by decide +kernel, List.mem_singleton_self _, rfl,
      fun q hvalid hsource htarget => (hunique q hvalid hsource htarget ▸ le_rfl)⟩,
    fun p hp => ?_, by decide +kernel⟩
  rw [hunique p hp.valid hp.source_mem hp.target_eq]
  decide +kernel

end RoadMatching
