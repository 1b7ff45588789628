import RoadMatching.Proofs.Routing.Budget
import RoadMatching.Proofs.Routing.Frontier

/-!
Routes are cheapest paths, and none is missed.

A goal is finished by the first of its labels to be taken. At that moment no arrival is cheaper,
since a label would wait for it; and a goal that is never finished has no arrival, since the search
ends without labels.

* `Settled`: the invariant on finished goals; `settled_initial`, `Settled.step`.
* `Progress`: all that a search with fair costs keeps, whatever its limit.
* `routes_cheapest`: without a limit, a target on the graph has a route exactly if a valid path
  leads to it, and the route is a valid path that costs no more than any other.
* `routes_unknown_edge`: an edge that the graph does not have carries a valid path, from a position
  to another one further on, but no route.
-/

namespace RoadMatching

variable {α K : Type} [Field K] [LinearOrder K] {g : Graph α} {cost : Cost α K}
  {limit : Option (Limit α K)} {sources targets : List (Spot K)}

namespace Search

/-! ### Finished goals -/

/-- A goal is either left or finished, and was finished at no higher cost than any arrival. -/
structure Settled (g : Graph α) (cost : Cost α K) (sources targets : List (Spot K)) (s : State K) :
    Prop where
  accounted : ∀ goal ∈ goals g targets, goal ∈ s.pending ∨ s.isFinished goal.place = true
  apart : ∀ goal ∈ s.pending, s.isFinished goal.place = false
  cheapest : ∀ l ∈ s.finishes, ∀ place target, l.goal = some place →
    targets[place]? = some target → ∀ source ids c,
    Arrival g cost sources target source ids c → l.cost ≤ c

/-- Nothing is finished at the start. -/
lemma settled_initial :
    Settled g cost sources targets (initial g cost limit sources targets) := by
  have h : State.Extends _ (initial g cost limit sources targets) := extends_initial
  refine ⟨fun goal hgoal => .inl (h.pending ▸ hgoal), fun goal _ => ?_, fun l hl => ?_⟩
  · rw [State.isFinished, h.finishes]
    rfl
  · rw [h.finishes] at hl
    cases hl

/-- All that a search with fair costs keeps. -/
structure Progress (g : Graph α) (cost : Cost α K) (limit : Option (Limit α K))
    (sources targets : List (Spot K)) (s : State K) : Prop where
  sound : Sound g cost limit sources targets s
  frontier : Frontier g cost sources s
  settled : Settled g cost sources targets s

variable [IsStrictOrderedRing K]

/-- A goal finished by the label taken is finished at least cost: a label waits that costs no more
than any arrival, and the one taken is the first. -/
lemma Progress.cost_le (hc : cost.IsFair g) (ht : ∀ target ∈ targets, target.IsOnEdge) {s : State K}
    (h : Progress g cost limit sources targets s) {l : Label K} {rest : List (Label K)}
    (hq : s.queue = l :: rest) {place : Nat} (hplace : l.goal = some place)
    (hnew : s.isFinished place = false) {target source : Spot K} {ids : List Int} {c : K}
    (htarget : targets[place]? = some target)
    (harr : Arrival g cost sources target source ids c) : l.cost ≤ c := by
  obtain ⟨-, goal, -, -, hgp, hgoal, -⟩ :=
    h.sound.reached l (hq ▸ List.mem_cons_self) place hplace
  subst hgp
  obtain ⟨target', htarget', hi, hf⟩ := mem_goals.1 hgoal
  rw [htarget, Option.some.injEq] at htarget'
  subst htarget'
  have hpending : goal ∈ s.pending := by
    rcases h.settled.accounted goal hgoal with hleft | hdone
    · exact hleft
    · rw [hnew] at hdone
      cases hdone
  obtain ⟨m, hm, hle⟩ :=
    h.frontier.waits hc hpending (ht target (List.mem_of_getElem? htarget)) hi hf harr
  obtain ⟨b, -, hlevel⟩ := h.frontier.level
  exact (hlevel.head_le hq hm).trans hle

/-- Every step keeps what is known of finished goals. -/
lemma Settled.step (hc : cost.IsFair g) (ht : ∀ target ∈ targets, target.IsOnEdge) {s t : State K}
    (h : Progress g cost limit sources targets s) (hstep : step g cost limit s = some t) :
    Settled g cost sources targets t := by
  obtain ⟨l, rest, hq, -, ⟨hgoal, rfl⟩ | ⟨place, hplace, rfl⟩⟩ := step_cases hstep
  · have hext : State.Extends { s with queue := rest }
        (expand g cost limit l { s with queue := rest }) := extends_expand l _
    have hdone : ∀ n, (expand g cost limit l { s with queue := rest }).isFinished n =
        s.isFinished n := by
      intro n
      rw [State.isFinished, hext.finishes, State.isFinished]
    refine ⟨fun goal hg => ?_, fun goal hg => ?_, ?_⟩
    · rw [hext.pending, hdone]
      exact h.settled.accounted goal hg
    · rw [hdone]
      exact h.settled.apart goal (hext.pending ▸ hg)
    · rw [hext.finishes]
      exact h.settled.cheapest
  · rw [finish]
    split
    · exact ⟨h.settled.accounted, h.settled.apart, h.settled.cheapest⟩
    · next hnew =>
      have hnew' : s.isFinished place = false := Bool.eq_false_iff.2 hnew
      refine ⟨fun goal hg => ?_, fun goal hg => ?_, fun m hm p target hp htarget source ids c => ?_⟩
      · by_cases hgp : goal.place = place
        · exact .inr (by simp [State.isFinished, hplace, hgp])
        · refine (h.settled.accounted goal hg).imp (fun hg => ?_) fun hd => ?_
          · exact List.mem_filter.2 ⟨hg, by simpa using hgp⟩
          · rw [State.isFinished_iff] at hd ⊢
            obtain ⟨m, hm, hm'⟩ := hd
            exact ⟨m, List.mem_cons_of_mem l hm, hm'⟩
      · obtain ⟨hg, hgp⟩ := List.mem_filter.1 hg
        have hapart := h.settled.apart goal hg
        have hne : ¬ place = goal.place := by
          rintro rfl
          simp at hgp
        simpa [State.isFinished, hplace, hne] using hapart
      · rcases List.mem_cons.1 hm with rfl | hm
        · rw [hplace, Option.some.injEq] at hp
          subst hp
          exact h.cost_le hc ht hq hplace hnew' htarget
        · exact h.settled.cheapest m hm p target hp htarget source ids c

/-- What a search with fair costs keeps holds at its end, whatever its limit. -/
theorem progress_run (hc : cost.IsFair g) (hs : ∀ source ∈ sources, source.IsOnEdge)
    (ht : ∀ target ∈ targets, target.IsOnEdge) (fuel : Nat) :
    Progress g cost limit sources targets
      (run g cost limit fuel (initial g cost limit sources targets)) := by
  refine run_induction fuel ⟨sound_initial, frontier_initial hc hs ht, settled_initial⟩ ?_
  intro s t hstep h
  refine ⟨h.sound.step hstep, ?_, Settled.step hc ht h hstep⟩
  obtain ⟨l, rest, hq, -, ⟨hgoal, rfl⟩ | ⟨place, hplace, rfl⟩⟩ := step_cases hstep
  · exact h.frontier.expand hc ht h.sound.pending hq hgoal
  · exact h.frontier.finish h.settled.apart hq hplace

/-! ### Reading routes off -/

/-- The route to a finished goal: it arrives there, at no higher cost than any other arrival, and has
spent of the limit what the label says that finished the goal. -/
lemma Progress.exists_route_of_label {s : State K} (h : Progress g cost limit sources targets s)
    {place : Nat} (hdone : s.isFinished place = true) {target : Spot K}
    (htarget : targets[place]? = some target) :
    ∃ l ∈ s.finishes, ∃ source ids c, route? g s place = some (source, ids) ∧
      Arrival g cost sources target source ids c ∧
      Arrival g (spending limit) sources target source ids l.spent ∧
      ∀ source' ids' c', Arrival g cost sources target source' ids' c' → c ≤ c' := by
  obtain ⟨m, hm, hm'⟩ := State.isFinished_iff.1 hdone
  obtain ⟨l, hl⟩ : ∃ l, s.finishes.find? (fun l => l.goal == some place) = some l :=
    Option.isSome_iff_exists.1 (List.find?_isSome.2 ⟨m, hm, by simp [hm']⟩)
  have hmem := List.mem_of_find?_eq_some hl
  have hplace : l.goal = some place := by simpa using List.find?_some hl
  obtain ⟨p, hp, hmet⟩ := h.sound.finished l hmem
  rw [hplace, Option.some.injEq] at hp
  subst hp
  obtain ⟨source, ids, hread, c, b, harr, hspend, hle, heq⟩ :=
    hmet.exists_fair_arrival h.sound.entries htarget
  have hleast := h.settled.cheapest l hmem place target hplace htarget
  refine ⟨l, hmem, source, ids, c, ?_, harr, heq (hleast source ids c harr) ▸ hspend,
    fun source' ids' c' harr' => hle.trans (hleast source' ids' c' harr')⟩
  rw [route?_eq, hl]
  exact hread

/-- The route to a finished goal: it arrives there, at no higher cost than any other arrival. -/
lemma Progress.exists_route {s : State K} (h : Progress g cost limit sources targets s)
    {place : Nat} (hdone : s.isFinished place = true) {target : Spot K}
    (htarget : targets[place]? = some target) :
    ∃ source ids c, route? g s place = some (source, ids) ∧
      Arrival g cost sources target source ids c ∧
      ∀ source' ids' c', Arrival g cost sources target source' ids' c' → c ≤ c' := by
  obtain ⟨-, -, source, ids, c, hroute, harr, -, hleast⟩ := h.exists_route_of_label hdone htarget
  exact ⟨source, ids, c, hroute, harr, hleast⟩

/-- When a search without a limit is over, whoever arrives at a goal finds it finished. -/
lemma Progress.finished_of_arrival (hc : cost.IsFair g)
    (ht : ∀ target ∈ targets, target.IsOnEdge) {s : State K}
    (h : Progress g cost none sources targets s) (hover : step g cost none s = none)
    {goal : Goal K} (hgoal : goal ∈ goals g targets) {target source : Spot K} {ids : List Int}
    {c : K}
    (htarget : targets[goal.place]? = some target)
    (harr : Arrival g cost sources target source ids c) : s.isFinished goal.place = true := by
  obtain ⟨target', htarget', hi, hf⟩ := mem_goals.1 hgoal
  rw [htarget, Option.some.injEq] at htarget'
  subst htarget'
  rcases h.settled.accounted goal hgoal with hleft | hdone
  · obtain ⟨m, hm, -⟩ :=
      h.frontier.waits hc hleft (ht target (List.mem_of_getElem? htarget)) hi hf harr
    rcases step_eq_none hover with hq | hp | ⟨l, -, hl⟩
    · rw [hq] at hm
      cases hm
    · rw [hp] at hleft
      cases hleft
    · simp [exceeds] at hl
  · exact hdone

end Search

/-! ### Cheapest routes -/

open Search

variable [IsStrictOrderedRing K]

/-- **Routes are cheapest paths**: for sources and targets on their edges and fair costs, a target
has a route exactly if the graph has its edge and a valid path leads to it from a source, and the
route is such a path, which costs no more than any other. -/
theorem routes_cheapest (hg : g.Built) (hc : cost.IsFair g)
    (hs : ∀ source ∈ sources, source.IsOnEdge) (ht : ∀ target ∈ targets, target.IsOnEdge) {i : Nat}
    {target : Spot K} (hi : targets[i]? = some target) :
    ∃ answer, (g.routes cost none sources targets)[i]? = some answer ∧
      (answer.isSome ↔ (g.get? target.edge).isSome ∧
        ∃ p : Path K, p.isValid g = true ∧ p.source ∈ sources ∧ p.target = target) ∧
      ∀ source edges, answer = some (source, edges) →
        source ∈ sources ∧ (⟨source, target, edges⟩ : Path K).isValid g = true ∧
          ∀ p : Path K, p.isValid g = true → p.source ∈ sources → p.target = target →
            Path.cost g cost ⟨source, target, edges⟩ ≤ p.cost g cost := by
  set final := run g cost none (budget g sources targets) (initial g cost none sources targets)
    with hfinal
  have hprog : Progress g cost none sources targets final := progress_run hc hs ht _
  have hover : step g cost none final = none := step_run_budget hg
  have hlen : i < targets.length := (List.getElem?_eq_some_iff.1 hi).1
  have hanswer : (g.routes cost none sources targets)[i]? = some (route? g final i) := by
    simp [Graph.routes, hlen, ← hfinal]
  refine ⟨route? g final i, hanswer, ?_⟩
  cases hindex : g.indexOf? target.edge with
  | none =>
    -- the target is no goal, and only goals are finished
    have hnot : final.isFinished i = false := by
      by_contra hdone
      rw [Bool.not_eq_false] at hdone
      obtain ⟨source, ids, c, -, harr, -⟩ := hprog.exists_route hdone hi
      cases harr with
      | ahead _ hedge hi' _ _ =>
        rw [hedge, hindex] at hi'
        cases hi'
      | entering _ _ hi' _ =>
        rw [hindex] at hi'
        cases hi'
    have hget : g.get? target.edge = none := by
      rw [Graph.get?, hindex, Option.bind_none]
    rw [route?_of_not_finished hnot, hget]
    refine ⟨by simp, ?_⟩
    rintro source edges ⟨⟩
  | some j =>
    have hgoal : (⟨i, j, target.fraction⟩ : Goal K) ∈ goals g targets :=
      mem_goals.2 ⟨target, hi, hindex, rfl⟩
    have hknown : ∃ j, g.indexOf? target.edge = some j := ⟨j, hindex⟩
    -- valid paths are arrivals, and with one of them the goal is finished
    have harrival : ∀ p : Path K, p.isValid g = true → p.source ∈ sources → p.target = target →
        Arrival g cost sources target p.source p.edges (p.cost g cost) := by
      rintro ⟨source, _, edges⟩ hv hsource rfl
      exact (arrival_iff_isValid hg.distinct hknown).2 ⟨hsource, hv, rfl⟩
    cases hdone : final.isFinished i with
    | false =>
      rw [route?_of_not_finished hdone]
      refine ⟨⟨fun h => absurd h (by simp), ?_⟩, ?_⟩
      · rintro ⟨-, p, hv, hsource, hp⟩
        have := hprog.finished_of_arrival hc ht hover hgoal hi (harrival p hv hsource hp)
        rw [this] at hdone
        cases hdone
      · rintro source edges ⟨⟩
    | true =>
      obtain ⟨source, ids, c, hroute, harr, hle⟩ := hprog.exists_route hdone hi
      obtain ⟨hsource, hv, rfl⟩ := harr.isValid hg.distinct
      rw [hroute]
      refine ⟨⟨fun _ => ⟨Graph.get?_isSome_iff.2 hknown, _, hv, hsource, rfl⟩, fun _ => rfl⟩, ?_⟩
      rintro source' edges ⟨⟩
      exact ⟨hsource, hv, fun p hv' hsource' hp => hle _ _ _ (harrival p hv' hsource' hp)⟩

/-- A ring of three crossings, with a road back that takes longer than the way around. -/
def Graph.ring : Graph ℚ :=
  (Graph.ofList [⟨1, 0, 1, 4⟩, ⟨2, 1, 0, 6⟩, ⟨3, 1, 2, 1⟩, ⟨4, 2, 0, 2⟩]).construct

/-- On the ring, a position behind its source is reached all the way around, at a cost of five. -/
theorem routes_cheapest_ring :
    Graph.ring.routes Cost.weight none [⟨1, 3 / 4⟩] [⟨1, 1 / 4⟩] =
        [some (⟨1, 3 / 4⟩, [1, 3, 4, 1])] ∧
      ∀ p : Path ℚ, p.isValid Graph.ring = true → p.source ∈ [⟨1, 3 / 4⟩] →
        p.target = ⟨1, 1 / 4⟩ → 5 ≤ p.cost Graph.ring Cost.weight := by
  have hroutes : Graph.ring.routes Cost.weight none [⟨1, 3 / 4⟩] [⟨1, 1 / 4⟩] =
      [some (⟨1, 3 / 4⟩, [1, 3, 4, 1])] := by decide +kernel
  have hfair : (Cost.weight : Cost ℚ ℚ).IsFair Graph.ring := Cost.isFair_linear (by decide +kernel)
  have hon : ∀ source ∈ [(⟨1, 3 / 4⟩ : Spot ℚ)], source.IsOnEdge := by
    rw [List.forall_mem_singleton]
    constructor <;> norm_num
  have hon' : ∀ target ∈ [(⟨1, 1 / 4⟩ : Spot ℚ)], target.IsOnEdge := by
    rw [List.forall_mem_singleton]
    constructor <;> norm_num
  obtain ⟨answer, hanswer, -, hbest⟩ := routes_cheapest (Graph.Built.ofList _).construct hfair
    hon hon' (i := 0) rfl
  rw [← Graph.ring, hroutes] at hanswer
  obtain ⟨-, -, hle⟩ := hbest ⟨1, 3 / 4⟩ [1, 3, 4, 1] (by simpa using hanswer.symm)
  have hcost : Path.cost Graph.ring Cost.weight ⟨⟨1, 3 / 4⟩, ⟨1, 1 / 4⟩, [1, 3, 4, 1]⟩ = 5 := by
    decide +kernel
  exact ⟨hroutes, fun p hv hsource hp => hcost ▸ hle p hv hsource hp⟩

/-- An edge that the graph does not have carries a valid path, but no route. -/
theorem routes_unknown_edge :
    Graph.ring.Built ∧ (Cost.weight : Cost ℚ ℚ).IsFair Graph.ring ∧
      (⟨⟨7, 1 / 5⟩, ⟨7, 4 / 5⟩, [7]⟩ : Path ℚ).isValid Graph.ring = true ∧
      Graph.ring.routes Cost.weight none [⟨7, 1 / 5⟩] [⟨7, 4 / 5⟩] = [none] :=
  ⟨(Graph.Built.ofList _).construct, Cost.isFair_linear (by decide +kernel), by decide +kernel,
    by decide +kernel⟩

end RoadMatching
