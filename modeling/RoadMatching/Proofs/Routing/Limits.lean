import RoadMatching.Proofs.Routing.Cheapest
import RoadMatching.Proofs.Routing.Views

/-!
What a limit does to routes.

A search with a limit does what a search without one does, until it stops. It stops at the first label
that has spent too much, so that what it has finished by then are routes within the limit.

* `unlimited`: what a search without a limit sees, which is everything but what is spent.
  `unlimited_steps`: its states are those of the limited search.
* `within_run`: goals are finished within the limit.
* `spent_eq_cost`: if the limit is on the cost of the search, then labels have spent what they cost.
* `Path.IsCheapest`: the cheapest paths to a target.
* `routes_limit`: with a limit a target has the route that it has without, or none, and a route is
  within the limit. A limit on the cost of the search itself leaves exactly the targets on the graph
  to which a cheapest path is within it. `routes_limit_ring`: a limit that is just enough.
* `routes_limit_unknown_edge`: on an edge that the graph does not have the cheapest path is within any
  limit, but it is no route.
-/

namespace RoadMatching

variable {α K : Type} [Field K] [LinearOrder K] {g : Graph α} {cost : Cost α K}
  {sources targets : List (Spot K)}

namespace Search

/-! ### The search without a limit -/

/-- A search without a limit sees all goals, and that nothing is spent. -/
def unlimited (limit : Option (Limit α K)) : View limit none where
  place := some
  spent _ := 0
  place_inj hm hn := Option.some.inj (hm.trans hn.symm)
  spent_part _ _ := rfl
  spent_add _ _ := (add_zero 0).symm
  spent_sub _ _ _ := (sub_zero 0).symm

variable {limit : Option (Limit α K)}

omit [LinearOrder K] in
lemma filterMap_goal_unlimited (xs : List (Goal K)) :
    xs.filterMap (unlimited limit).goal = xs := List.filterMap_some

/-- As long as the search with a limit runs, the one without does the same. -/
lemma unlimited_steps (fuel : Nat) :
    Steps g cost none (initial g cost none sources targets)
      ((unlimited limit).state
        (run g cost limit fuel (initial g cost limit sources targets))) := by
  obtain ⟨hstate, hordered⟩ := (unlimited limit).state_initial cost g sources
    (filterMap_goal_unlimited (goals g targets))
  suffices h : Ordered (run g cost limit fuel (initial g cost limit sources targets)).queue ∧
      Steps g cost none (initial g cost none sources targets) ((unlimited limit).state
        (run g cost limit fuel (initial g cost limit sources targets))) from h.2
  refine run_induction (motive := fun s => Ordered s.queue ∧
    Steps g cost none (initial g cost none sources targets) ((unlimited limit).state s)) fuel
    ⟨hordered, hstate ▸ .refl⟩ ?_
  rintro s t hstep ⟨hs, hsteps⟩
  obtain ⟨ht, l, rest, -, ⟨-, hsame⟩ | ⟨l', -, hseen⟩⟩ := (unlimited limit).state_step hs hstep
  · exact ⟨ht, hsame ▸ hsteps⟩
  · refine ⟨ht, hsteps.tail (hseen ?_ rfl)⟩
    have hpending : ((unlimited limit).state s).pending = s.pending := filterMap_goal_unlimited _
    rw [hpending]
    exact pending_ne_nil_of_step hstep

/-- A goal that is finished with a limit has the same route without. -/
lemma route?_unlimited (hg : g.Built) {fuel place : Nat}
    (hdone : (run g cost limit fuel (initial g cost limit sources targets)).isFinished place =
      true) :
    route? g (run g cost none (budget g sources targets) (initial g cost none sources targets))
        place =
      route? g (run g cost limit fuel (initial g cost limit sources targets)) place := by
  set s := run g cost limit fuel (initial g cost limit sources targets)
  have hsteps : Steps g cost none (initial g cost none sources targets)
    ((unlimited limit).state s) := unlimited_steps fuel
  have hend := hsteps.to_end (steps_run (budget g sources targets) _) (step_run_budget hg)
  rw [hend.route?_eq (hsteps.sound sound_initial), (unlimited limit).route?_state s rfl]
  rw [(unlimited limit).isFinished_state s rfl]
  exact hdone

/-! ### What is spent -/

/-- Goals are finished by labels within the limit. -/
lemma within_run (fuel : Nat) :
    ∀ l ∈ (run g cost limit fuel (initial g cost limit sources targets)).finishes,
      exceeds limit l = false := by
  refine run_induction (motive := fun s => ∀ l ∈ s.finishes, exceeds limit l = false) fuel ?_ ?_
  · rw [extends_initial.finishes]
    exact fun l hl => absurd hl List.not_mem_nil
  · intro s t hstep h
    obtain ⟨l, rest, -, hwithin, ⟨-, rfl⟩ | ⟨place, -, rfl⟩⟩ := step_cases hstep
    · rw [(extends_expand l _).finishes]
      exact h
    · rw [finish]
      split
      · exact h
      · exact fun m hm => (List.mem_cons.1 hm).elim (fun heq => heq ▸ hwithin) (h m)

/-- If the limit is on the cost of the search, labels have spent what they cost. -/
lemma spent_eq_cost (max : K) (fuel : Nat) :
    ∀ l ∈ (run g cost (some ⟨cost, max⟩) fuel
      (initial g cost (some ⟨cost, max⟩) sources targets)).queue, l.spent = l.cost := by
  refine run_induction (motive := fun s => ∀ l ∈ s.queue, l.spent = l.cost) fuel ?_ ?_
  · refine initial_induction (motive := fun s => ∀ l ∈ s.queue, l.spent = l.cost) ?_ ?_ ?_
    · exact fun l hl => absurd hl List.not_mem_nil
    · intro s source index edge goal _ _ _ _ _ h l hl
      rcases State.mem_queue_push.1 hl with rfl | hl
      · rfl
      · exact h l hl
    · intro s source index edge _ _ _ _ h l hl
      rcases State.mem_queue_enter.1 hl with rfl | hl
      · rfl
      · exact h l hl
  · intro s t hstep h
    obtain ⟨l, rest, hq, -, hcases⟩ := step_cases hstep
    have hl : l.spent = l.cost := h l (hq ▸ List.mem_cons_self)
    have hrest : ∀ m ∈ rest, m.spent = m.cost := fun m hm => h m (hq ▸ List.mem_cons_of_mem l hm)
    rcases hcases with ⟨-, rfl⟩ | ⟨place, -, rfl⟩
    · refine expand_induction (motive := fun s => ∀ l ∈ s.queue, l.spent = l.cost) hrest ?_ ?_
      · intro u index edge goal _ _ _ hu m hm
        rcases State.mem_queue_push.1 hm with rfl | hm
        · show l.spent + cost.full edge.label - _ = l.cost + cost.full edge.label - _
          rw [hl]
          rfl
        · exact hu m hm
      · intro u index edge _ _ _ hu m hm
        rcases State.mem_queue_enter.1 hm with rfl | hm
        · show l.spent + cost.full edge.label = l.cost + cost.full edge.label
          rw [hl]
        · exact hu m hm
    · have hqueue : (finish l place { s with queue := rest }).queue = rest := by
        rw [finish]
        split <;> rfl
      rw [hqueue]
      exact hrest

variable [IsStrictOrderedRing K]

/-- When a search is over and has left a goal, its first label is over the limit and costs no more
than any arrival at the goal. -/
lemma Progress.exists_exceeding (hc : cost.IsFair g) (ht : ∀ target ∈ targets, target.IsOnEdge)
    {s : State K} (h : Progress g cost limit sources targets s)
    (hover : step g cost limit s = none) {goal : Goal K} (hgoal : goal ∈ goals g targets)
    (hleft : s.isFinished goal.place = false) {target source : Spot K} {ids : List Int} {c : K}
    (htarget : targets[goal.place]? = some target)
    (harr : Arrival g cost sources target source ids c) :
    ∃ l ∈ s.queue, exceeds limit l = true ∧ l.cost ≤ c := by
  obtain ⟨target', htarget', hi, hf⟩ := mem_goals.1 hgoal
  rw [htarget, Option.some.injEq] at htarget'
  subst htarget'
  have hpending : goal ∈ s.pending := by
    rcases h.settled.accounted goal hgoal with hpending | hdone
    · exact hpending
    · rw [hleft] at hdone
      cases hdone
  obtain ⟨m, hm, hcost⟩ :=
    h.frontier.waits hc hpending (ht target (List.mem_of_getElem? htarget)) hi hf harr
  rcases step_eq_none hover with hq | hp | ⟨l, hl, hexceeds⟩
  · rw [hq] at hm
    cases hm
  · rw [hp] at hpending
    cases hpending
  · -- the label at which the search stops costs no more than the one that waits
    obtain ⟨rest, hq⟩ : ∃ rest, s.queue = l :: rest := List.head?_eq_some_iff.1 hl
    obtain ⟨b, -, hlevel⟩ := h.frontier.level
    exact ⟨l, hq ▸ List.mem_cons_self, hexceeds, (hlevel.head_le hq hm).trans hcost⟩

/-- When a search with a limit on its own cost is over, whoever arrives at a goal within the limit
finds it finished. -/
lemma Progress.finished_within (hc : cost.IsFair g) (ht : ∀ target ∈ targets, target.IsOnEdge)
    {max : K} {s : State K} (h : Progress g cost (some ⟨cost, max⟩) sources targets s)
    (hspent : ∀ l ∈ s.queue, l.spent = l.cost) (hover : step g cost (some ⟨cost, max⟩) s = none)
    {goal : Goal K} (hgoal : goal ∈ goals g targets) {target source : Spot K} {ids : List Int}
    {c : K} (htarget : targets[goal.place]? = some target)
    (harr : Arrival g cost sources target source ids c) (hle : c ≤ max) :
    s.isFinished goal.place = true := by
  by_contra hleft
  rw [Bool.not_eq_true] at hleft
  obtain ⟨l, hl, hexceeds, hcost⟩ := h.exists_exceeding hc ht hover hgoal hleft htarget harr
  have hmax : max < l.spent := by simpa [exceeds] using hexceeds
  rw [hspent l hl] at hmax
  exact absurd hmax (not_lt.2 (hcost.trans hle))

end Search

/-! ### Routes within a limit -/

open Search

/-- A valid path from one of the sources to the target that costs no more than any other. -/
structure Path.IsCheapest (g : Graph α) (cost : Cost α K) (sources : List (Spot K))
    (target : Spot K) (p : Path K) : Prop where
  valid : p.isValid g = true
  source_mem : p.source ∈ sources
  target_eq : p.target = target
  le : ∀ q : Path K, q.isValid g = true → q.source ∈ sources → q.target = target →
    p.cost g cost ≤ q.cost g cost

/-- At fair costs, edges cost at least nothing. -/
lemma Cost.IsFair.fullCost_nonneg [IsStrictOrderedRing K] (hc : cost.IsFair g) (edges : List Int) :
    0 ≤ Path.fullCost g cost edges := by
  rw [Path.fullCost, total_eq_sum]
  refine List.sum_nonneg fun c hcost => ?_
  obtain ⟨e, he, rfl⟩ := List.mem_map.1 hcost
  obtain ⟨id, -, hid⟩ := List.mem_filterMap.1 he
  obtain ⟨i, -, hi⟩ := Option.bind_eq_some_iff.1 hid
  exact hc.full_nonneg (Search.mem_edges_of_at? hi)

/-- A cheapest path to a target on the graph arrives there. -/
lemma Path.IsCheapest.arrival (hg : g.Distinct) {target : Spot K}
    (hknown : (g.get? target.edge).isSome) {p : Path K} (h : p.IsCheapest g cost sources target) :
    Arrival g cost sources target p.source p.edges (p.cost g cost) := by
  obtain ⟨source, _, edges⟩ := p
  obtain rfl := h.target_eq
  exact (arrival_iff_isValid hg (Graph.get?_isSome_iff.1 hknown)).2 ⟨h.source_mem, h.valid, rfl⟩

variable [IsStrictOrderedRing K]

/-- **A limit only takes routes away**: for sources and targets on their edges and fair costs, a
target has the same route with a limit as without, or none, and a route spends at most the limit. If
the limit is on the cost of the search itself, a target has a route exactly if the graph has its edge
and a cheapest path to it is within the limit. -/
theorem routes_limit (hg : g.Built) (hc : cost.IsFair g) (limit : Limit α K)
    (hs : ∀ source ∈ sources, source.IsOnEdge) (ht : ∀ target ∈ targets, target.IsOnEdge) {i : Nat}
    {target : Spot K} (hi : targets[i]? = some target) :
    ∃ answer free, (g.routes cost (some limit) sources targets)[i]? = some answer ∧
      (g.routes cost none sources targets)[i]? = some free ∧
      (answer = none ∨ answer = free) ∧
      (∀ source edges, answer = some (source, edges) →
        Path.cost g limit.cost ⟨source, target, edges⟩ ≤ limit.max) ∧
      (limit.cost = cost → (answer.isSome ↔ (g.get? target.edge).isSome ∧
        ∃ p : Path K, p.IsCheapest g cost sources target ∧ p.cost g cost ≤ limit.max)) := by
  have hlen : i < targets.length := (List.getElem?_eq_some_iff.1 hi).1
  set final := run g cost (some limit) (budget g sources targets)
    (initial g cost (some limit) sources targets) with hfinal
  have hprog : Progress g cost (some limit) sources targets final := progress_run hc hs ht _
  refine ⟨route? g final i, _, Graph.getElem?_routes hlen, Graph.getElem?_routes hlen, ?_⟩
  cases hdone : final.isFinished i with
  | false =>
    rw [route?_of_not_finished hdone]
    refine ⟨.inl rfl, ?_, fun hown => ⟨fun h => absurd h (by simp), ?_⟩⟩
    · rintro source edges ⟨⟩
    rintro ⟨hknown, p, hp, hle⟩
    obtain ⟨max⟩ := limit
    subst hown
    obtain ⟨j, hj⟩ := Graph.get?_isSome_iff.1 hknown
    have hgoal : (⟨i, j, target.fraction⟩ : Goal K) ∈ goals g targets :=
      mem_goals.2 ⟨target, hi, hj, rfl⟩
    rw [hprog.finished_within hc ht (spent_eq_cost _ _) (step_run_budget hg) hgoal hi
      (hp.arrival hg.distinct hknown) hle] at hdone
    cases hdone
  | true =>
    obtain ⟨l, hl, source, edges, c, hroute, harr, hspend, hleast⟩ :=
      hprog.exists_route_of_label hdone hi
    have hknown : (g.get? target.edge).isSome := Graph.get?_isSome_iff.2 harr.known
    obtain ⟨hsource, hvalid, rfl⟩ := harr.isValid hg.distinct
    obtain ⟨-, -, hspent⟩ := hspend.isValid hg.distinct
    have hwithin : Path.cost g limit.cost ⟨source, target, edges⟩ ≤ limit.max := by
      have := within_run (budget g sources targets) l hl
      rw [exceeds, Option.any_some, decide_eq_false_iff_not, not_lt, hspent] at this
      exact this
    refine ⟨.inr (route?_unlimited hg hdone).symm, ?_, fun hown => ?_⟩
    · rw [hroute]
      rintro _ _ ⟨⟩
      exact hwithin
    · rw [hroute]
      refine ⟨fun _ => ⟨hknown, _, ⟨hvalid, hsource, rfl, ?_⟩, hown ▸ hwithin⟩, fun _ => rfl⟩
      rintro ⟨source', _, edges'⟩ hv' hs' rfl
      exact hleast _ _ _ ((arrival_iff_isValid hg.distinct (Graph.get?_isSome_iff.1 hknown)).2
        ⟨hs', hv', rfl⟩)

/-- Within a limit of five, which is what the way around the ring costs, it is taken. -/
theorem routes_limit_ring :
    Graph.ring.routes Cost.weight (some ⟨Cost.weight, 5⟩) [⟨1, 3 / 4⟩] [⟨1, 1 / 4⟩] =
        [some (⟨1, 3 / 4⟩, [1, 3, 4, 1])] ∧
      ∃ p : Path ℚ, p.IsCheapest Graph.ring Cost.weight [⟨1, 3 / 4⟩] ⟨1, 1 / 4⟩ ∧
        p.cost Graph.ring Cost.weight ≤ 5 := by
  have hroutes : Graph.ring.routes Cost.weight (some ⟨Cost.weight, 5⟩) [⟨1, 3 / 4⟩] [⟨1, 1 / 4⟩] =
      [some (⟨1, 3 / 4⟩, [1, 3, 4, 1])] := by decide +kernel
  have hfair : (Cost.weight : Cost ℚ ℚ).IsFair Graph.ring := Cost.isFair_linear (by decide +kernel)
  have hon : ∀ source ∈ [(⟨1, 3 / 4⟩ : Spot ℚ)], source.IsOnEdge := by
    rw [List.forall_mem_singleton]
    constructor <;> norm_num
  have hon' : ∀ target ∈ [(⟨1, 1 / 4⟩ : Spot ℚ)], target.IsOnEdge := by
    rw [List.forall_mem_singleton]
    constructor <;> norm_num
  obtain ⟨answer, free, hanswer, -, -, -, hexact⟩ := routes_limit (Graph.Built.ofList _).construct
    hfair ⟨Cost.weight, 5⟩ hon hon' (show [(⟨1, 1 / 4⟩ : Spot ℚ)][0]? = some _ from rfl)
  rw [← Graph.ring, hroutes] at hanswer
  obtain rfl : some (⟨1, 3 / 4⟩, [1, 3, 4, 1]) = answer := Option.some.inj hanswer
  exact ⟨hroutes, ((hexact rfl).1 rfl).2⟩

/-- On an edge that the graph does not have, the cheapest path to a position further on is within the
limit, and yet it has no route. -/
theorem routes_limit_unknown_edge :
    Graph.ring.Built ∧ (Cost.weight : Cost ℚ ℚ).IsFair Graph.ring ∧
      (∃ p : Path ℚ, p.IsCheapest Graph.ring Cost.weight [⟨7, 1 / 5⟩] ⟨7, 4 / 5⟩ ∧
        p.cost Graph.ring Cost.weight ≤ 10) ∧
      Graph.ring.routes Cost.weight (some ⟨Cost.weight, 10⟩) [⟨7, 1 / 5⟩] [⟨7, 4 / 5⟩] = [none] := by
  have hbuilt : Graph.ring.Built := (Graph.Built.ofList _).construct
  have hfair : (Cost.weight : Cost ℚ ℚ).IsFair Graph.ring := Cost.isFair_linear (by decide +kernel)
  have hnone : ∀ fraction : ℚ, Path.remainder Graph.ring Cost.weight ⟨7, fraction⟩ = 0 := by
    have hget : Graph.ring.get? 7 = none := by decide +kernel
    intro fraction
    rw [Path.remainder, hget]
  have hcost : Path.cost Graph.ring Cost.weight ⟨⟨7, 1 / 5⟩, ⟨7, 4 / 5⟩, [7]⟩ = 0 := by
    decide +kernel
  have hcheapest : Path.IsCheapest Graph.ring Cost.weight [⟨7, 1 / 5⟩] ⟨7, 4 / 5⟩
      ⟨⟨7, 1 / 5⟩, ⟨7, 4 / 5⟩, [7]⟩ := by
    refine ⟨by decide +kernel, List.mem_singleton_self _, rfl, ?_⟩
    rintro ⟨source, _, edges⟩ - hsource rfl
    obtain rfl := List.mem_singleton.1 hsource
    rw [hcost, Path.cost, hnone, hnone, zero_add, sub_zero]
    exact hfair.fullCost_nonneg edges.tail
  exact ⟨hbuilt, hfair, ⟨_, hcheapest, by rw [hcost]; norm_num⟩, by decide +kernel⟩

end RoadMatching
