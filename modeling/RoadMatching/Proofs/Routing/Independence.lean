import RoadMatching.Proofs.Routing.Limits
import RoadMatching.Proofs.Routing.Targets

/-!
Targets do not influence one another.

A search for several targets may end at a label for one of them that is over the limit, and then the
others are left. If the limit is on the cost of the search itself, nothing is lost by that: the labels
wait in the order of their costs, so that all of them are over the limit, and the search for one of
the other targets alone would end there as well.

* `ordered_run`: the labels of a search wait in order, however long it runs.
* `exceeds_of_head`: if labels have spent what they cost, none is within the limit once the first one
  is over it.
* `route?_run_eq_alone`: among other targets a target ends up with the route that it has alone.
* `routes_independent`: so the answer for each target is the one that it has alone, whatever the costs
  and the positions. `routes_independent_square`: two ways around a block cost the same, and a target
  between them does not change which one is taken.
* `routesFrom_eq_map`: routes from one source to several targets are those to each of them.
-/

namespace RoadMatching

variable {α K : Type} [Field K] [LinearOrder K] {g : Graph α} {cost : Cost α K}
  {sources targets : List (Spot K)}

namespace Search

/-! ### Labels over the limit -/

/-- The labels of a search wait in the order of their costs. -/
lemma ordered_run (limit : Option (Limit α K)) (fuel : Nat) :
    Ordered (run g cost limit fuel (initial g cost limit sources targets)).queue := by
  obtain ⟨-, hordered⟩ := (unlimited limit).state_initial cost g sources
    (filterMap_goal_unlimited (goals g targets))
  exact run_induction (motive := fun s => Ordered s.queue) fuel hordered fun s t hstep hs =>
    ((unlimited limit).state_step hs hstep).1

omit [Field K] in
/-- If labels have spent what they cost, none is within the limit once the first one is over it. -/
lemma exceeds_of_head {s : State K} (hordered : Ordered s.queue)
    (hspent : ∀ l ∈ s.queue, l.spent = l.cost) {limit : Option (Limit α K)} {l : Label K}
    (hl : s.queue.head? = some l) (hexceeds : exceeds limit l = true) :
    ∀ m ∈ s.queue, exceeds limit m = true := by
  obtain ⟨rest, hq⟩ := List.head?_eq_some_iff.1 hl
  intro m hm
  have hle : l.spent ≤ m.spent := by
    rw [hspent l (List.mem_of_head? hl), hspent m hm]
    rw [hq] at hm hordered
    rcases List.mem_cons.1 hm with rfl | hrest
    · exact le_rfl
    · have hcompare := (List.pairwise_cons.1 hordered).1 m hrest
      exact compare_le_iff_le.1 (Ordering.isLE_iff_ne_gt.1 hcompare)
  cases limit with
  | none => cases hexceeds
  | some limit =>
    have hover : limit.max < l.spent := by simpa [exceeds] using hexceeds
    simpa [exceeds] using hover.trans_le hle

/-- A search in whose queue all labels are over the limit is over. -/
lemma step_of_exceeds {limit : Option (Limit α K)} {s : State K}
    (h : ∀ l ∈ s.queue, exceeds limit l = true) : step g cost limit s = none := by
  cases hq : s.queue with
  | nil => simp [step, hq]
  | cons l rest => simp [step, hq, h l (hq ▸ List.mem_cons_self)]

/-- A label that is seen for one target is over the limit if it is among all targets. -/
lemma exceeds_only {limit : Option (Limit α K)} {i : Nat} {s : State K}
    (h : ∀ l ∈ s.queue, exceeds limit l = true) :
    ∀ l ∈ ((View.only limit i).state s).queue, exceeds limit l = true := by
  intro l' hl'
  obtain ⟨l, hl, hlabel⟩ := List.mem_filterMap.1 hl'
  have hspent : l'.spent = l.spent := ((View.only limit i).of_label hlabel).2.2.2.2.1
  rw [exceeds, hspent]
  exact h l hl

/-! ### Routes among other targets -/

/-- With no limit, or one on the cost of the search, a target ends up with the route that it has
alone. -/
lemma route?_run_eq_alone (hg : g.Built) (max : Option K) {i : Nat} {target : Spot K}
    (hi : targets[i]? = some target) :
    route? g (run g cost (max.map (Limit.mk cost)) (budget g sources targets)
        (initial g cost (max.map (Limit.mk cost)) sources targets)) i =
      alone g cost (max.map (Limit.mk cost)) sources target := by
  set limit := max.map (Limit.mk cost) with hlimit
  set s := run g cost limit (budget g sources targets) (initial g cost limit sources targets)
    with hs
  cases hindex : g.indexOf? target.edge with
  | none =>
    exact (route?_run_of_unknown hi hindex _).trans
      (route?_run_of_unknown (show [target][0]? = some target from rfl) hindex _).symm
  | some j =>
    have hgoal : (⟨i, j, target.fraction⟩ : Goal K) ∈ goals g targets :=
      mem_goals.2 ⟨target, hi, hindex, rfl⟩
    have hfollows : Follows g cost limit sources target ⟨i, j, target.fraction⟩ s :=
      follows_run hg hgoal hi (budget g sources targets)
    rcases hfollows.answer hg (sound_run _) (step_run_budget hg) with heq | ⟨-, n, -, -, hblocked⟩
    · exact heq
    · refine hfollows.route?_eq_alone hg (step_of_exceeds (exceeds_only ?_))
      -- the goal that blocks the search has the first label, which is over the limit
      obtain ⟨l, hl, hgoal⟩ := Option.bind_eq_some_iff.1 hblocked
      split at hgoal
      · next hexceeds =>
        cases max with
        | none => cases hexceeds
        | some max =>
          exact exceeds_of_head (ordered_run limit _) (spent_eq_cost max _) hl hexceeds
      · cases hgoal

end Search

open Search

/-- **Targets do not influence one another**: with no limit, or one on the cost of the search, the
answer for each of several targets is the one for that target alone. It has the same source and the
same edges, or there is none for both, whatever the costs and the positions, and also where several
paths cost the same. -/
theorem routes_independent (hg : g.Built) (cost : Cost α K) (max : Option K)
    (sources : List (Spot K)) {i : Nat} {target : Spot K} (hi : targets[i]? = some target) :
    ∃ answer, (g.routes cost (max.map (Limit.mk cost)) sources targets)[i]? = some answer ∧
      g.routes cost (max.map (Limit.mk cost)) sources [target] = [answer] :=
  ⟨_, Graph.getElem?_routes (List.getElem?_eq_some_iff.1 hi).1, by
    rw [route?_run_eq_alone hg max hi]
    rfl⟩

/-- A block with two ways around it, both of six, and a road on behind it. -/
def Graph.square : Graph ℚ :=
  (Graph.ofList [⟨1, 0, 1, 2⟩, ⟨2, 1, 2, 1⟩, ⟨3, 1, 3, 3⟩, ⟨4, 2, 4, 3⟩, ⟨5, 3, 4, 1⟩,
    ⟨6, 4, 5, 2⟩]).construct

/-- Both ways around the block cost seven to the target behind it, just the limit. Targets on both of
them, and one over the limit, do not change which one is taken. -/
theorem routes_independent_square :
    (Graph.square.routes Cost.weight (some ⟨Cost.weight, 7⟩) [⟨1, 0⟩]
        [⟨5, 1 / 2⟩, ⟨6, 1⟩, ⟨4, 1 / 2⟩, ⟨6, 1 / 2⟩])[3]? =
        some (some (⟨1, 0⟩, [1, 2, 4, 6])) ∧
      Graph.square.routes Cost.weight (some ⟨Cost.weight, 7⟩) [⟨1, 0⟩] [⟨6, 1 / 2⟩] =
        [some (⟨1, 0⟩, [1, 2, 4, 6])] ∧
      Path.cost Graph.square Cost.weight ⟨⟨1, 0⟩, ⟨6, 1 / 2⟩, [1, 2, 4, 6]⟩ = 7 ∧
      Path.cost Graph.square Cost.weight ⟨⟨1, 0⟩, ⟨6, 1 / 2⟩, [1, 3, 5, 6]⟩ = 7 := by
  have hroute : (Graph.square.routes Cost.weight (some ⟨Cost.weight, 7⟩) [⟨1, 0⟩]
      [⟨5, 1 / 2⟩, ⟨6, 1⟩, ⟨4, 1 / 2⟩, ⟨6, 1 / 2⟩])[3]? =
      some (some (⟨1, 0⟩, [1, 2, 4, 6])) := by decide +kernel
  have hbuilt : Graph.square.Built := (Graph.Built.ofList _).construct
  obtain ⟨answer, hanswer, halone⟩ := routes_independent hbuilt Cost.weight (some 7) [⟨1, 0⟩]
    (show [(⟨5, 1 / 2⟩ : Spot ℚ), ⟨6, 1⟩, ⟨4, 1 / 2⟩, ⟨6, 1 / 2⟩][3]? = some _ from rfl)
  obtain rfl : some (⟨1, 0⟩, [1, 2, 4, 6]) = answer := Option.some.inj (hroute.symm.trans hanswer)
  exact ⟨hroute, halone, by decide +kernel, by decide +kernel⟩

/-- The routes from one source to several targets are those to each of them. -/
theorem routesFrom_eq_map (hg : g.Built) (cost : Cost α K) (max : Option K) (source : Spot K)
    (targets : List (Spot K)) :
    g.routesFrom cost (max.map (Limit.mk cost)) source targets =
      targets.map fun target => Graph.route? g cost (max.map (Limit.mk cost)) source target := by
  refine List.ext_getElem? fun i => ?_
  rw [Graph.routesFrom, List.getElem?_map, List.getElem?_map]
  cases hi : targets[i]? with
  | none =>
    rw [List.getElem?_eq_none (by simpa [Graph.routes] using hi)]
    rfl
  | some target =>
    rw [Graph.getElem?_routes (List.getElem?_eq_some_iff.1 hi).1, route?_run_eq_alone hg max hi]
    rfl

end RoadMatching
