import RoadMatching.Proofs.Routing.Budget
import RoadMatching.Proofs.Routing.Views

/-!
What further targets do to the route to one of them.

One search serves all its targets. It goes on as the search for a single target would, with labels
for the other targets in between, until it ends. It may end too soon: a label for another target that
has spent more than the limit ends it, even though labels within the limit wait behind.

* `View.only`: what the search for one target sees, which is the goal of that target.
  `filterMap_goal_only`: it is the only one.
* `Follows`: a search with further targets is as far as the search for one of them, or further;
  `Follows.step` and `follows_run` keep it, and `Follows.answer` reads the route off.
* `blocker?`: the goal whose label stands over the limit at the head of the queue.
* `Graph.blocker?`: the target whose label ends the search.
* `routes_alone`: a target has the route among others that it has alone, or none if the label of
  another target ends the search.
-/

namespace RoadMatching

variable {α K : Type} [Zero K] [One K] [Add K] [Sub K] {g : Graph α} {cost : Cost α K}
  {limit : Option (Limit α K)} {sources targets : List (Spot K)}

namespace Search

/-! ### The view of one target -/

/-- The search for one target sees its goal, at the first place. -/
def View.only (limit : Option (Limit α K)) (i : Nat) : View limit limit where
  place n := if n = i then some 0 else none
  spent := id
  place_inj {m n k} hm hn := by
    split_ifs at hm hn with h h'
    rw [h, h']
  spent_part _ _ := rfl
  spent_add _ _ := rfl
  spent_sub _ _ _ := rfl

omit [One K] in
/-- Of the goals it sees that of its target. -/
lemma filterMap_goal_only {i : Nat} {target : Spot K} (hi : targets[i]? = some target) :
    (goals g targets).filterMap (View.only limit i).goal = goals g [target] := by
  obtain ⟨hlen, htarget⟩ := List.getElem?_eq_some_iff.1 hi
  have hsplit : targets = targets.take i ++ target :: targets.drop (i + 1) := by
    rw [← htarget, List.getElem_cons_drop, List.take_append_drop]
  have hother : ∀ (others : List (Spot K)) (n : Nat), (∀ p ∈ others.zipIdx n, p.2 ≠ i) →
      ((others.zipIdx n).filterMap fun p =>
        ((g.indexOf? p.1.edge).map fun edge => (⟨p.2, edge, p.1.fraction⟩ : Goal K)).bind
          (View.only limit i).goal) = [] := by
    intro others n hne
    refine List.filterMap_eq_nil_iff.2 fun p hp => ?_
    cases g.indexOf? p.1.edge <;> simp [View.goal, View.only, hne p hp]
  have hlength : (targets.take i).length = i := by
    rw [List.length_take]
    omega
  rw [goals, List.filterMap_filterMap, goals]
  conv_lhs => rw [hsplit]
  rw [List.zipIdx_append, List.filterMap_append, hother _ _ fun p hp => ?before, List.nil_append,
    List.zipIdx_cons, List.filterMap_cons, hother _ _ fun p hp => ?behind, hlength]
  · cases hindex : g.indexOf? target.edge <;> simp [View.goal, View.only, hindex]
  case before =>
    have := List.snd_lt_of_mem_zipIdx hp
    omega
  case behind =>
    have := List.le_snd_of_mem_zipIdx hp
    omega

/-! ### Searching among other targets -/

variable [LT K] [DecidableLT K] [Ord K]

/-- The goal whose label stands over the limit at the head of the queue. -/
def blocker? (limit : Option (Limit α K)) (s : State K) : Option Nat :=
  s.queue.head?.bind fun l => if exceeds limit l then l.goal else none

omit [Ord K] in
/-- The goal whose label stands over the limit is that of a target. -/
lemma Sound.blocker_lt {s : State K} (h : Sound g cost limit sources targets s) {j : Nat}
    (hj : blocker? limit s = some j) : j < targets.length := by
  obtain ⟨l, hl, hgoal⟩ := Option.bind_eq_some_iff.1 hj
  split at hgoal
  · obtain ⟨-, goal, -, -, rfl, hgoals, -⟩ := h.reached l (List.mem_of_head? hl) j hgoal
    obtain ⟨target, htarget, -⟩ := mem_goals.1 hgoals
    exact (List.getElem?_eq_some_iff.1 htarget).1
  · cases hgoal

/-- A goal that is left is still left after a step, or finished by it. -/
lemma pending_or_finished_of_step {s t : State K} (hstep : step g cost limit s = some t)
    {goal : Goal K} (hgoal : goal ∈ s.pending) :
    goal ∈ t.pending ∨ t.isFinished goal.place = true := by
  obtain ⟨l, rest, -, -, ⟨-, rfl⟩ | ⟨place, hplace, rfl⟩⟩ := step_cases hstep
  · rw [(extends_expand l _).pending]
    exact .inl hgoal
  · rw [finish]
    split
    · exact .inl hgoal
    · by_cases heq : goal.place = place
      · exact .inr (by simp [State.isFinished, hplace, heq])
      · exact .inl (List.mem_filter.2 ⟨hgoal, by simpa using heq⟩)

/-- The route to a target that is searched for alone. -/
def alone (g : Graph α) (cost : Cost α K) (limit : Option (Limit α K)) (sources : List (Spot K))
    (target : Spot K) : Option (Spot K × List Int) :=
  route? g (run g cost limit (budget g sources [target]) (initial g cost limit sources [target])) 0

/-- How far a search has got with a goal: the search for its target alone is as far, or the goal is
finished by the same route. -/
inductive Follows (g : Graph α) (cost : Cost α K) (limit : Option (Limit α K))
    (sources : List (Spot K)) (target : Spot K) (goal : Goal K) (s : State K) : Prop
  | underway (hgoal : goal ∈ s.pending) (hnot : s.isFinished goal.place = false)
      (hsteps : Steps g cost limit (initial g cost limit sources [target])
        ((View.only limit goal.place).state s))
  | finished (hdone : s.isFinished goal.place = true)
      (hroute : route? g s goal.place = alone g cost limit sources target)

variable [Std.TransOrd K]

/-- Every step takes both searches further, or the one with more targets only. -/
lemma Follows.step (hg : g.Built) {s t : State K} (hsound : Sound g cost limit sources targets s)
    (hordered : Ordered s.queue) {target : Spot K} {goal : Goal K}
    (h : Follows g cost limit sources target goal s)
    (hstep : Search.step g cost limit s = some t) :
    Follows g cost limit sources target goal t := by
  cases h with
  | finished hdone hroute =>
    obtain ⟨hdone', hroute'⟩ := hsound.route?_step hstep hdone
    exact .finished hdone' (hroute'.trans hroute)
  | underway hgoal hnot hsteps =>
    set v := View.only limit goal.place with hv
    have hplace : v.place goal.place = some 0 := if_pos rfl
    have hsteps' : Steps g cost limit (initial g cost limit sources [target]) (v.state t) := by
      obtain ⟨-, l, rest, hq, ⟨-, hsame⟩ | ⟨l', hl', hseen⟩⟩ := v.state_step hordered hstep
      · exact hsame ▸ hsteps
      · obtain ⟨m, rest', hq', hwithin, -⟩ := step_cases hstep
        obtain ⟨rfl, -⟩ : l = m ∧ rest = rest' := List.cons_eq_cons.1 (hq.symm.trans hq')
        refine hsteps.tail (hseen ?_ ?_)
        · have hmem : ({ goal with place := 0 } : Goal K) ∈ (v.state s).pending :=
            List.mem_filterMap.2 ⟨goal, hgoal, by rw [View.goal, hplace]; rfl⟩
          exact List.ne_nil_of_mem hmem
        · have hspent : l'.spent = l.spent := (v.of_label hl').2.2.2.2.1
          rw [exceeds, hspent]
          exact hwithin
    cases hdone : t.isFinished goal.place with
    | false =>
      refine .underway ?_ hdone hsteps'
      exact (pending_or_finished_of_step hstep hgoal).resolve_right (by simp [hdone])
    | true =>
      refine .finished hdone ?_
      have hend := hsteps'.to_end (steps_run (budget g sources [target]) _) (step_run_budget hg)
      rw [alone, hend.route?_eq (hsteps'.sound sound_initial), v.route?_state t hplace]
      rw [v.isFinished_state t hplace]
      exact hdone

/-- A search with further targets follows the one for each of them. -/
lemma follows_run (hg : g.Built) {target : Spot K} {goal : Goal K} (hgoal : goal ∈ goals g targets)
    (htarget : targets[goal.place]? = some target) (fuel : Nat) :
    Follows g cost limit sources target goal
      (run g cost limit fuel (initial g cost limit sources targets)) := by
  obtain ⟨hstate, hordered⟩ := (View.only limit goal.place).state_initial cost g sources
    (filterMap_goal_only htarget)
  suffices h : Ordered (run g cost limit fuel (initial g cost limit sources targets)).queue ∧
      Sound g cost limit sources targets
        (run g cost limit fuel (initial g cost limit sources targets)) ∧
      Follows g cost limit sources target goal
        (run g cost limit fuel (initial g cost limit sources targets)) from h.2.2
  refine run_induction (motive := fun s => Ordered s.queue ∧ Sound g cost limit sources targets s ∧
    Follows g cost limit sources target goal s) fuel ⟨hordered, sound_initial, ?_⟩ ?_
  · have hinitial : State.Extends _ (initial g cost limit sources targets) := extends_initial
    refine .underway (hinitial.pending ▸ hgoal) ?_ (hstate ▸ .refl)
    rw [State.isFinished, hinitial.finishes]
    rfl
  · rintro s t hstep ⟨hs, hsound, h⟩
    obtain ⟨ht, -⟩ := (View.only limit goal.place).state_step hs hstep
    exact ⟨ht, hsound.step hstep, h.step hg hsound hs hstep⟩

omit [Std.TransOrd K] in
/-- If the search for the target alone would be over as well, the goal has the same route in both. -/
lemma Follows.route?_eq_alone (hg : g.Built) {s : State K} {target : Spot K} {goal : Goal K}
    (h : Follows g cost limit sources target goal s)
    (hover : Search.step g cost limit ((View.only limit goal.place).state s) = none) :
    route? g s goal.place = alone g cost limit sources target := by
  cases h with
  | finished _ hroute => exact hroute
  | underway _ _ hsteps =>
    have hend := hsteps.to_end (steps_run (budget g sources [target]) _) (step_run_budget hg)
    rcases Relation.ReflTransGen.cases_head hend with heq | ⟨t, ht, -⟩
    · rw [alone, ← heq, (View.only limit goal.place).route?_state s (if_pos rfl)]
    · rw [hover] at ht
      cases ht

omit [Std.TransOrd K] in
/-- When the search among other targets is over, it has the answer too, unless the label of another
goal blocks it. -/
lemma Follows.answer (hg : g.Built) {s : State K}
    (hsound : Sound g cost limit sources targets s) (hover : Search.step g cost limit s = none)
    {target : Spot K} {goal : Goal K} (h : Follows g cost limit sources target goal s) :
    route? g s goal.place = alone g cost limit sources target ∨
      route? g s goal.place = none ∧
        ∃ j, j ≠ goal.place ∧ j < targets.length ∧ blocker? limit s = some j := by
  cases h with
  | finished _ hroute => exact .inl hroute
  | underway hgoal hnot hsteps =>
    have h : Follows g cost limit sources target goal s := .underway hgoal hnot hsteps
    set v := View.only limit goal.place with hv
    have hplace : v.place goal.place = some 0 := if_pos rfl
    rcases step_eq_none hover with hq | hp | ⟨l, hl, hexceeds⟩
    · refine .inl (h.route?_eq_alone hg ?_)
      simp [Search.step, View.state, hq]
    · rw [hp] at hgoal
      cases hgoal
    · obtain ⟨rest, hq⟩ := List.head?_eq_some_iff.1 hl
      have hblocked : blocker? limit s = l.goal := by
        rw [blocker?, hl, Option.bind_some, if_pos hexceeds]
      cases hlabel : v.label l with
      | some l' =>
        refine .inl (h.route?_eq_alone hg ?_)
        have hspent : l'.spent = l.spent := (v.of_label hlabel).2.2.2.2.1
        have hexceeds' : exceeds limit l' = true := by
          rw [exceeds, hspent]
          exact hexceeds
        simp [Search.step, View.state, hq, List.filterMap_cons_some hlabel, hexceeds', ← hv]
      | none =>
        refine .inr ⟨route?_of_not_finished hnot, ?_⟩
        cases hother : l.goal with
        | none =>
          rw [v.label_of_full hother] at hlabel
          cases hlabel
        | some j =>
          rw [hother] at hblocked
          refine ⟨j, ?_, hsound.blocker_lt hblocked, hblocked⟩
          rintro rfl
          rw [v.label_of_seen hother hplace] at hlabel
          cases hlabel

omit [Std.TransOrd K] in
/-- A target on an edge that the graph does not have is no goal, and has no route. -/
lemma route?_run_of_unknown {i : Nat} {target : Spot K} (hi : targets[i]? = some target)
    (hindex : g.indexOf? target.edge = none) (fuel : Nat) :
    route? g (run g cost limit fuel (initial g cost limit sources targets)) i = none := by
  rw [Option.eq_none_iff_forall_not_mem]
  rintro ⟨source, ids⟩ hroute
  have hsound : Sound g cost limit sources targets _ := sound_run fuel
  obtain ⟨l, -, -, hmet, -⟩ := hsound.exists_met hroute
  obtain ⟨source', ids', -, c, harr⟩ := hmet.exists_route hsound.entries hi
  obtain ⟨j, hj⟩ := harr.known
  rw [hindex] at hj
  cases hj

end Search

open Search

variable [LT K] [DecidableLT K] [Ord K]

/-- The target whose label stands over the limit when the search ends. -/
def Graph.blocker? (g : Graph α) (cost : Cost α K) (limit : Option (Limit α K))
    (sources targets : List (Spot K)) : Option Nat :=
  Search.blocker? limit
    (run g cost limit (budget g sources targets) (initial g cost limit sources targets))

/-- **A target among others**: whatever the costs and the limit, a target has the same route among
others as it has alone, or it has none and the label of another target, over the limit, has ended the
search. -/
theorem routes_alone [Std.TransOrd K] (hg : g.Built) (cost : Cost α K)
    (limit : Option (Limit α K)) (sources : List (Spot K)) {i : Nat} {target : Spot K}
    (hi : targets[i]? = some target) :
    ∃ answer alone, (g.routes cost limit sources targets)[i]? = some answer ∧
      g.routes cost limit sources [target] = [alone] ∧
      (answer = alone ∨
        answer = none ∧
          ∃ j, j ≠ i ∧ j < targets.length ∧ g.blocker? cost limit sources targets = some j) := by
  have hlen : i < targets.length := (List.getElem?_eq_some_iff.1 hi).1
  refine ⟨_, alone g cost limit sources target, Graph.getElem?_routes hlen, rfl, ?_⟩
  cases hindex : g.indexOf? target.edge with
  | none =>
    exact .inl ((route?_run_of_unknown hi hindex _).trans
      (route?_run_of_unknown (show [target][0]? = some target from rfl) hindex _).symm)
  | some j =>
    have hgoal : (⟨i, j, target.fraction⟩ : Goal K) ∈ goals g targets :=
      mem_goals.2 ⟨target, hi, hindex, rfl⟩
    exact (follows_run hg hgoal hi (budget g sources targets)).answer hg (sound_run _)
      (step_run_budget hg)

end RoadMatching
