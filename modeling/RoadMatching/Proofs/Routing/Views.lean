import RoadMatching.Proofs.Routing.Queue
import RoadMatching.Proofs.Routing.Soundness

/-!
What one search sees of another one.

Two searches with the same costs and the same sources take the same labels in the same order, even if
one of them has further goals or keeps to a limit. The one then is a view of the other: it leaves out
the labels of the goals that it does not have, and it has its own account of what is spent.

* `View`: which goals are seen, under which places, and how much of what is spent.
* `View.state_initial`, `View.state_step`: the view of the first state is the first state of the other
  search, and a step on a label that is seen is a step of the other search. On another label the view
  stays as it is.
* `View.route?_state`: the same routes are seen.
* `Steps`: some steps of a search. `Steps.to_end`: after any of them the end is still ahead;
  `Steps.route?_eq`: a route that is finished stays as it is.
-/

namespace RoadMatching.Search

variable {α K : Type}

/-! ### Views -/

section Views

variable [Zero K] [Add K] [Sub K]

/-- What a search with one limit sees of a search with another one: some of its goals, each under a
place of its own, and of what is spent as much as its own labels spend. -/
structure View (limit seen : Option (Limit α K)) where
  place : Nat → Option Nat
  spent : K → K
  place_inj : ∀ {m n k : Nat}, place m = some k → place n = some k → m = n
  spent_part : ∀ label x, spent (spentPart limit label x) = spentPart seen label x
  spent_add : ∀ label x, spent (x + spentFull limit label) = spent x + spentFull seen label
  spent_sub : ∀ label x y, spent (x - spentPart limit label y) = spent x - spentPart seen label y

namespace View

variable {limit seen : Option (Limit α K)} (v : View limit seen)

/-- A label that is seen. -/
def whole (l : Label K) : Label K := { l with spent := v.spent l.spent }

/-- A label, if its goal is seen. -/
def label (l : Label K) : Option (Label K) :=
  match l.goal with
  | none => some (v.whole l)
  | some place => (v.place place).map fun p => { v.whole l with goal := some p }

/-- A goal, if it is seen. -/
def goal (x : Goal K) : Option (Goal K) := (v.place x.place).map fun p => { x with place := p }

/-- A state, as it is seen. -/
def state (s : State K) : State K where
  queue := s.queue.filterMap v.label
  entries := s.entries.map v.whole
  pending := s.pending.filterMap v.goal
  finishes := s.finishes.filterMap v.label

lemma label_of_full {l : Label K} (h : l.goal = none) : v.label l = some (v.whole l) := by
  rw [label, h]

lemma label_of_seen {l : Label K} {place p : Nat} (h : l.goal = some place)
    (hp : v.place place = some p) : v.label l = some { v.whole l with goal := some p } := by
  rw [label, h]
  simp [hp]

lemma label_of_unseen {l : Label K} {place : Nat} (h : l.goal = some place)
    (hp : v.place place = none) : v.label l = none := by
  rw [label, h]
  simp [hp]

/-- A label is seen with its edge and the label before it, its cost and its origin. -/
lemma of_label {l l' : Label K} (h : v.label l = some l') :
    l'.edge = l.edge ∧ l'.previous = l.previous ∧ l'.cost = l.cost ∧ l'.origin = l.origin ∧
      l'.spent = v.spent l.spent ∧ l'.goal = l.goal.bind v.place := by
  cases hgoal : l.goal with
  | none =>
    rw [v.label_of_full hgoal, Option.some.injEq] at h
    subst h
    exact ⟨rfl, rfl, rfl, rfl, rfl, hgoal⟩
  | some place =>
    cases hp : v.place place with
    | none =>
      rw [v.label_of_unseen hgoal hp] at h
      cases h
    | some p =>
      rw [v.label_of_seen hgoal hp, Option.some.injEq] at h
      subst h
      exact ⟨rfl, rfl, rfl, rfl, rfl, hp.symm⟩

lemma cost_of_label (l l' : Label K) (h : v.label l = some l') : l'.cost = l.cost :=
  (v.of_label h).2.2.1

lemma of_goal {x y : Goal K} (h : v.goal x = some y) :
    v.place x.place = some y.place ∧ y.edge = x.edge ∧ y.fraction = x.fraction := by
  obtain ⟨p, hp, rfl⟩ := Option.map_eq_some_iff.1 h
  exact ⟨hp, rfl, rfl⟩

/-- Choosing among goals and seeing them may change places. -/
lemma filter_filterMap_goal {p q : Goal K → Bool} (h : ∀ x y, v.goal x = some y → p y = q x)
    (xs : List (Goal K)) : (xs.filterMap v.goal).filter p = (xs.filter q).filterMap v.goal := by
  induction xs with
  | nil => rfl
  | cons x xs ih =>
    cases hx : v.goal x with
    | none =>
      rw [List.filterMap_cons_none hx, ih, List.filter_cons]
      split
      · rw [List.filterMap_cons_none hx]
      · rfl
    | some y =>
      rw [List.filterMap_cons_some hx, List.filter_cons, List.filter_cons, h x y hx, ih]
      split
      · rw [List.filterMap_cons_some hx]
      · rfl

lemma goalsOn_state (s : State K) (edge : Nat) :
    (v.state s).goalsOn edge = (s.goalsOn edge).filterMap v.goal :=
  v.filter_filterMap_goal (fun _ _ h => by rw [(v.of_goal h).2.1]) s.pending

lemma entry?_state (s : State K) (edge : Nat) :
    State.entry? (v.state s) edge = ( s.entry? edge).map v.whole := by
  rw [State.entry?, state, List.find?_map]
  rfl

/-! ### Moves -/

section Moves

variable [Ord K] [Std.TransOrd K] {s : State K} {l l' : Label K}

lemma state_push (h : Ordered s.queue) (hl : v.label l = some l') :
    v.state (s.push l) = (v.state s).push l' := by
  simp only [state, State.push, filterMap_enqueue v.cost_of_label h hl]

omit [Std.TransOrd K] in
lemma state_push_unseen (hl : v.label l = none) : v.state (s.push l) = v.state s := by
  simp only [state, State.push, filterMap_enqueue_unseen hl]

lemma state_enter (h : Ordered s.queue) (hl : l.goal = none) :
    v.state (s.enter l) = (v.state s).enter (v.whole l) := by
  have hpush := v.state_push h (v.label_of_full hl)
  simp only [State.enter, ← hpush]
  rfl

variable [One K] (cost : Cost α K) (edge : Edge α)

omit [Ord K] [Std.TransOrd K] in
/-- The label up to a goal is seen if the goal is. -/
lemma label_upTo (l : Label K) (x : Goal K) :
    v.label (upTo cost limit edge l x) = (v.goal x).map (upTo cost seen edge (v.whole l)) := by
  cases hp : v.place x.place with
  | none => simp [label, goal, upTo, hp]
  | some p => simp [label, goal, upTo, whole, hp, v.spent_sub]

/-- The labels of those goals wait that are seen. -/
lemma state_foldl_push (l : Label K) (goals : List (Goal K)) (h : Ordered s.queue) :
    v.state (goals.foldl (fun s x => s.push (upTo cost limit edge l x)) s) =
        (goals.filterMap v.goal).foldl (fun s x => s.push (upTo cost seen edge (v.whole l) x))
          (v.state s) ∧
      Ordered (goals.foldl (fun s x => s.push (upTo cost limit edge l x)) s).queue := by
  induction goals generalizing s with
  | nil => exact ⟨rfl, h⟩
  | cons x goals ih =>
    have hx := v.label_upTo cost edge l x
    obtain ⟨hrest, hordered⟩ := ih (s := s.push (upTo cost limit edge l x)) (h.enqueue _)
    refine ⟨?_, hordered⟩
    rw [List.foldl_cons, hrest]
    cases hgoal : v.goal x with
    | none =>
      rw [hgoal] at hx
      rw [List.filterMap_cons_none hgoal, v.state_push_unseen hx]
    | some y =>
      rw [hgoal] at hx
      rw [List.filterMap_cons_some hgoal, List.foldl_cons, v.state_push h hx]

variable [LT K] [DecidableLT K] (g : Graph α)

/-- The moves of a source are seen as its moves. -/
lemma state_start (source : Spot K) (h : Ordered s.queue) :
    v.state (start g cost limit s source) = start g cost seen (v.state s) source ∧
      Ordered (start g cost limit s source).queue := by
  rw [start, start]
  cases hi : g.indexOf? source.edge with
  | none => exact ⟨rfl, h⟩
  | some index =>
    cases he : g.at? index with
    | none => simpa [he] using h
    | some e =>
      have hwhole : v.whole (startLabel cost limit index e source) =
          startLabel cost seen index e source := by
        simp [whole, startLabel, v.spent_part]
      have hahead : ((v.state s).goalsOn index).filter
            (fun x => !decide (x.fraction < source.fraction)) =
          ((s.goalsOn index).filter fun x => !decide (x.fraction < source.fraction)).filterMap
            v.goal := by
        rw [goalsOn_state]
        exact v.filter_filterMap_goal (fun _ _ hx => by rw [(v.of_goal hx).2.2]) _
      simp only [he, hahead, entry?_state]
      obtain ⟨hreached, hordered⟩ := v.state_foldl_push cost e
        (startLabel cost limit index e source)
        ((s.goalsOn index).filter fun x => !decide (x.fraction < source.fraction)) h
      rw [hwhole] at hreached
      have henter := v.state_enter hordered (l := startLabel cost limit index e source) rfl
      rw [hwhole, hreached] at henter
      cases hentry : s.entry? index with
      | none => exact ⟨henter, hordered.enqueue _⟩
      | some old =>
        have hold : (v.whole old).cost = old.cost := rfl
        have hstart : (startLabel cost seen index e source).cost =
            (startLabel cost limit index e source).cost := rfl
        simp only [Option.map_some, hold, hstart]
        split
        · exact ⟨henter, hordered.enqueue _⟩
        · exact ⟨hreached, hordered⟩

/-- The first state is seen as the first state. -/
lemma state_initial (sources : List (Spot K)) {targets others : List (Spot K)}
    (hgoals : (goals g targets).filterMap v.goal = goals g others) :
    v.state (initial g cost limit sources targets) = initial g cost seen sources others ∧
      Ordered (initial g cost limit sources targets).queue := by
  have key : ∀ (rest : List (Spot K)) (s : State K), Ordered s.queue →
      v.state (rest.foldl (start g cost limit) s) =
          rest.foldl (start g cost seen) (v.state s) ∧
        Ordered (rest.foldl (start g cost limit) s).queue := by
    intro rest
    induction rest with
    | nil => exact fun s h => ⟨rfl, h⟩
    | cons source rest ih =>
      intro s h
      obtain ⟨hstart, hordered⟩ := v.state_start cost g source h
      obtain ⟨hrest, hordered⟩ := ih _ hordered
      refine ⟨?_, hordered⟩
      rw [List.foldl_cons, hrest, hstart, List.foldl_cons]
  obtain ⟨hstate, hordered⟩ := key sources ⟨[], [], goals g targets, []⟩ List.Pairwise.nil
  refine ⟨?_, hordered⟩
  rw [initial, hstate, initial]
  simp only [state, hgoals, List.filterMap_nil, List.map_nil]

omit [LT K] [DecidableLT K] in
/-- The moves to a successor are seen as the moves to it. -/
lemma state_advance (index : Nat) (h : Ordered s.queue) :
    v.state (advance g cost limit l s index) = advance g cost seen (v.whole l) (v.state s) index ∧
      Ordered (advance g cost limit l s index).queue := by
  rw [advance, advance]
  cases he : g.at? index with
  | none => exact ⟨rfl, h⟩
  | some e =>
    have hwhole : v.whole (nextLabel cost limit l index e) =
        nextLabel cost seen (v.whole l) index e := by
      simp [whole, nextLabel, v.spent_add]
    simp only [goalsOn_state, entry?_state, Option.isSome_map]
    obtain ⟨hreached, hordered⟩ := v.state_foldl_push cost e
      (nextLabel cost limit l index e) (s.goalsOn index) h
    rw [hwhole] at hreached
    have henter := v.state_enter hordered (l := nextLabel cost limit l index e) rfl
    rw [hwhole, hreached] at henter
    split
    · exact ⟨hreached, hordered⟩
    · exact ⟨henter, hordered.enqueue _⟩

omit [LT K] [DecidableLT K] in
/-- An expansion is seen as an expansion. -/
lemma state_expand (h : Ordered s.queue) :
    v.state (expand g cost limit l s) = expand g cost seen (v.whole l) (v.state s) ∧
      Ordered (expand g cost limit l s).queue := by
  have key : ∀ (rest : List Nat) (s : State K), Ordered s.queue →
      v.state (rest.foldl (advance g cost limit l) s) =
          rest.foldl (advance g cost seen (v.whole l)) (v.state s) ∧
        Ordered (rest.foldl (advance g cost limit l) s).queue := by
    intro rest
    induction rest with
    | nil => exact fun s h => ⟨rfl, h⟩
    | cons index rest ih =>
      intro s h
      obtain ⟨hfirst, hordered⟩ := v.state_advance cost g index h
      obtain ⟨hrest, hordered⟩ := ih _ hordered
      refine ⟨?_, hordered⟩
      rw [List.foldl_cons, hrest, hfirst, List.foldl_cons]
  exact key _ s h

end Moves

/-! ### Finished goals -/

/-- A goal that is seen is seen to be finished. -/
lemma isFinished_state (s : State K) {place p : Nat} (hp : v.place place = some p) :
    (v.state s).isFinished p = s.isFinished place := by
  rw [Bool.eq_iff_iff, State.isFinished_iff, State.isFinished_iff]
  simp only [state, List.mem_filterMap]
  constructor
  · rintro ⟨l', ⟨l, hl, hl'⟩, hgoal⟩
    rw [(v.of_label hl').2.2.2.2.2, Option.bind_eq_some_iff] at hgoal
    obtain ⟨n, hn, hp'⟩ := hgoal
    exact ⟨l, hl, by rw [hn, v.place_inj hp' hp]⟩
  · rintro ⟨l, hl, hgoal⟩
    exact ⟨_, ⟨l, hl, v.label_of_seen hgoal hp⟩, rfl⟩

/-- Finishing a goal that is seen is seen as finishing it. -/
lemma state_finish (s : State K) {l : Label K} {place p : Nat} (hgoal : l.goal = some place)
    (hp : v.place place = some p) :
    v.state (finish l place s) = finish { v.whole l with goal := some p } p (v.state s) := by
  rw [finish, finish, v.isFinished_state s hp]
  split
  · rfl
  · have hpending : (s.pending.filterMap v.goal).filter (fun x => x.place != p) =
        (s.pending.filter fun x => x.place != place).filterMap v.goal := by
      refine v.filter_filterMap_goal (fun x y hy => ?_) s.pending
      have hx := (v.of_goal hy).1
      rw [Bool.eq_iff_iff]
      simp only [bne_iff_ne, ne_eq, not_iff_not]
      constructor
      · intro hyp
        rw [hyp] at hx
        exact v.place_inj hx hp
      · intro hxp
        rw [hxp, hp, Option.some.injEq] at hx
        exact hx.symm
    simp only [state, hpending, List.filterMap_cons_some (v.label_of_seen hgoal hp)]

/-- Finishing a goal that is not seen is not seen. -/
lemma state_finish_unseen (s : State K) {l : Label K} {place : Nat} (hgoal : l.goal = some place)
    (hp : v.place place = none) : v.state (finish l place s) = v.state s := by
  rw [finish]
  split
  · rfl
  · have hpending : (s.pending.filter fun x => x.place != place).filterMap v.goal =
        s.pending.filterMap v.goal := by
      rw [← v.filter_filterMap_goal (p := fun _ => true) (fun x y hy => ?_), List.filter_true]
      have hx := (v.of_goal hy).1
      have hne : x.place ≠ place := by
        rintro rfl
        rw [hp] at hx
        cases hx
      simp [hne]
    simp only [state, hpending, List.filterMap_cons_none (v.label_of_unseen hgoal hp)]

/-! ### Steps -/

variable [One K] [LT K] [DecidableLT K] [Ord K] [Std.TransOrd K] {g : Graph α} {cost : Cost α K}
  {s t : State K}

/-- A step on a label that is seen is a step of the search that sees it, unless that search is over;
a step on another label is not seen. -/
theorem state_step (h : Ordered s.queue) (hstep : step g cost limit s = some t) :
    Ordered t.queue ∧ ∃ l rest, s.queue = l :: rest ∧
      (v.label l = none ∧ v.state t = v.state s ∨
        ∃ l', v.label l = some l' ∧ ((v.state s).pending ≠ [] → exceeds seen l' = false →
          step g cost seen (v.state s) = some (v.state t))) := by
  obtain ⟨l, rest, hq, -, hcases⟩ := step_cases hstep
  have hrest : Ordered rest := by
    rw [hq] at h
    exact (List.pairwise_cons.1 h).2
  rcases hcases with ⟨hgoal, rfl⟩ | ⟨place, hgoal, rfl⟩
  · obtain ⟨hexpand, hordered⟩ := v.state_expand cost g (l := l)
      (s := { s with queue := rest }) hrest
    refine ⟨hordered, l, rest, hq, .inr ⟨_, v.label_of_full hgoal, fun hp hl => ?_⟩⟩
    have hqueue : (v.state s).queue = v.whole l :: rest.filterMap v.label := by
      rw [state, hq, List.filterMap_cons_some (v.label_of_full hgoal)]
    have hfull : (v.whole l).goal = none := hgoal
    rw [step, hqueue]
    simp only [List.isEmpty_eq_false_iff.2 hp, hl, Bool.or_self, Bool.false_eq_true, if_false,
      hfull]
    rw [hexpand]
    rfl
  · have hqueue' : (finish l place { s with queue := rest }).queue = rest := by
      rw [finish]
      split <;> rfl
    refine ⟨by rwa [hqueue'], l, rest, hq, ?_⟩
    cases hp : v.place place with
    | none =>
      refine .inl ⟨v.label_of_unseen hgoal hp, ?_⟩
      rw [v.state_finish_unseen _ hgoal hp, state, state, hq,
        List.filterMap_cons_none (v.label_of_unseen hgoal hp)]
    | some p =>
      refine .inr ⟨_, v.label_of_seen hgoal hp, fun hpending hl => ?_⟩
      have hqueue : (v.state s).queue =
          { v.whole l with goal := some p } :: rest.filterMap v.label := by
        rw [state, hq, List.filterMap_cons_some (v.label_of_seen hgoal hp)]
      rw [step, hqueue]
      simp only [List.isEmpty_eq_false_iff.2 hpending, hl, Bool.or_self, Bool.false_eq_true,
        if_false]
      rw [v.state_finish _ hgoal hp]
      rfl

/-! ### Routes -/

omit [One K] [LT K] [DecidableLT K] [Ord K] [Std.TransOrd K] in
/-- The chain of a label that is seen has the same edges and origins. -/
lemma readOff_chain (entries : List (Label K)) {l l' : Label K} (h : v.label l = some l') :
    readOff g (chain (entries.map v.whole) l') = readOff g (chain entries l) := by
  obtain ⟨hedge, hprevious, -, horigin, -⟩ := v.of_label h
  have hchain : ∀ entries : List (Label K), ∀ l : Label K,
      chain (entries.map v.whole) (v.whole l) = (chain entries l).map v.whole := by
    intro entries
    induction entries with
    | nil => exact fun l => rfl
    | cons entry older ih =>
      intro l
      have hprevious : (v.whole l).previous = l.previous := rfl
      have hentry : (v.whole entry).edge = entry.edge := rfl
      rw [List.map_cons, chain, chain, hprevious, hentry]
      split
      · rw [ih entry, List.map_append, List.map_singleton]
      · exact ih l
  have hread : ∀ labels : List (Label K), readOff g (labels.map v.whole) = readOff g labels := by
    intro labels
    simp only [readOff, List.head?_map, List.mapM_map, Option.bind_map]
    rfl
  rw [readOff_chain_congr (m := v.whole l) hprevious hedge horigin, hchain, hread]

omit [One K] [LT K] [DecidableLT K] [Ord K] [Std.TransOrd K] in
/-- The route to a goal is seen as it is. -/
theorem route?_state (s : State K) {place p : Nat} (hp : v.place place = some p) :
    route? g (v.state s) p = route? g s place := by
  have hfind : ∀ labels : List (Label K),
      (labels.filterMap v.label).find? (fun l => l.goal == some p) =
        (labels.find? fun l => l.goal == some place).bind v.label := by
    intro labels
    induction labels with
    | nil => rfl
    | cons l labels ih =>
      by_cases hgoal : l.goal = some place
      · rw [List.filterMap_cons_some (v.label_of_seen hgoal hp),
          List.find?_cons_of_pos (by simp), List.find?_cons_of_pos (by simp [hgoal]),
          Option.bind_some, v.label_of_seen hgoal hp]
      · rw [List.find?_cons_of_neg (by simpa using hgoal), ← ih]
        cases hl : v.label l with
        | none => rw [List.filterMap_cons_none hl]
        | some l' =>
          rw [List.filterMap_cons_some hl, List.find?_cons_of_neg]
          simp only [beq_iff_eq, (v.of_label hl).2.2.2.2.2, Option.bind_eq_some_iff, not_exists,
            not_and]
          intro n hn hp'
          exact hgoal (by rw [hn, v.place_inj hp' hp])
  rw [route?_eq, route?_eq, state, hfind]
  cases hl : s.finishes.find? fun l => l.goal == some place with
  | none => rfl
  | some l =>
    have hgoal : l.goal = some place := by simpa using List.find?_some hl
    rw [Option.bind_some, v.label_of_seen hgoal hp, Option.bind_some, Option.bind_some]
    exact v.readOff_chain s.entries (v.label_of_seen hgoal hp)

end View

end Views

/-! ### Runs -/

section Runs

variable [Zero K] [One K] [Add K] [Sub K] [LT K] [DecidableLT K] [Ord K] {g : Graph α}
  {cost : Cost α K} {limit : Option (Limit α K)} {s t : State K}

/-- Some steps of a search. -/
abbrev Steps (g : Graph α) (cost : Cost α K) (limit : Option (Limit α K)) :
    State K → State K → Prop :=
  Relation.ReflTransGen fun s t => step g cost limit s = some t

/-- A run takes some steps. -/
lemma steps_run (fuel : Nat) (s : State K) : Steps g cost limit s (run g cost limit fuel s) :=
  run_induction fuel .refl fun _ _ hstep h => h.tail hstep

/-- A search has one end, and all its steps lead there. -/
lemma Steps.to_end {final : State K} (h : Steps g cost limit s t)
    (hfinal : Steps g cost limit s final) (hover : step g cost limit final = none) :
    Steps g cost limit t final := by
  have hunique : Relator.RightUnique fun s t : State K => step g cost limit s = some t :=
    fun s t u ht hu => Option.some.inj (ht.symm.trans hu)
  rcases Relation.ReflTransGen.total_of_right_unique hunique h hfinal with h | h
  · exact h
  · rcases Relation.ReflTransGen.cases_head h with rfl | ⟨u, hu, -⟩
    · exact .refl
    · rw [hover] at hu
      cases hu

/-- The labels of a search stand for what they say after any steps. -/
lemma Steps.sound {sources targets : List (Spot K)} (h : Steps g cost limit s t)
    (hs : Sound g cost limit sources targets s) : Sound g cost limit sources targets t := by
  induction h with
  | refl => exact hs
  | tail _ hstep ih => exact ih.step hstep

/-- The route to a finished goal is the same after any steps. -/
lemma Steps.route?_eq {sources targets : List (Spot K)} (h : Steps g cost limit s t)
    (hs : Sound g cost limit sources targets s) {place : Nat} (hdone : s.isFinished place = true) :
    route? g t place = route? g s place := by
  suffices hall : t.isFinished place = true ∧ route? g t place = route? g s place from hall.2
  induction h with
  | refl => exact ⟨hdone, rfl⟩
  | tail hsteps hstep ih =>
    obtain ⟨hdone', hroute⟩ := ih
    obtain ⟨hdone'', hroute'⟩ := (Steps.sound hsteps hs).route?_step hstep hdone'
    exact ⟨hdone'', hroute'.trans hroute⟩

end Runs

end RoadMatching.Search
