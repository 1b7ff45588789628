import RoadMatching.Proofs.Routing.Queue
import RoadMatching.Proofs.Routing.Steps

/-!
Every search ends.

A step takes one label. What it adds is bounded: an edge is entered once, and an expansion reaches a
goal on each successor at most once. The potential counts the labels that wait and the edges not
entered yet, at the price of what they can still bring.

* `potential`: the count; `potential_step` says that every step lowers it.
* `potential_initial_lt`: at the start it is below the budget of the search.
* `step_run_budget`: the search is over when its budget is used up, for any costs and any limit.
-/

namespace RoadMatching.Search

variable {α K : Type} {g : Graph α}

/-! ### Potential -/

/-- A label travelled in full brings itself and at most `reach` labels of goals. -/
def labelWeight (reach : Nat) (l : Label K) : Nat := if l.goal.isSome then 1 else 1 + reach

/-- The edges that have not been entered. -/
def unentered (g : Graph α) (s : State K) : Finset Nat :=
  (Finset.range g.size).filter fun i => (s.entry? i).isNone

/-- The labels that wait and the edges not entered, weighed by the labels they can bring. -/
def potential (g : Graph α) (reach : Nat) (s : State K) : Nat :=
  (s.queue.map (labelWeight reach)).sum + (1 + reach) * (unentered g s).card

lemma labelWeight_of_goal {reach : Nat} {l : Label K} {place : Nat} (h : l.goal = some place) :
    labelWeight reach l = 1 := by
  simp [labelWeight, h]

lemma labelWeight_of_full {reach : Nat} {l : Label K} (h : l.goal = none) :
    labelWeight reach l = 1 + reach := by
  simp [labelWeight, h]

lemma length_goals_le (g : Graph α) (targets : List (Spot K)) :
    (goals g targets).length ≤ targets.length := by
  refine (List.length_filterMap_le _ _).trans ?_
  rw [List.length_zipIdx]

section Queue

variable [Ord K]

lemma sum_enqueue (weight : Label K → Nat) (l : Label K) (queue : List (Label K)) :
    ((enqueue l queue).map weight).sum = weight l + (queue.map weight).sum := by
  rw [((enqueue_perm l queue).map weight).sum_eq, List.map_cons, List.sum_cons]

lemma potential_push (reach : Nat) (s : State K) {l : Label K} {place : Nat}
    (h : l.goal = some place) :
    potential g reach (s.push l) = potential g reach s + 1 := by
  have hsum : ((s.push l).queue.map (labelWeight reach)).sum =
      labelWeight reach l + (s.queue.map (labelWeight reach)).sum := sum_enqueue _ l s.queue
  have hcard : unentered g (s.push l) = unentered g s := rfl
  rw [potential, hsum, hcard, labelWeight_of_goal h, potential]
  omega

lemma potential_foldl_push (reach : Nat) {f : Goal K → Label K}
    (hf : ∀ goal, (f goal).goal = some goal.place) (goals : List (Goal K)) (s : State K) :
    potential g reach (goals.foldl (fun s goal => s.push (f goal)) s) =
      potential g reach s + goals.length := by
  induction goals generalizing s with
  | nil => rfl
  | cons goal rest ih =>
    rw [List.foldl_cons, ih, potential_push reach s (hf goal), List.length_cons]
    omega

/-- After an edge is entered it is no longer among those not entered. -/
lemma unentered_enter (s : State K) (l : Label K) :
    unentered g (s.enter l) = (unentered g s).erase l.edge := by
  ext i
  have hfind : State.entry? (s.enter l) i = if l.edge = i then some l else s.entry? i := by
    rw [State.entry?]
    split
    · next h => exact List.find?_cons_of_pos (by simp [h])
    · next h => exact List.find?_cons_of_neg (by simp [h])
  simp only [unentered, Finset.mem_filter, Finset.mem_erase, hfind]
  by_cases h : l.edge = i
  · simp [h]
  · simp [h, Ne.symm h]

lemma potential_enter_le (reach : Nat) (s : State K) {l : Label K} (h : l.goal = none) :
    potential g reach (s.enter l) ≤ potential g reach s + (1 + reach) := by
  have hsum : ((s.enter l).queue.map (labelWeight reach)).sum =
      labelWeight reach l + (s.queue.map (labelWeight reach)).sum := sum_enqueue _ l s.queue
  have hcard : (unentered g (s.enter l)).card ≤ (unentered g s).card := by
    rw [unentered_enter]
    exact Finset.card_erase_le
  rw [potential, hsum, labelWeight_of_full h, potential]
  have := Nat.mul_le_mul_left (1 + reach) hcard
  omega

/-- Entering a new edge is paid for by the edge itself. -/
lemma potential_enter_new (reach : Nat) (s : State K) {l : Label K} {e : Edge α}
    (h : l.goal = none) (he : g.at? l.edge = some e) (hnew : s.entry? l.edge = none) :
    potential g reach (s.enter l) = potential g reach s := by
  have hsum : ((s.enter l).queue.map (labelWeight reach)).sum =
      labelWeight reach l + (s.queue.map (labelWeight reach)).sum := sum_enqueue _ l s.queue
  have hmem : l.edge ∈ unentered g s := by
    simp [unentered, Graph.lt_size_of_at? he, hnew]
  have hcard : (unentered g s).card = (unentered g (s.enter l)).card + 1 := by
    rw [unentered_enter, Finset.card_erase_add_one hmem]
  rw [potential, hsum, labelWeight_of_full h, potential, hcard, Nat.mul_add]
  omega

end Queue

/-! ### Starting -/

variable [Zero K] [One K] [Sub K] [Ord K] {cost : Cost α K} {limit : Option (Limit α K)}
  {sources targets : List (Spot K)}

section Starting

variable [LT K] [DecidableLT K]

lemma potential_start_le (reach : Nat) (s : State K) (source : Spot K) :
    potential g reach (start g cost limit s source) ≤
      potential g reach s + (1 + reach) + s.pending.length := by
  rw [start]
  cases hi : g.indexOf? source.edge with
  | none =>
    simp only
    omega
  | some index =>
    cases he : g.at? index with
    | none =>
      simp only [he]
      omega
    | some edge =>
      simp only [he]
      set whole := startLabel cost limit index edge source
      set ahead := (s.goalsOn index).filter fun goal => !decide (goal.fraction < source.fraction)
      have hreached := potential_foldl_push (g := g) reach (f := upTo cost limit edge whole)
        (fun _ => rfl) ahead s
      have hahead : ahead.length ≤ s.pending.length :=
        (List.length_filter_le _ _).trans (List.length_filter_le _ _)
      have hentered := potential_enter_le (g := g) reach
        (ahead.foldl (fun s goal => s.push (upTo cost limit edge whole goal)) s) (l := whole) rfl
      cases hs : s.entry? index with
      | none =>
        simp only
        omega
      | some old =>
        simp only
        split <;> omega

/-- At the start the potential is below the budget. -/
lemma potential_initial_lt :
    potential g (g.size * targets.length) (initial g cost limit sources targets) <
      budget g sources targets := by
  set reach := g.size * targets.length with hreach
  have key : ∀ (rest : List (Spot K)) (s : State K), s.pending.length ≤ targets.length →
      potential g reach (rest.foldl (start g cost limit) s) ≤
        potential g reach s + rest.length * (1 + reach) + rest.length * targets.length := by
    intro rest
    induction rest with
    | nil =>
      intro s _
      simp
    | cons source rest ih =>
      intro s hs
      have hpending : (start g cost limit s source).pending = s.pending :=
        (extends_start s source).pending
      have hrest := ih (start g cost limit s source) (hpending ▸ hs)
      have hstart : potential g reach (start g cost limit s source) ≤ _ :=
        potential_start_le reach s source
      rw [List.foldl_cons, List.length_cons, Nat.succ_mul, Nat.succ_mul]
      omega
  have hinitial := key sources ⟨[], [], goals g targets, []⟩ (length_goals_le g targets)
  have hempty : potential g reach (⟨[], [], goals g targets, []⟩ : State K) ≤
      (1 + reach) * g.size := by
    rw [potential, List.map_nil, List.sum_nil, Nat.zero_add]
    refine Nat.mul_le_mul_left _ ((Finset.card_filter_le _ _).trans ?_)
    rw [Finset.card_range]
  rw [initial, budget, ← hreach, Nat.add_mul, Nat.mul_comm g.size (1 + reach)]
  omega

end Starting

/-! ### Steps -/

variable [Add K]

lemma potential_advance_le (reach : Nat) (l : Label K) (s : State K) (index : Nat) :
    potential g reach (advance g cost limit l s index) ≤
      potential g reach s + s.pending.length := by
  rw [advance]
  cases he : g.at? index with
  | none =>
    simp only
    omega
  | some edge =>
    simp only
    set whole := nextLabel cost limit l index edge
    set reached := (s.goalsOn index).foldl
      (fun s goal => s.push (upTo cost limit edge whole goal)) s
    have hreached : potential g reach reached = potential g reach s + (s.goalsOn index).length :=
      potential_foldl_push reach (f := upTo cost limit edge whole) (fun _ => rfl) _ s
    have hgoals : (s.goalsOn index).length ≤ s.pending.length := List.length_filter_le _ _
    split
    · omega
    · next hnone =>
      have hnew : reached.entry? index = none := by
        rw [State.congr_entries (State.entries_foldl_push _ s) index]
        exact Option.not_isSome_iff_eq_none.1 hnone
      have hentered := potential_enter_new (g := g) reach reached (l := whole) rfl he hnew
      omega

/-- An expansion brings at most one label for each goal on each successor. -/
lemma potential_expand_le (reach : Nat) (l : Label K) (s : State K) :
    potential g reach (expand g cost limit l s) ≤
      potential g reach s + (g.successorIndices l.edge).length * s.pending.length := by
  have key : ∀ (rest : List Nat) (t : State K), t.pending = s.pending →
      potential g reach (rest.foldl (advance g cost limit l) t) ≤
        potential g reach t + rest.length * s.pending.length := by
    intro rest
    induction rest with
    | nil =>
      intro t _
      simp
    | cons index rest ih =>
      intro t ht
      have hpending : (advance g cost limit l t index).pending = t.pending :=
        (extends_advance l t index).pending
      have hrest := ih (advance g cost limit l t index) (hpending.trans ht)
      have hfirst : potential g reach (advance g cost limit l t index) ≤ _ :=
        potential_advance_le reach l t index
      rw [ht] at hfirst
      rw [List.foldl_cons, List.length_cons, Nat.succ_mul]
      omega
  exact key _ s rfl

variable [LT K] [DecidableLT K]

/-- No step adds goals. -/
lemma pending_step_subset {s t : State K} (h : step g cost limit s = some t) :
    t.pending.Sublist s.pending := by
  obtain ⟨l, rest, -, -, ⟨-, rfl⟩ | ⟨place, -, rfl⟩⟩ := step_cases h
  · rw [(extends_expand l _).pending]
  · rw [finish]
    split
    · exact List.Sublist.refl _
    · exact List.filter_sublist

/-- Every step lowers the potential. -/
lemma potential_step (hg : g.Built) {s t : State K} (hp : s.pending.length ≤ targets.length)
    (h : step g cost limit s = some t) :
    potential g (g.size * targets.length) t < potential g (g.size * targets.length) s := by
  set reach := g.size * targets.length with hreach
  obtain ⟨l, rest, hq, -, hcase⟩ := step_cases h
  have hsum : potential g reach s =
      labelWeight reach l + potential g reach { s with queue := rest } := by
    have hcard : unentered g { s with queue := rest } = unentered g s := rfl
    rw [potential, hq, potential, hcard, List.map_cons, List.sum_cons]
    exact Nat.add_assoc _ _ _
  rcases hcase with ⟨hgoal, rfl⟩ | ⟨place, hplace, rfl⟩
  · have hexpand : potential g reach (expand g cost limit l { s with queue := rest }) ≤ _ :=
      potential_expand_le reach l { s with queue := rest }
    have hbound : (g.successorIndices l.edge).length * s.pending.length ≤ reach :=
      Nat.mul_le_mul (hg.length_successorIndices_le l.edge) hp
    rw [labelWeight_of_full hgoal] at hsum
    simp only at hexpand
    omega
  · have hfinish : potential g reach (finish l place { s with queue := rest }) =
        potential g reach { s with queue := rest } := by
      rw [finish]
      split <;> rfl
    rw [labelWeight_of_goal hplace] at hsum
    omega

/-- A run whose fuel exceeds the potential gets to its end. -/
lemma step_run (hg : g.Built) {fuel : Nat} {s : State K}
    (hp : s.pending.length ≤ targets.length)
    (hfuel : potential g (g.size * targets.length) s < fuel) :
    step g cost limit (run g cost limit fuel s) = none := by
  induction fuel generalizing s with
  | zero => exact absurd hfuel (Nat.not_lt_zero _)
  | succ fuel ih =>
    rw [run]
    cases hs : step g cost limit s with
    | none => exact hs
    | some t =>
      have hlt := potential_step hg hp hs
      exact ih ((pending_step_subset hs).length_le.trans hp) (by omega)

/-- **Every search ends**: within its budget it comes to a state without a further step. -/
theorem step_run_budget (hg : g.Built) :
    step g cost limit (run g cost limit (budget g sources targets)
      (initial g cost limit sources targets)) = none := by
  refine step_run hg ?_ potential_initial_lt
  rw [extends_initial.pending]
  exact length_goals_le g targets

end RoadMatching.Search
