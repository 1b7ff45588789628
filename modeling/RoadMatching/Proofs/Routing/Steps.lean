import RoadMatching.Graph.Search
import RoadMatching.Proofs.Routing.Adjacency

/-!
What a search does, step by step.

A search grows by two moves: it lets a label wait (`push`) or enters an edge by one (`enter`). These
lemmas say which moves the start and a step consist of, so that an invariant is shown for one move
and holds of every run.

* `initial_induction`: what holds without labels and is kept by the moves of every source holds at
  the start.
* `step_cases`: a step takes the first label, and finishes its goal or expands it;
  `expand_induction`: what the moves to the successors keep holds after an expansion.
* `run_induction`: what steps keep holds at the end.
* `State.Extends`: a state that holds all of another one; `expand_enters`, `expand_reaches`: after
  an expansion all successors are entered and the labels of all goals on them wait.
-/

namespace RoadMatching.Search

variable {α K : Type}

/-! ### Growing states -/

namespace State

/-- A state holds all that another one holds, and the same goals are finished. -/
structure Extends (s t : State K) : Prop where
  queue : ∀ l ∈ s.queue, l ∈ t.queue
  entries : s.entries <:+ t.entries
  pending : t.pending = s.pending
  finishes : t.finishes = s.finishes

lemma Extends.refl (s : State K) : s.Extends s :=
  ⟨fun _ h => h, List.suffix_rfl, rfl, rfl⟩

lemma Extends.trans {s t u : State K} (h₁ : s.Extends t) (h₂ : t.Extends u) : s.Extends u :=
  ⟨fun l h => h₂.queue l (h₁.queue l h), h₁.entries.trans h₂.entries,
    h₂.pending.trans h₁.pending, h₂.finishes.trans h₁.finishes⟩

lemma mem_goalsOn {s : State K} {edge : Nat} {goal : Goal K} :
    goal ∈ s.goalsOn edge ↔ goal ∈ s.pending ∧ goal.edge = edge := by
  simp [goalsOn]

lemma congr_entries {s t : State K} (h : s.entries = t.entries) (edge : Nat) :
    s.entry? edge = t.entry? edge := by
  unfold State.entry?
  rw [h]

/-- The entry of an edge is one of the entries. -/
lemma mem_of_entry {s : State K} {edge : Nat} {l : Label K} (h : s.entry? edge = some l) :
    l ∈ s.entries ∧ l.edge = edge :=
  ⟨List.mem_of_find?_eq_some h, by simpa using List.find?_some h⟩

/-- A finished goal has a label that finished it. -/
lemma isFinished_iff {s : State K} {place : Nat} :
    s.isFinished place = true ↔ ∃ l ∈ s.finishes, l.goal = some place := by
  simp [isFinished]

section Moves

variable [Ord K]

@[simp] lemma mem_queue_push {s : State K} {l m : Label K} :
    m ∈ (s.push l).queue ↔ m = l ∨ m ∈ s.queue := mem_enqueue

@[simp] lemma entries_push (s : State K) (l : Label K) : (s.push l).entries = s.entries := rfl

@[simp] lemma pending_push (s : State K) (l : Label K) : (s.push l).pending = s.pending := rfl

@[simp] lemma finishes_push (s : State K) (l : Label K) : (s.push l).finishes = s.finishes := rfl

@[simp] lemma mem_queue_enter {s : State K} {l m : Label K} :
    m ∈ (s.enter l).queue ↔ m = l ∨ m ∈ s.queue := mem_enqueue

@[simp] lemma entries_enter (s : State K) (l : Label K) :
    (s.enter l).entries = l :: s.entries := rfl

@[simp] lemma pending_enter (s : State K) (l : Label K) : (s.enter l).pending = s.pending := rfl

@[simp] lemma finishes_enter (s : State K) (l : Label K) : (s.enter l).finishes = s.finishes := rfl

lemma extends_push (s : State K) (l : Label K) : s.Extends (s.push l) :=
  ⟨fun _ h => mem_queue_push.2 (.inr h), List.suffix_rfl, rfl, rfl⟩

lemma extends_enter (s : State K) (l : Label K) : s.Extends (s.enter l) :=
  ⟨fun _ h => mem_queue_enter.2 (.inr h), List.suffix_cons l s.entries, rfl, rfl⟩

/-- Letting a label wait for each of some goals takes one move after the other, and the goals stay
the same meanwhile. -/
lemma foldl_push_induction {motive : State K → Prop} {f : Goal K → Label K} {s : State K}
    (goals : List (Goal K)) (base : motive s)
    (push : ∀ t, t.pending = s.pending → ∀ goal ∈ goals, motive t → motive (t.push (f goal))) :
    motive (goals.foldl (fun t goal => t.push (f goal)) s) := by
  have key : ∀ (rest : List (Goal K)) (t : State K), (∀ goal ∈ rest, goal ∈ goals) →
      t.pending = s.pending → motive t →
      motive (rest.foldl (fun t goal => t.push (f goal)) t) := by
    intro rest
    induction rest with
    | nil => exact fun t _ _ h => h
    | cons goal rest ih =>
      intro t hmem hp h
      exact ih _ (fun x hx => hmem x (List.mem_cons_of_mem _ hx)) hp
        (push t hp goal (hmem goal List.mem_cons_self) h)
  exact key goals s (fun _ h => h) rfl base

lemma entries_foldl_push {f : Goal K → Label K} (goals : List (Goal K)) (s : State K) :
    (goals.foldl (fun t goal => t.push (f goal)) s).entries = s.entries :=
  foldl_push_induction (motive := fun t => t.entries = s.entries) goals rfl fun _ _ _ _ h => h

lemma extends_foldl_push {f : Goal K → Label K} (goals : List (Goal K)) (s : State K) :
    s.Extends (goals.foldl (fun t goal => t.push (f goal)) s) :=
  foldl_push_induction goals (.refl s) fun t _ goal _ h => h.trans (extends_push t (f goal))

/-- Each of the labels waits afterwards. -/
lemma mem_queue_foldl_push {f : Goal K → Label K} {goals : List (Goal K)} {s : State K}
    {goal : Goal K} (h : goal ∈ goals) :
    f goal ∈ (goals.foldl (fun t goal => t.push (f goal)) s).queue := by
  induction goals generalizing s with
  | nil => cases h
  | cons first rest ih =>
    rcases List.mem_cons.1 h with rfl | h
    · exact (extends_foldl_push rest _).queue _ (mem_queue_push.2 (.inl rfl))
    · exact ih h

end Moves

end State

variable [Zero K] [One K] [Sub K] [Ord K]
variable {g : Graph α} {cost : Cost α K} {limit : Option (Limit α K)} 
  {sources targets : List (Spot K)}

/-! ### Starting -/

section Starting

variable [LT K] [DecidableLT K]

/-- The moves of a source: a label for each goal ahead of it, and an entry of its edge unless an
earlier source has a better one. -/
lemma start_induction {motive : State K → Prop} {s : State K} {source : Spot K} (base : motive s)
    (push : ∀ t index edge goal, g.indexOf? source.edge = some index → g.at? index = some edge →
      goal ∈ t.goalsOn index → ¬ goal.fraction < source.fraction → motive t →
      motive (t.push (upTo cost limit edge (startLabel cost limit index edge source) goal)))
    (enter : ∀ t index edge, g.indexOf? source.edge = some index → g.at? index = some edge →
      (∀ entry, t.entry? index = some entry →
        (startLabel cost limit index edge source).cost < entry.cost) → motive t →
      motive (t.enter (startLabel cost limit index edge source))) :
    motive (start g cost limit s source) := by
  rw [start]
  cases hi : g.indexOf? source.edge with
  | none => exact base
  | some index =>
    cases he : g.at? index with
    | none => simpa [he] using base
    | some edge =>
      simp only [he]
      set whole := startLabel cost limit index edge source
      set ahead := (s.goalsOn index).filter fun goal => !decide (goal.fraction < source.fraction)
        with ha
      set reached := ahead.foldl (fun s goal => s.push (upTo cost limit edge whole goal)) s
      have hreached : motive reached := by
        refine State.foldl_push_induction ahead base fun t hp goal hgoal h => ?_
        rw [ha, List.mem_filter, State.mem_goalsOn] at hgoal
        refine push t index edge goal hi he ?_ (by simpa using hgoal.2) h
        rw [State.mem_goalsOn, hp]
        exact hgoal.1
      have hentry : reached.entry? index = s.entry? index :=
        State.congr_entries (State.entries_foldl_push ahead s) index
      cases hs : s.entry? index with
      | none =>
        refine enter reached index edge hi he (fun entry h => ?_) hreached
        rw [hentry, hs] at h
        cases h
      | some old =>
        simp only
        split
        · next hlt =>
          refine enter reached index edge hi he (fun entry h => ?_) hreached
          rw [hentry, hs] at h
          cases h
          exact hlt
        · exact hreached

/-- What holds without labels and is kept by the moves of every source holds at the start. -/
lemma initial_induction {motive : State K → Prop} (base : motive ⟨[], [], goals g targets, []⟩)
    (push : ∀ t source index edge goal, source ∈ sources → g.indexOf? source.edge = some index →
      g.at? index = some edge → goal ∈ t.goalsOn index → ¬ goal.fraction < source.fraction →
      motive t →
      motive (t.push (upTo cost limit edge (startLabel cost limit index edge source) goal)))
    (enter : ∀ t source index edge, source ∈ sources → g.indexOf? source.edge = some index →
      g.at? index = some edge → (∀ entry, t.entry? index = some entry →
        (startLabel cost limit index edge source).cost < entry.cost) → motive t →
      motive (t.enter (startLabel cost limit index edge source))) :
    motive (initial g cost limit sources targets) := by
  refine List.foldlRecOn sources (start g cost limit) base fun t h source hs => ?_
  exact start_induction h (fun t index edge goal => push t source index edge goal hs)
    fun t index edge => enter t source index edge hs

lemma extends_start (s : State K) (source : Spot K) :
    s.Extends (start g cost limit s source) :=
  start_induction (.refl s) (fun t _ _ _ _ _ _ _ h => h.trans (t.extends_push _))
    fun t _ _ _ _ _ h => h.trans (t.extends_enter _)

/-- At the start all goals are left and none is finished. -/
lemma extends_initial : State.Extends ⟨[], [], goals g targets, []⟩
    (initial g cost limit sources targets) :=
  List.foldlRecOn sources (start g cost limit) (.refl _) fun s h source _ =>
    h.trans (extends_start s source)

/-- After its moves the edge of a source is entered. -/
lemma start_enters (cost : Cost α K) (limit : Option (Limit α K)) (s : State K) {source : Spot K}
    {index : Nat} {edge : Edge α} (hi : g.indexOf? source.edge = some index)
    (he : g.at? index = some edge) :
    ∃ m ∈ (start g cost limit s source).entries, m.edge = index ∧
      (m = startLabel cost limit index edge source ∨
        ¬ (startLabel cost limit index edge source).cost < m.cost) := by
  rw [start]
  simp only [hi, he]
  cases hs : s.entry? index with
  | none => exact ⟨_, List.mem_cons_self, rfl, .inl rfl⟩
  | some old =>
    simp only
    split
    · exact ⟨_, List.mem_cons_self, rfl, .inl rfl⟩
    · next hlt =>
      obtain ⟨hmem, hedge⟩ := State.mem_of_entry hs
      refine ⟨old, ?_, hedge, .inr hlt⟩
      rw [State.entries_foldl_push]
      exact hmem

/-- After its moves the labels of the goals ahead of a source wait. -/
lemma start_reaches (cost : Cost α K) (limit : Option (Limit α K)) {s : State K} {source : Spot K}
    {index : Nat} {edge : Edge α} {goal : Goal K} (hi : g.indexOf? source.edge = some index)
    (he : g.at? index = some edge)
    (hgoal : goal ∈ s.goalsOn index) (hf : ¬ goal.fraction < source.fraction) :
    upTo cost limit edge (startLabel cost limit index edge source) goal ∈
      (start g cost limit s source).queue := by
  rw [start]
  simp only [hi, he]
  set whole := startLabel cost limit index edge source
  have hmem : goal ∈
      (s.goalsOn index).filter fun goal => !decide (goal.fraction < source.fraction) :=
    List.mem_filter.2 ⟨hgoal, by simpa using hf⟩
  have hreached := State.mem_queue_foldl_push (f := upTo cost limit edge whole) (s := s) hmem
  cases hs : s.entry? index with
  | none => exact (State.extends_enter _ _).queue _ hreached
  | some old =>
    simp only
    split
    · exact (State.extends_enter _ _).queue _ hreached
    · exact hreached

/-- The state after the moves of one of the sources, and the start, which extends it. -/
lemma exists_start (g : Graph α) (cost : Cost α K) (limit : Option (Limit α K))
    (targets : List (Spot K)) {source : Spot K} (hs : source ∈ sources) :
    ∃ s : State K, s.pending = goals g targets ∧
      (start g cost limit s source).Extends (initial g cost limit sources targets) := by
  have key : ∀ (rest : List (Spot K)) (s : State K), source ∈ rest →
      ∃ t : State K, t.pending = s.pending ∧
        (start g cost limit t source).Extends (rest.foldl (start g cost limit) s) := by
    intro rest
    induction rest with
    | nil => exact fun s h => absurd h (List.not_mem_nil)
    | cons first rest ih =>
      intro s h
      rcases List.mem_cons.1 h with rfl | h
      · refine ⟨s, rfl, ?_⟩
        exact List.foldlRecOn (motive := fun t => (start g cost limit s source).Extends t) rest
          (start g cost limit) (.refl _) fun t ht x _ => ht.trans (extends_start t x)
      · obtain ⟨t, ht, hext⟩ := ih (start g cost limit s first) h
        exact ⟨t, ht.trans (extends_start s first).pending, hext⟩
  exact key sources ⟨[], [], goals g targets, []⟩ hs

end Starting

/-! ### Expanding a label -/

variable [Add K]

/-- The moves to a successor: a label for each goal on it, and an entry if it has none. -/
lemma advance_induction {motive : State K → Prop} {l : Label K} {s : State K} {index : Nat}
    (base : motive s)
    (push : ∀ t edge goal, g.at? index = some edge → goal ∈ t.goalsOn index → motive t →
      motive (t.push (upTo cost limit edge (nextLabel cost limit l index edge) goal)))
    (enter : ∀ t edge, g.at? index = some edge → t.entry? index = none → motive t →
      motive (t.enter (nextLabel cost limit l index edge))) :
    motive (advance g cost limit l s index) := by
  rw [advance]
  cases he : g.at? index with
  | none => exact base
  | some edge =>
    simp only
    set whole := nextLabel cost limit l index edge
    set reached := (s.goalsOn index).foldl
      (fun s goal => s.push (upTo cost limit edge whole goal)) s
    have hreached : motive reached := by
      refine State.foldl_push_induction _ base fun t hp goal hgoal h => ?_
      refine push t edge goal he ?_ h
      rw [State.mem_goalsOn] at hgoal ⊢
      rwa [hp]
    split
    · exact hreached
    · next hnone =>
      refine enter reached edge he ?_ hreached
      rw [State.congr_entries (State.entries_foldl_push _ s) index]
      exact Option.not_isSome_iff_eq_none.1 hnone

/-- What the moves to the successors keep holds after an expansion. -/
lemma expand_induction {motive : State K → Prop} {l : Label K} {s : State K} (base : motive s)
    (push : ∀ t index edge goal, index ∈ g.successorIndices l.edge → g.at? index = some edge →
      goal ∈ t.goalsOn index → motive t →
      motive (t.push (upTo cost limit edge (nextLabel cost limit l index edge) goal)))
    (enter : ∀ t index edge, index ∈ g.successorIndices l.edge → g.at? index = some edge →
      t.entry? index = none → motive t →
      motive (t.enter (nextLabel cost limit l index edge))) :
    motive (expand g cost limit l s) := by
  refine List.foldlRecOn _ (advance g cost limit l) base fun t h index hindex => ?_
  exact advance_induction h (fun t edge goal => push t index edge goal hindex)
    fun t edge => enter t index edge hindex

lemma extends_advance (l : Label K) (s : State K) (index : Nat) :
    s.Extends (advance g cost limit l s index) :=
  advance_induction (.refl s) (fun t _ _ _ _ h => h.trans (t.extends_push _))
    fun t _ _ _ h => h.trans (t.extends_enter _)

lemma extends_expand (l : Label K) (s : State K) : s.Extends (expand g cost limit l s) :=
  expand_induction (.refl s) (fun t _ _ _ _ _ _ h => h.trans (t.extends_push _))
    fun t _ _ _ _ _ h => h.trans (t.extends_enter _)

/-- The state before the moves to one of the successors, and the expansion, which extends that after
them. -/
lemma exists_advance (cost : Cost α K) (limit : Option (Limit α K)) {l : Label K} (s : State K)
    {index : Nat}
    (hindex : index ∈ g.successorIndices l.edge) :
    ∃ t : State K, s.Extends t ∧
      (advance g cost limit l t index).Extends (expand g cost limit l s) := by
  have key : ∀ (rest : List Nat) (s : State K), index ∈ rest →
      ∃ t : State K, s.Extends t ∧
        (advance g cost limit l t index).Extends (rest.foldl (advance g cost limit l) s) := by
    intro rest
    induction rest with
    | nil => exact fun s h => absurd h (List.not_mem_nil)
    | cons first rest ih =>
      intro s h
      rcases List.mem_cons.1 h with rfl | h
      · refine ⟨s, .refl s, ?_⟩
        exact List.foldlRecOn (motive := fun t => (advance g cost limit l s index).Extends t) rest
          (advance g cost limit l) (.refl _) fun t ht x _ => ht.trans (extends_advance l t x)
      · obtain ⟨t, ht, hext⟩ := ih (advance g cost limit l s first) h
        exact ⟨t, (extends_advance l s first).trans ht, hext⟩
  exact key _ s hindex

/-- After an expansion every successor is entered. -/
lemma expand_enters (cost : Cost α K) (limit : Option (Limit α K)) {l : Label K} (s : State K)
    {index : Nat} {edge : Edge α}
    (hindex : index ∈ g.successorIndices l.edge) (he : g.at? index = some edge) :
    ∃ m ∈ (expand g cost limit l s).entries, m.edge = index := by
  obtain ⟨t, -, hext⟩ := exists_advance cost limit s hindex
  suffices h : ∃ m ∈ (advance g cost limit l t index).entries, m.edge = index by
    obtain ⟨m, hm, hedge⟩ := h
    exact ⟨m, hext.entries.subset hm, hedge⟩
  rw [advance]
  simp only [he]
  split
  · next hsome =>
    obtain ⟨m, hm⟩ := Option.isSome_iff_exists.1 hsome
    obtain ⟨hmem, hedge⟩ := State.mem_of_entry hm
    refine ⟨m, ?_, hedge⟩
    rw [State.entries_foldl_push]
    exact hmem
  · exact ⟨_, List.mem_cons_self, rfl⟩

/-- After an expansion the labels of all goals on the successors wait. -/
lemma expand_reaches {l : Label K} {s : State K} {index : Nat} {edge : Edge α} {goal : Goal K}
    (hindex : index ∈ g.successorIndices l.edge) (he : g.at? index = some edge)
    (hgoal : goal ∈ s.goalsOn index) :
    upTo cost limit edge (nextLabel cost limit l index edge) goal ∈
      (expand g cost limit l s).queue := by
  obtain ⟨t, hst, hext⟩ := exists_advance cost limit s hindex
  refine hext.queue _ ?_
  have hgoal' : goal ∈ t.goalsOn index := by
    rw [State.mem_goalsOn, hst.pending]
    exact State.mem_goalsOn.1 hgoal
  have hreached := State.mem_queue_foldl_push
    (f := upTo cost limit edge (nextLabel cost limit l index edge)) (s := t) hgoal'
  rw [advance]
  simp only [he]
  split
  · exact hreached
  · exact (State.extends_enter _ _).queue _ hreached

/-! ### Running -/

variable [LT K] [DecidableLT K]

/-- What a step does: it takes the first label, which is within the limit, and expands it or
finishes its goal. -/
lemma step_cases {s t : State K} (h : step g cost limit s = some t) :
    ∃ l rest, s.queue = l :: rest ∧ exceeds limit l = false ∧
      (l.goal = none ∧ t = expand g cost limit l { s with queue := rest } ∨
        ∃ place, l.goal = some place ∧ t = finish l place { s with queue := rest }) := by
  rw [step] at h
  cases hq : s.queue with
  | nil => simp [hq] at h
  | cons l rest =>
    simp only [hq] at h
    split at h
    · cases h
    · next hcont =>
      simp only [Bool.or_eq_true, not_or, Bool.not_eq_true] at hcont
      refine ⟨l, rest, rfl, hcont.2, ?_⟩
      cases hgoal : l.goal with
      | none =>
        simp only [hgoal, Option.some.injEq] at h
        exact .inl ⟨rfl, h.symm⟩
      | some place =>
        simp only [hgoal, Option.some.injEq] at h
        exact .inr ⟨place, rfl, h.symm⟩

/-- A search with no goal left takes no step. -/
lemma pending_ne_nil_of_step {s t : State K} (h : step g cost limit s = some t) :
    s.pending ≠ [] := by
  intro hnil
  rw [step] at h
  cases hq : s.queue with
  | nil => simp [hq] at h
  | cons l rest => simp [hq, hnil] at h

/-- When a search is over: no label or no goal is left, or the first label exceeds the limit. -/
lemma step_eq_none {s : State K} (h : step g cost limit s = none) :
    s.queue = [] ∨ s.pending = [] ∨ ∃ l ∈ s.queue.head?, exceeds limit l = true := by
  rw [step] at h
  cases hq : s.queue with
  | nil => exact .inl rfl
  | cons l rest =>
    simp only [hq] at h
    split at h
    · next hover =>
      simp only [Bool.or_eq_true, List.isEmpty_iff] at hover
      rcases hover with hp | hl
      · exact .inr (.inl hp)
      · exact .inr (.inr ⟨l, rfl, hl⟩)
    · split at h <;> cases h

/-- What every step keeps holds at the end of a run. -/
lemma run_induction {motive : State K → Prop} (fuel : Nat) {s : State K} (base : motive s)
    (hstep : ∀ s t, step g cost limit s = some t → motive s → motive t) :
    motive (run g cost limit fuel s) := by
  induction fuel generalizing s with
  | zero => exact base
  | succ fuel ih =>
    rw [run]
    cases hs : step g cost limit s with
    | none => exact base
    | some t => exact ih (hstep s t hs base)

end RoadMatching.Search
