import RoadMatching.Proofs.Routing.Budget
import RoadMatching.Proofs.Routing.Soundness

/-!
Every search ends, and so does every walk back.

Nothing in a search looks at costs to stop, so nothing is assumed of them: they may be negative, or
fall around a circle, and labels may be compared in any way. What bounds a search is that an edge
without an entry is entered once. What bounds the walk back from a label, which looks up one entry
after the other, is the order in which the entries were made.

* `Takes`: the labels that a search takes on its way from one state to another. `Takes.keeps`: what
  a step keeps holds on the whole way; `Takes.potential`: each label taken lowers the potential.
* `Staged`: the order of the entries. The starts come first, later an edge is entered once, from one
  that has been entered. So there is one entry at most for each edge entered from another one, and no
  later entry hides one that a label goes back to (`Staged.find?_before`).
* `Tallied`: the labels that travel an edge in full, taken or waiting, are the entries.
* `GoesBack`: a walk from entry to entry. `Staged.goesBack`: the walk from a label ends and visits its
  chain.
* `search_ends`: **every search ends**, whatever the costs and the limit, having made one label at
  most for each edge entered from another one and one for each source. The walks back visit no edge
  twice before the last, so a route has one edge more than the graph at most.
-/

namespace RoadMatching.Search

variable {α K : Type}

/-! ### Entries in stages -/

/-- Entries, newest first. The starts are the oldest; then edges without an entry are entered, each
from one that has an entry. -/
inductive Staged : List (Label K) → Prop
  | nil : Staged []
  | start {l : Label K} {older : List (Label K)} (hp : l.previous = none)
      (hstarts : ∀ m ∈ older, m.previous = none) (h : Staged older) : Staged (l :: older)
  | next {l m : Label K} {older : List (Label K)} (hp : l.previous = some m.edge) (hm : m ∈ older)
      (hnew : ∀ x ∈ older, x.edge ≠ l.edge) (h : Staged older) : Staged (l :: older)

/-- The starts among some labels. -/
def startsOf (labels : List (Label K)) : List (Label K) :=
  labels.filter fun l => l.previous.isNone

namespace Staged

variable {entries older : List (Label K)} {l m : Label K}

lemma of_suffix (h : Staged entries) (hsuf : older <:+ entries) : Staged older := by
  induction h with
  | nil => exact List.suffix_nil.1 hsuf ▸ .nil
  | start hp hstarts h ih =>
    rcases List.suffix_cons_iff.1 hsuf with rfl | hsuf
    · exact .start hp hstarts h
    · exact ih hsuf
  | next hp hm hnew h ih =>
    rcases List.suffix_cons_iff.1 hsuf with rfl | hsuf
    · exact .next hp hm hnew h
    · exact ih hsuf

/-- An entry that is no start has an older one to go back to, and is the first of its edge. -/
lemma exists_before (h : Staged (l :: older)) {edge : Nat} (hp : l.previous = some edge) :
    (∃ m ∈ older, m.edge = edge) ∧ ∀ x ∈ older, x.edge ≠ l.edge := by
  cases h with
  | start hnone _ _ =>
    rw [hnone] at hp
    cases hp
  | next hsome hm hnew _ =>
    rw [hsome, Option.some.injEq] at hp
    exact ⟨⟨_, hm, hp⟩, hnew⟩

/-- No entry as new as one that is no start, or newer, hides the entry that this one goes back to. -/
lemma find?_before (h : Staged entries) (hsuf : (l :: older) <:+ entries) {edge : Nat}
    (hp : l.previous = some edge) :
    entries.find? (fun x => x.edge == edge) = older.find? fun x => x.edge == edge := by
  obtain ⟨⟨m, hm, hedge⟩, hfirst⟩ := (h.of_suffix hsuf).exists_before hp
  induction h with
  | nil => cases List.suffix_nil.1 hsuf
  | @start newest rest hnone hstarts h ih =>
    -- among starts there is no entry that goes back
    rcases List.suffix_cons_iff.1 hsuf with heq | hsuf
    · cases heq
      rw [hnone] at hp
      cases hp
    · rw [hstarts l (hsuf.subset List.mem_cons_self)] at hp
      cases hp
  | @next newest _ rest _ _ hnew h ih =>
    rcases List.suffix_cons_iff.1 hsuf with heq | hsuf
    · cases heq
      exact List.find?_cons_of_neg (by simpa [← hedge] using (hnew m hm).symm)
    · have hne : m.edge ≠ newest.edge := hnew m (hsuf.subset (List.mem_cons_of_mem l hm))
      rw [List.find?_cons_of_neg (by simpa [← hedge] using hne.symm)]
      exact ih hsuf

/-- An edge is entered from another one at most once. -/
lemma nodup_next (h : Staged entries) :
    ((entries.filter fun l => l.previous.isSome).map Label.edge).Nodup := by
  induction h with
  | nil => exact List.nodup_nil
  | start hp _ _ ih => rwa [List.filter_cons_of_neg (by simp [hp])]
  | next hp _ hnew _ ih =>
    rw [List.filter_cons_of_pos (by simp [hp]), List.map_cons, List.nodup_cons]
    refine ⟨fun hmem => ?_, ih⟩
    obtain ⟨x, hx, hedge⟩ := List.mem_map.1 hmem
    exact hnew x (List.mem_of_mem_filter hx) hedge

/-- Before its label a chain has entries of different edges. -/
lemma exists_visited (h : Staged entries) (l : Label K) :
    ∃ visited, chain entries l = visited ++ [l] ∧ visited ⊆ entries ∧
      (visited.map Label.edge).Nodup := by
  induction entries generalizing l with
  | nil => exact ⟨[], rfl, List.nil_subset _, List.nodup_nil⟩
  | cons entry older ih =>
    have holder : Staged older := h.of_suffix (List.suffix_cons entry older)
    rw [chain]
    split
    · obtain ⟨visited, hchain, hsub, hnodup⟩ := ih holder entry
      refine ⟨visited ++ [entry], by rw [hchain], ?_, ?_⟩
      · exact List.append_subset.2 ⟨fun x hx => List.mem_cons_of_mem entry (hsub hx), by simp⟩
      · have hentry : entry.edge ∉ visited.map Label.edge := by
          cases hp : entry.previous with
          | none =>
            rw [chain_of_start hp] at hchain
            have hnil : visited = [] := by simpa using hchain
            simp [hnil]
          | some edge =>
            intro hmem
            obtain ⟨x, hx, hedge⟩ := List.mem_map.1 hmem
            exact (h.exists_before hp).2 x (hsub hx) hedge
        rw [List.map_append, List.map_singleton, List.nodup_append_comm, List.singleton_append,
          List.nodup_cons]
        exact ⟨hentry, hnodup⟩
    · obtain ⟨visited, hchain, hsub, hnodup⟩ := ih holder l
      exact ⟨visited, hchain, fun x hx => List.mem_cons_of_mem entry (hsub hx), hnodup⟩

end Staged

/-! ### Walks back -/

/-- The walk from a label looks up the entry of the edge before it, then that of the edge before this
one, and so on. It ends, and these are the labels visited, the start first. -/
inductive GoesBack (s : State K) : Label K → List (Label K) → Prop
  | stop {l : Label K} (h : l.previous.bind s.entry? = none) : GoesBack s l [l]
  | back {l m : Label K} {labels : List (Label K)} (h : l.previous.bind s.entry? = some m)
      (hm : GoesBack s m labels) : GoesBack s l (labels ++ [l])

/-- The labels visited before the last one are the entries of their edges. -/
lemma GoesBack.entry {s : State K} {l : Label K} {labels visited : List (Label K)}
    (h : GoesBack s l labels) (hlabels : labels = visited ++ [l]) :
    ∀ m ∈ visited, s.entry? m.edge = some m := by
  induction h generalizing visited with
  | stop _ =>
    have hnil : visited = [] := by simpa using hlabels
    simp [hnil]
  | @back l m labels hl hm ih =>
    obtain rfl : labels = visited := List.append_cancel_right hlabels
    have hm' : s.entry? m.edge = some m := by
      obtain ⟨edge, -, hentry⟩ := Option.bind_eq_some_iff.1 hl
      rwa [(State.mem_of_entry hentry).2]
    obtain ⟨front, hfront⟩ : ∃ front, labels = front ++ [m] := by
      cases hm with
      | stop _ => exact ⟨[], rfl⟩
      | back _ _ => exact ⟨_, rfl⟩
    intro x hx
    rw [hfront, List.mem_append, List.mem_singleton] at hx
    rcases hx with hx | rfl
    · exact ih hfront x hx
    · exact hm'

/-- A walk from entry to entry ends with the chain of its label, as long as no newer entry hides the
one it goes back to first. -/
lemma Staged.goesBack_chain {s : State K} (h : Staged s.entries) {older : List (Label K)}
    (hsuf : older <:+ s.entries) (l : Label K)
    (hl : ∀ edge, l.previous = some edge →
      s.entry? edge = older.find? fun x => x.edge == edge) :
    GoesBack s l (chain older l) := by
  induction older generalizing l with
  | nil =>
    refine .stop ?_
    cases hp : l.previous with
    | none => rfl
    | some edge => exact hl edge hp
  | cons entry older ih =>
    have holder : older <:+ s.entries := (List.suffix_cons entry older).trans hsuf
    rw [chain]
    split
    · next hp =>
      refine .back (m := entry) ?_ (ih holder entry fun edge => h.find?_before hsuf)
      rw [hp, Option.bind_some, hl entry.edge hp]
      exact List.find?_cons_of_pos (by simp)
    · next hp =>
      refine ih holder l fun edge hedge => ?_
      rw [hl edge hedge]
      refine List.find?_cons_of_neg ?_
      rw [beq_iff_eq]
      rintro rfl
      exact hp hedge

/-- **A walk back ends**, and visits the chain of its label. -/
theorem Staged.goesBack {s : State K} (h : Staged s.entries) (l : Label K) :
    GoesBack s l (chain s.entries l) :=
  h.goesBack_chain List.suffix_rfl l fun _ _ => rfl

/-! ### Labels made -/

/-- The labels that travel their edges in full, among those in front and those that wait, are the
entries. -/
def Tallied (front : List (Label K)) (s : State K) : Prop :=
  ((front ++ s.queue).filter fun l => l.goal.isNone).Perm s.entries

section Queue

variable [Ord K]

lemma append_enqueue_perm (front : List (Label K)) (l : Label K) (queue : List (Label K)) :
    (front ++ enqueue l queue).Perm (l :: (front ++ queue)) :=
  ((enqueue_perm l queue).append_left front).trans List.perm_middle

variable {front : List (Label K)} {s : State K} {l : Label K}

lemma Tallied.push (h : Tallied front s) {place : Nat} (hl : l.goal = some place) :
    Tallied front (s.push l) := by
  refine ((append_enqueue_perm front l s.queue).filter _).trans ?_
  rw [List.filter_cons_of_neg (by simp [hl])]
  exact h

lemma Tallied.enter (h : Tallied front s) (hl : l.goal = none) : Tallied front (s.enter l) := by
  refine ((append_enqueue_perm front l s.queue).filter _).trans ?_
  rw [List.filter_cons_of_pos (by simp [hl])]
  exact h.cons l

end Queue

/-! ### Starting -/

variable [Zero K] [One K] [Sub K] [Ord K] [LT K] [DecidableLT K] {g : Graph α} {cost : Cost α K}
  {limit : Option (Limit α K)} {sources targets : List (Spot K)}

/-- A source makes one entry at most. -/
lemma entries_start (g : Graph α) (cost : Cost α K) (limit : Option (Limit α K)) (s : State K)
    (source : Spot K) :
    (start g cost limit s source).entries = s.entries ∨
      ∃ l, (start g cost limit s source).entries = l :: s.entries ∧ l.origin = some source := by
  rw [start]
  cases hi : g.indexOf? source.edge with
  | none => exact .inl rfl
  | some index =>
    cases he : g.at? index with
    | none => simp [he]
    | some edge =>
      simp only [he]
      set whole := startLabel cost limit index edge source
      set reached := List.foldl (fun s goal => s.push (upTo cost limit edge whole goal)) s
        ((s.goalsOn index).filter fun goal => !decide (goal.fraction < source.fraction))
      have hreached : reached.entries = s.entries := State.entries_foldl_push _ s
      have hentered : (reached.enter whole).entries = whole :: s.entries := by
        rw [State.entries_enter, hreached]
      cases s.entry? index with
      | none => exact .inr ⟨whole, hentered, rfl⟩
      | some old =>
        simp only
        split
        · exact .inr ⟨whole, hentered, rfl⟩
        · exact .inl hreached

/-- The entries at the start are those of some of the sources, in their order. -/
lemma origins_initial :
    ((initial g cost limit sources targets).entries.map Label.origin).reverse.Sublist
      (sources.map some) := by
  have key : ∀ (rest past : List (Spot K)) (s : State K),
      (s.entries.map Label.origin).reverse.Sublist (past.map some) →
      ((rest.foldl (start g cost limit) s).entries.map Label.origin).reverse.Sublist
        ((past ++ rest).map some) := by
    intro rest
    induction rest with
    | nil => simp
    | cons source rest ih =>
      intro past s hs
      rw [List.foldl_cons, List.append_cons]
      refine ih (past ++ [source]) _ ?_
      rw [List.map_append]
      rcases entries_start g cost limit s source with h | ⟨l, h, ho⟩
      · rw [h]
        exact hs.trans (List.sublist_append_left _ _)
      · rw [h, List.map_cons, List.reverse_cons, ho]
        exact hs.append (.refl _)
  exact key sources [] _ (List.Sublist.refl _)

/-- At the start all entries are starts. -/
lemma staged_initial :
    Staged (initial g cost limit sources targets).entries ∧
      ∀ l ∈ (initial g cost limit sources targets).entries, l.previous = none := by
  refine initial_induction (motive := fun t => Staged t.entries ∧ ∀ l ∈ t.entries,
    l.previous = none) ⟨.nil, fun _ h => absurd h List.not_mem_nil⟩ ?_ ?_
  · exact fun _ _ _ _ _ _ _ _ _ _ h => h
  · rintro t source index edge - - - - ⟨h, hstarts⟩
    exact ⟨.start rfl hstarts h, List.forall_mem_cons.2 ⟨rfl, hstarts⟩⟩

lemma tallied_initial : Tallied [] (initial g cost limit sources targets) :=
  initial_induction (.refl _) (fun _ _ _ _ _ _ _ _ _ _ h => h.push rfl)
    fun _ _ _ _ _ _ _ _ h => h.enter rfl

/-! ### Steps -/

variable [Add K]

/-- The invariant: the labels stand for what they say, the entries are staged, and the starts among
them are those made in the beginning. -/
structure Traceable (g : Graph α) (cost : Cost α K) (limit : Option (Limit α K))
    (sources targets : List (Spot K)) (s : State K) : Prop where
  sound : Sound g cost limit sources targets s
  staged : Staged s.entries
  starts : startsOf s.entries = (initial g cost limit sources targets).entries

lemma traceable_initial :
    Traceable g cost limit sources targets (initial g cost limit sources targets) where
  sound := sound_initial
  staged := staged_initial.1
  starts := List.filter_eq_self.2 fun l hl => by simp [staged_initial.2 l hl]

omit [Zero K] [One K] [Sub K] [Ord K] [LT K] [DecidableLT K] [Add K] in
lemma entries_finish (l : Label K) (place : Nat) (s : State K) :
    (finish l place s).entries = s.entries := by
  rw [finish]
  split <;> rfl

omit [LT K] [DecidableLT K] in
/-- An expansion enters edges from one that has been entered. -/
lemma staged_expand (g : Graph α) (cost : Cost α K) (limit : Option (Limit α K)) {l : Label K}
    {s : State K} (h : Staged s.entries) (hl : l ∈ s.entries) :
    Staged (expand g cost limit l s).entries ∧
      startsOf (expand g cost limit l s).entries = startsOf s.entries := by
  suffices hmotive : Staged (expand g cost limit l s).entries ∧
      l ∈ (expand g cost limit l s).entries ∧
      startsOf (expand g cost limit l s).entries = startsOf s.entries from
    ⟨hmotive.1, hmotive.2.2⟩
  refine expand_induction (motive := fun t => Staged t.entries ∧ l ∈ t.entries ∧
    startsOf t.entries = startsOf s.entries) ⟨h, hl, rfl⟩ ?_ ?_
  · exact fun _ _ _ _ _ _ _ ht => ht
  · rintro t index edge - - hnone ⟨ht, hlt, hstarts⟩
    rw [State.entry?, List.find?_eq_none] at hnone
    have hnew : ∀ x ∈ t.entries, x.edge ≠ index := fun x hx => by simpa using hnone x hx
    refine ⟨.next rfl hlt hnew ht, List.mem_cons_of_mem _ hlt, ?_⟩
    rw [State.entries_enter, startsOf, List.filter_cons_of_neg (by simp [nextLabel])]
    exact hstarts

/-- Every step keeps the invariant. -/
lemma Traceable.step {s t : State K} (h : Traceable g cost limit sources targets s)
    (hstep : step g cost limit s = some t) : Traceable g cost limit sources targets t := by
  have hsound := h.sound.step hstep
  obtain ⟨l, rest, hq, -, ⟨hgoal, rfl⟩ | ⟨place, -, rfl⟩⟩ := step_cases hstep
  · have hl : l ∈ s.entries := h.sound.entered l (hq ▸ List.mem_cons_self) hgoal
    obtain ⟨hstaged, hstarts⟩ := staged_expand g cost limit (s := { s with queue := rest })
      h.staged hl
    exact ⟨hsound, hstaged, hstarts.trans h.starts⟩
  · refine ⟨hsound, ?_, ?_⟩
    · rw [entries_finish]
      exact h.staged
    · rw [entries_finish]
      exact h.starts

/-- A step moves the label that it takes to the front. -/
lemma Tallied.step {front rest : List (Label K)} {l : Label K} {s t : State K}
    (h : Tallied front s) (hq : s.queue = l :: rest) (hstep : step g cost limit s = some t) :
    Tallied (front ++ [l]) t := by
  have htaken : Tallied (front ++ [l]) { s with queue := rest } := by
    rw [Tallied, hq] at h
    rwa [Tallied, List.append_assoc, List.singleton_append]
  obtain ⟨m, rest', hq', -, ⟨-, rfl⟩ | ⟨place, -, rfl⟩⟩ := step_cases hstep
  · rw [hq, List.cons.injEq] at hq'
    obtain ⟨rfl, rfl⟩ := hq'
    exact expand_induction htaken (fun _ _ _ _ _ _ _ ht => ht.push rfl)
      fun _ _ _ _ _ _ ht => ht.enter rfl
  · rw [hq, List.cons.injEq] at hq'
    obtain ⟨rfl, rfl⟩ := hq'
    rw [finish]
    split <;> exact htaken

/-! ### The labels that a search takes -/

/-- From one state a search comes to another one, and takes these labels on its way. -/
inductive Takes (g : Graph α) (cost : Cost α K) (limit : Option (Limit α K)) :
    State K → List (Label K) → State K → Prop
  | nil (s : State K) : Takes g cost limit s [] s
  | cons {s t u : State K} {l : Label K} {rest taken : List (Label K)}
      (hq : s.queue = l :: rest) (hstep : step g cost limit s = some t)
      (h : Takes g cost limit t taken u) : Takes g cost limit s (l :: taken) u

namespace Takes

variable {s t : State K} {taken : List (Label K)}

/-- A run takes some labels. -/
lemma exists_run (g : Graph α) (cost : Cost α K) (limit : Option (Limit α K)) (fuel : Nat)
    (s : State K) :
    ∃ taken, Takes g cost limit s taken (run g cost limit fuel s) := by
  induction fuel generalizing s with
  | zero => exact ⟨[], .nil s⟩
  | succ fuel ih =>
    rw [run]
    cases hs : step g cost limit s with
    | none => exact ⟨[], .nil s⟩
    | some t =>
      obtain ⟨l, rest, hq, -⟩ := step_cases hs
      obtain ⟨taken, h⟩ := ih t
      exact ⟨l :: taken, .cons hq hs h⟩

/-- What every step keeps holds on the whole way. -/
lemma keeps {motive : State K → Prop} (h : Takes g cost limit s taken t)
    (hstep : ∀ s t, step g cost limit s = some t → motive s → motive t) (hs : motive s) :
    motive t := by
  induction h with
  | nil s => exact hs
  | cons _ hfirst _ ih => exact ih (hstep _ _ hfirst hs)

/-- The labels taken add to the tally. -/
lemma tallied (h : Takes g cost limit s taken t) {front : List (Label K)} (hs : Tallied front s) :
    Tallied (front ++ taken) t := by
  induction h generalizing front with
  | nil s => rwa [List.append_nil]
  | cons hq hfirst _ ih =>
    rw [List.append_cons]
    exact ih (hs.step hq hfirst)

/-- Each label taken lowers the potential. -/
lemma potential (hg : g.Built) (h : Takes g cost limit s taken t)
    (hp : s.pending.length ≤ targets.length) :
    Search.potential g (g.size * targets.length) t + taken.length ≤
      Search.potential g (g.size * targets.length) s := by
  induction h with
  | nil s => exact le_rfl
  | cons hq hfirst _ ih =>
    have hlt := potential_step hg hp hfirst
    have hle := ih ((pending_step_subset hfirst).length_le.trans hp)
    rw [List.length_cons]
    omega

end Takes

/-! ### What bounds a search -/

/-- A list that is read item by item keeps its length. -/
lemma length_of_mapM {β γ : Type} {read : β → Option γ} {xs : List β} {ys : List γ}
    (h : xs.mapM read = some ys) : ys.length = xs.length := by
  induction xs generalizing ys with
  | nil =>
    cases h
    rfl
  | cons x xs ih =>
    simp only [List.mapM_cons, bind, Option.bind_eq_some_iff, pure, Option.some.injEq] at h
    obtain ⟨y, -, rest, hrest, rfl⟩ := h
    rw [List.length_cons, List.length_cons, ih hrest]

omit [Zero K] [One K] [Sub K] [Ord K] [LT K] [DecidableLT K] [Add K] in
/-- A route has an edge for each label of its chain. -/
lemma length_of_readOff {labels : List (Label K)} {source : Spot K} {ids : List Int}
    (h : readOff g labels = some (source, ids)) : ids.length = labels.length := by
  simp only [readOff, bind, Option.bind_eq_some_iff, pure, Option.some.injEq,
    Prod.mk.injEq] at h
  obtain ⟨_, -, _, hids, -, rfl⟩ := h
  exact length_of_mapM hids

/-- What bounds a search that has taken some labels. The labels made so far have been taken or
wait. -/
structure Bounded (g : Graph α) (sources targets : List (Spot K)) (taken : List (Label K))
    (s : State K) : Prop where
  taken_lt : taken.length < budget g sources targets
  /-- The labels that travel an edge in full after another one, one for each edge at most. -/
  next : (((taken ++ s.queue).filter fun l => l.goal.isNone && l.previous.isSome).map
    Label.edge).Nodup
  /-- The labels that start, one for each source at most. -/
  starts : (((taken ++ s.queue).filter fun l => l.goal.isNone && l.previous.isNone).map
    Label.origin).Subperm (sources.map some)
  inside : ∀ l ∈ taken ++ s.queue, l.goal = none → l.edge < g.size
  /-- The walk back from a label ends, and visits the entries of different edges before it. -/
  walks : ∀ l, ∃ visited, GoesBack s l (visited ++ [l]) ∧ chain s.entries l = visited ++ [l] ∧
    (∀ m ∈ visited, s.entry? m.edge = some m) ∧ (visited.map Label.edge).Nodup ∧
    visited.length ≤ g.size

omit [Ord K] [DecidableLT K] in
/-- Every entry is on an edge of the graph. -/
lemma Recorded.edge_lt {entries : List (Label K)} (h : Recorded g cost limit sources entries) :
    ∀ l ∈ entries, l.edge < g.size := by
  induction entries with
  | nil => exact fun _ h => absurd h List.not_mem_nil
  | cons l older ih =>
    obtain ⟨hl, -, holder⟩ := h
    refine List.forall_mem_cons.2 ⟨?_, ih holder⟩
    cases hl with
    | start _ _ he _ _ _ _ => exact Graph.lt_size_of_at? he
    | next _ _ he _ _ _ => exact Graph.lt_size_of_at? he

/-- The bounds follow from the invariant and the tally. -/
lemma Traceable.bounded {s : State K} (h : Traceable g cost limit sources targets s)
    {taken : List (Label K)} (htally : Tallied taken s)
    (htaken : taken.length < budget g sources targets) :
    Bounded g sources targets taken s := by
  have hfilter : ∀ p : Label K → Bool,
      ((taken ++ s.queue).filter fun l => l.goal.isNone && p l).Perm (s.entries.filter p) := by
    intro p
    have hcomm : ((taken ++ s.queue).filter fun l => l.goal.isNone && p l) =
        ((taken ++ s.queue).filter fun l => l.goal.isNone).filter p := by
      rw [List.filter_filter]
      exact List.filter_congr fun l _ => Bool.and_comm _ _
    exact hcomm ▸ htally.filter p
  refine ⟨htaken, ?_, ?_, fun l hl hgoal => ?_, fun l => ?_⟩
  · exact ((hfilter _).map Label.edge).nodup_iff.2 h.staged.nodup_next
  · have hstarts : ((startsOf s.entries).map Label.origin).Subperm (sources.map some) := by
      rw [h.starts]
      exact (List.reverse_perm _).symm.subperm.trans origins_initial.subperm
    exact ((hfilter _).map Label.origin).subperm.trans hstarts
  · have hfull : l ∈ (taken ++ s.queue).filter fun l => l.goal.isNone :=
      List.mem_filter.2 ⟨hl, by simp [hgoal]⟩
    exact h.sound.entries.edge_lt l (htally.subset hfull)
  · obtain ⟨visited, hchain, hsub, hnodup⟩ := h.staged.exists_visited l
    have hwalk : GoesBack s l (visited ++ [l]) := hchain ▸ h.staged.goesBack l
    have hrange : visited.map Label.edge ⊆ List.range g.size := by
      intro i hi
      obtain ⟨m, hm, rfl⟩ := List.mem_map.1 hi
      exact List.mem_range.2 (h.sound.entries.edge_lt m (hsub hm))
    have hlength := (hnodup.subperm hrange).length_le
    rw [List.length_map, List.length_range] at hlength
    exact ⟨visited, hwalk, hchain, hwalk.entry rfl, hnodup, hlength⟩

/-- On its way a search is bounded. -/
lemma Takes.bounded (hg : g.Built) {taken : List (Label K)} {s : State K}
    (h : Takes g cost limit (initial g cost limit sources targets) taken s) :
    Bounded g sources targets taken s := by
  have hpending : (initial g cost limit sources targets).pending.length ≤ targets.length := by
    rw [extends_initial.pending]
    exact length_goals_le g targets
  have hpotential := h.potential hg hpending
  have hinitial : Search.potential g (g.size * targets.length)
      (initial g cost limit sources targets) < budget g sources targets := potential_initial_lt
  have htraceable : Traceable g cost limit sources targets s :=
    h.keeps (fun _ _ hstep ht => ht.step hstep) traceable_initial
  exact htraceable.bounded (h.tallied tallied_initial) (by omega)

/-- **Every search ends**, whatever the costs, their order and the limit. It takes labels until no
step is left, and as far as it has come it is bounded: it has made one label at most for each edge
that it entered from another one and one for each source, and the walk back from a label ends and
visits no edge twice before it. So a route has at most one edge more than the graph. -/
theorem search_ends (hg : g.Built) (cost : Cost α K) (limit : Option (Limit α K))
    (sources targets : List (Spot K)) :
    (∃ taken, Takes g cost limit (initial g cost limit sources targets) taken
        (run g cost limit (budget g sources targets) (initial g cost limit sources targets)) ∧
      step g cost limit
        (run g cost limit (budget g sources targets) (initial g cost limit sources targets)) =
          none) ∧
      (∀ taken s, Takes g cost limit (initial g cost limit sources targets) taken s →
        Bounded g sources targets taken s) ∧
      ∀ source edges, some (source, edges) ∈ g.routes cost limit sources targets →
        edges.length ≤ g.size + 1 := by
  obtain ⟨taken, htaken⟩ := Takes.exists_run g cost limit (budget g sources targets)
    (initial g cost limit sources targets)
  refine ⟨⟨taken, htaken, step_run_budget hg⟩, fun _ _ h => h.bounded hg, ?_⟩
  intro source edges hroute
  obtain ⟨place, -, hplace⟩ := List.mem_map.1 hroute
  rw [route?_eq, Option.bind_eq_some_iff] at hplace
  obtain ⟨l, -, hread⟩ := hplace
  obtain ⟨visited, -, hchain, -, -, hle⟩ := (htaken.bounded hg).walks l
  rw [length_of_readOff hread, hchain, List.length_append, List.length_singleton]
  omega

/-- Where a loop runs downhill, and a source is overtaken by another one on its edge, the search ends
with a route that takes the loop once. -/
theorem search_ends_downhill :
    Graph.downhill.Built ∧
      (∃ taken final, Takes Graph.downhill Cost.weight (some ⟨Cost.hops, 3⟩)
          (initial Graph.downhill Cost.weight (some ⟨Cost.hops, 3⟩) [⟨1, 1 / 2⟩, ⟨1, 0⟩]
            [⟨1, 1 / 4⟩, ⟨3, 1 / 2⟩]) taken final ∧
        step Graph.downhill Cost.weight (some ⟨Cost.hops, 3⟩) final = none ∧
        Bounded Graph.downhill [⟨1, 1 / 2⟩, ⟨1, 0⟩] [⟨1, 1 / 4⟩, ⟨3, 1 / 2⟩] taken final) ∧
      some ((⟨1, 0⟩ : Spot ℚ), [1, 2, 3]) ∈ Graph.downhill.routes Cost.weight
        (some ⟨Cost.hops, 3⟩) [⟨1, 1 / 2⟩, ⟨1, 0⟩] [⟨1, 1 / 4⟩, ⟨3, 1 / 2⟩] ∧
      [1, 2, 3].length ≤ Graph.downhill.size + 1 := by
  have hbuilt : Graph.downhill.Built := (Graph.Built.ofList _).construct
  have hroute : some ((⟨1, 0⟩ : Spot ℚ), [1, 2, 3]) ∈ Graph.downhill.routes Cost.weight
      (some ⟨Cost.hops, 3⟩) [⟨1, 1 / 2⟩, ⟨1, 0⟩] [⟨1, 1 / 4⟩, ⟨3, 1 / 2⟩] := by
    refine List.mem_of_getElem? (i := 1) ?_
    decide +kernel
  obtain ⟨⟨taken, htaken, hend⟩, hbounded, hlength⟩ := search_ends hbuilt Cost.weight
    (some ⟨Cost.hops, 3⟩) [(⟨1, 1 / 2⟩ : Spot ℚ), ⟨1, 0⟩] [⟨1, 1 / 4⟩, ⟨3, 1 / 2⟩]
  exact ⟨hbuilt, ⟨taken, _, htaken, hend, hbounded taken _ htaken⟩, hroute,
    hlength _ _ hroute⟩

end RoadMatching.Search
