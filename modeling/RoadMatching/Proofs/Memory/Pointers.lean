import RoadMatching.Proofs.Memory.Retention

/-!
The paths that predecessors spell.

* `Spells`: a path from a candidate held back to one without a predecessor.
  `Spells.map_id_walkBack`: what is read back from its head is the path.
* `Spells.trimmed`, `Spells.append`: the paths of candidates that stay are the same after candidates
  are pruned and after a vector is appended.
* `evict_of_unbounded`: without bounds no step is dropped.
* `Kept.spells_append`: each candidate of an appended vector goes on a path of its predecessor.
-/

namespace RoadMatching

variable {P T Q K S : Type}

namespace Window

variable {w : Window P T Q K S} {next : List CandidateId}

/-! ### Paths -/

/-- The predecessors of a candidate held are those of the path, back to one that has none. -/
inductive Spells (w : Window P T Q K S) : List CandidateId → Prop
  | root {id : CandidateId} {c : Candidate P T K S} (hc : w.candidate? id = some c)
      (hp : c.predecessor = none) : Spells w [id]
  | link {id p : CandidateId} {path : List CandidateId} {c : Candidate P T K S}
      (hc : w.candidate? id = some c) (hp : c.predecessor = some p) (h : Spells w (p :: path)) :
      Spells w (id :: p :: path)

/-- A candidate that is found is a member of a step. -/
lemma Linked.exists_at (h : Linked next w) {id : CandidateId} {c : Candidate P T K S}
    (hc : w.candidate? id = some c) : ∃ i, w.At i id := by
  obtain ⟨e, he, -⟩ := Option.map_eq_some_iff.1 hc
  exact (h.held id).1 ((Table.find?_isSome_iff _ _).1 (he ▸ rfl))

/-- A candidate of the last vector is a member of the last step, and held. -/
lemma Kept.mem_of_mem_vector {seen : List CandidateId} (h : Kept seen w) {c : Candidate P T K S}
    (hc : c ∈ w.vector) : c.id ∈ w.lastMembers ∧ w.held.contains c.id = true := by
  rw [Window.vector] at hc
  rw [lastMembers]
  cases hlast : w.steps.getLast? with
  | none =>
    rw [hlast] at hc
    cases hc
  | some step =>
    rw [hlast] at hc
    obtain ⟨id, hid, hfind⟩ := List.mem_filterMap.1 hc
    obtain ⟨i, hat⟩ := h.linked.exists_at hfind
    obtain ⟨e, he⟩ := h.linked.exists_find? hat
    rw [h.names i id c hat hfind, Table.contains, he]
    exact ⟨hid, rfl⟩

/-- The way back from the head of a path is the path. -/
lemma Spells.map_id_walkBack (hnames : ∀ id c, w.candidate? id = some c → c.id = id)
    {path : List CandidateId} (h : w.Spells path) {steps : List (Step Q)}
    (hlen : steps.length = path.length) :
    (w.walkBack path.head? steps).map Candidate.id = path := by
  induction h generalizing steps with
  | @root id c hc hp =>
    obtain ⟨step, rfl⟩ := List.length_eq_one_iff.1 hlen
    have hhead : (some id).bind w.candidate? = some c := hc
    rw [List.head?_cons, walkBack, hhead, Option.some_or]
    simp only [walkBack, List.map_cons, List.map_nil, hnames id c hc]
  | @link id p path c hc hp h ih =>
    cases steps with
    | nil => cases hlen
    | cons step earlier =>
      have hhead : (some id).bind w.candidate? = some c := hc
      have hrest := ih (Nat.succ.inj hlen)
      rw [List.head?_cons, ← hp] at hrest
      rw [List.head?_cons, walkBack, hhead, Option.some_or]
      simp only [List.map_cons, hnames id c hc, hrest]

/-- The way back from nowhere starts at the best candidate of the step. -/
lemma walkBack_none {step : Step Q} {earlier : List (Step Q)} {c : Candidate P T K S}
    (hc : w.candidate? step.estimate = some c) :
    w.walkBack none (step :: earlier) = w.walkBack (some step.estimate) (step :: earlier) := by
  have hhead : (some step.estimate).bind w.candidate? = some c := hc
  rw [walkBack, walkBack, hhead, Option.bind_none, Option.none_or, hc, Option.some_or]

/-- The sequence is the path of the best candidate of the last step, if that goes through all
steps. -/
lemma Spells.map_id_sequence (hnames : ∀ id c, w.candidate? id = some c → c.id = id)
    {step : Step Q} (hlast : w.steps.getLast? = some step) {path : List CandidateId}
    (h : w.Spells (step.estimate :: path)) (hlen : w.steps.length = path.length + 1) :
    w.sequence.map Candidate.id = (step.estimate :: path).reverse := by
  obtain ⟨before, hsteps⟩ := List.getLast?_eq_some_iff.1 hlast
  have hheld : ∃ c, w.candidate? step.estimate = some c := by
    cases h with
    | root hc _ => exact ⟨_, hc⟩
    | link hc _ _ => exact ⟨_, hc⟩
  obtain ⟨c, hc⟩ := hheld
  have hreverse : w.steps.reverse = step :: before.reverse := by rw [hsteps, List.reverse_concat]
  have hback : (step :: before.reverse).length = (step.estimate :: path).length := by
    rw [← hreverse, List.length_reverse, hlen, List.length_cons]
  rw [sequence, List.map_reverse, hreverse, walkBack_none hc]
  exact congrArg List.reverse (h.map_id_walkBack hnames hback)

/-- When candidates are pruned, those that stay have the paths that they had. -/
lemma Spells.trimmed {v : Window P T Q K S} (hlinked : Linked next v) (hv : Trimmed w v)
    {path : List CandidateId} (h : w.Spells path) :
    (∀ id ∈ path.head?, ∃ i, v.At i id) → v.Spells path := by
  induction h with
  | @root id c hc hp =>
    intro hat
    obtain ⟨i, hi⟩ := hat id rfl
    exact .root ((hv.candidates i id hi).trans hc) hp
  | @link id p path c hc hp h ih =>
    intro hat
    obtain ⟨i, hi⟩ := hat id rfl
    have hfind : v.candidate? id = some c := (hv.candidates i id hi).trans hc
    have hpointer : v.pointer? id = some p := by rw [pointer?_eq, hfind, Option.bind_some, hp]
    obtain ⟨j, -, -, hj⟩ := hlinked.exists_before hi hpointer
    refine .link hfind hp (ih fun q hq => ?_)
    rw [List.head?_cons, Option.mem_some_iff] at hq
    exact ⟨j, hq ▸ hj⟩

section Append

variable {vector : List (Candidate P T K S)} {sample : Q} {best : CandidateId}

/-- When a vector of new candidates is appended, the paths there were are still there. -/
lemma Spells.append (hfresh : ∀ id ∈ vector.map Candidate.id, id ∉ w.held.keys)
    {path : List CandidateId} (h : w.Spells path) : (w.append vector sample best).Spells path := by
  have hfind : ∀ {id c}, w.candidate? id = some c →
      (w.append vector sample best).candidate? id = some c := by
    intro id c hc
    obtain ⟨e, he, -⟩ := Option.map_eq_some_iff.1 hc
    have hold : id ∉ vector.map Candidate.id := fun hid =>
      hfresh id hid ((Table.find?_isSome_iff _ _).1 (he ▸ rfl))
    rw [candidate?, find?_append_of_not_mem hold]
    exact hc
  induction h with
  | root hc hp => exact .root (hfind hc) hp
  | link hc hp _ ih => exact .link (hfind hc) hp ih

/-- A candidate of the vector is found after it is appended. -/
lemma candidate?_append (hnodup : (vector.map Candidate.id).Nodup) {c : Candidate P T K S}
    (hc : c ∈ vector) : (w.append vector sample best).candidate? c.id = some c := by
  rw [candidate?, find?_append_of_mem hnodup hc]
  rfl

/-- The last vector is the one appended. -/
lemma vector_append (hnodup : (vector.map Candidate.id).Nodup) :
    (w.append vector sample best).vector = vector := by
  have hlast : (w.append vector sample best).steps.getLast? =
      some ⟨vector.map Candidate.id, sample, best⟩ := List.getLast?_concat
  have hfind : ∀ c ∈ vector,
      ((w.append vector sample best).candidate? ∘ Candidate.id) c = some c :=
    fun c hc => candidate?_append hnodup hc
  rw [Window.vector, hlast, Option.map_some, Option.getD_some, resolve, List.filterMap_map,
    List.filterMap_congr hfind, List.filterMap_some]

end Append

/-! ### Memories without bounds -/

/-- A memory without bounds drops no steps. -/
lemma evict_of_unbounded [Timed Q] (hsteps : w.maxSteps = none) (hage : w.maxAge = none) :
    w.evict = w := by
  have key : ∀ (time : Int) (steps : List (Step Q)) (held : Table CandidateId (Held P T K S)),
      w.evictSteps time steps held = (steps, held) := by
    intro time steps held
    unfold evictSteps
    split
    · simp [isExpired, hsteps, hage]
    · rfl
  rw [evict]
  split
  · rfl
  · simp only [key]

variable [Timed Q] {seen : List CandidateId} {vector : List (Candidate P T K S)} {sample : Q}

/-- When a vector is appended that is not refused, its candidates go on the paths of their
predecessors. -/
lemma Kept.spells_append (h : Kept seen w) (hfault : w.fault? vector sample = none)
    (hnodup : (vector.map Candidate.id).Nodup) (hfresh : ∀ id ∈ vector.map Candidate.id, id ∉ seen)
    (hlen : vector.length < 18446744073709551616) (best : CandidateId) {c : Candidate P T K S}
    (hc : c ∈ vector) {path : List CandidateId} (hhead : c.predecessor = path.head?)
    (hpath : path ≠ [] → w.Spells path) :
    ((w.countReferences vector).pruneLast.append vector sample best).Spells (c.id :: path) := by
  obtain ⟨hlinked, -, htrimmed, hnew⟩ := h.ready hfault hfresh hlen
  cases path with
  | nil => exact .root (candidate?_append hnodup hc) hhead
  | cons p path =>
    refine .link (candidate?_append hnodup hc) hhead (Spells.append hnew ?_)
    refine Spells.trimmed hlinked htrimmed (hpath (List.cons_ne_nil p path)) fun q hq => ?_
    rw [List.head?_cons, Option.mem_some_iff] at hq
    subst hq
    -- the vector names its predecessors when it is to come, so these have not been pruned
    have hnamed : p ∈ Candidate.predecessors vector := List.mem_filterMap.2 ⟨c, hc, hhead⟩
    obtain ⟨-, step, hstep, hid⟩ := mem_latest (mem_latest_of_fault?_eq_none hfault p hnamed)
    obtain ⟨i, hi, -⟩ := exists_at_last hstep hid
    have hlength := htrimmed.length_eq
    refine ⟨i, hlinked.before i (by omega) p ?_⟩
    rw [show i + 1 = (w.countReferences vector).pruneLast.steps.length by omega, named_length]
    exact hnamed

end Window

end RoadMatching
