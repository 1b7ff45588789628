import RoadMatching.Proofs.Memory.Pointers

/-!
Memories that hold all that they refer to.

The sequence is read back along predecessors and estimates. If these are held, there is a candidate
for each step; but it is one of the step only where predecessors are in the step before and
estimates in their own, which is more.

* `IsComplete`, `IsLayered`: the two properties. `Kept.isComplete`, `Kept.isLayered`: memories that
  are fed distinct updates have both.
* `IsComplete.walkBack`: the way back through steps. `IsComplete.sequence`: **the sequence of a
  complete memory** has a candidate for each step, the predecessor of the next one or the estimate.
* `IsComplete.sequence_at`: in layers it is one of the step. `feed_sequence_at`: so it is after
  distinct updates.
-/

namespace RoadMatching

variable {P T Q K S : Type}

namespace Window

/-! ### The properties -/

/-- All that a memory refers to is held, under its name. -/
structure IsComplete (w : Window P T Q K S) : Prop where
  names : ∀ id c, w.candidate? id = some c → c.id = id
  members : ∀ step ∈ w.steps, ∀ id ∈ step.members, id ∈ w.held.keys
  estimates : ∀ step ∈ w.steps, step.estimate ∈ w.held.keys
  predecessors : ∀ id p, w.pointer? id = some p → p ∈ w.held.keys

/-- Estimates are members of their steps, and predecessors of members are members of the step
before. -/
structure IsLayered (w : Window P T Q K S) : Prop where
  estimates : ∀ step ∈ w.steps, step.estimate ∈ step.members
  predecessors : ∀ i id p, w.At (i + 1) id → w.pointer? id = some p → w.At i p

section Kept

variable {w : Window P T Q K S} {seen : List CandidateId}

/-- A memory between updates holds all that it refers to. -/
lemma Kept.isComplete (h : Kept seen w) : IsComplete w where
  names id c hc := by
    obtain ⟨i, hat⟩ := h.linked.exists_at hc
    exact h.names i id c hat hc
  members step hstep id hid := by
    obtain ⟨i, hi⟩ := List.getElem?_of_mem hstep
    exact (h.linked.held id).2 ⟨i, step, hi, hid⟩
  estimates step hstep := by
    obtain ⟨i, hi⟩ := List.getElem?_of_mem hstep
    exact (h.linked.held _).2 ⟨i, step, hi, h.linked.estimates step hstep⟩
  predecessors id p hp := by
    obtain ⟨e, he, -⟩ := Option.bind_eq_some_iff.1 hp
    obtain ⟨i, hat⟩ := (h.linked.held id).1 ((Table.find?_isSome_iff _ _).1 (he ▸ rfl))
    obtain ⟨j, -, -, hbefore⟩ := h.linked.exists_before hat hp
    exact (h.linked.held p).2 ⟨j, hbefore⟩

/-- Its predecessors are in the step before, and its estimates in their own. -/
lemma Kept.isLayered (h : Kept seen w) : IsLayered w where
  estimates := h.linked.estimates
  predecessors i id p hat hp := by
    obtain ⟨j, hj, -, hbefore⟩ := h.linked.exists_before hat hp
    obtain rfl : i = j := Nat.succ.inj hj
    exact hbefore

end Kept

/-! ### The sequence -/

namespace IsComplete

variable {w : Window P T Q K S}

/-- A name that is held is that of a candidate. -/
lemma exists_candidate? (h : IsComplete w) {id : CandidateId} (hid : id ∈ w.held.keys) :
    ∃ c, w.candidate? id = some c ∧ c.id = id := by
  obtain ⟨e, he⟩ := Option.isSome_iff_exists.1 ((Table.find?_isSome_iff _ _).2 hid)
  have hc : w.candidate? id = some e.candidate := by rw [candidate?, he, Option.map_some]
  exact ⟨e.candidate, hc, h.names id e.candidate hc⟩

/-- The predecessor of a candidate held is held. -/
lemma predecessor_mem (h : IsComplete w) {c : Candidate P T K S} {p : CandidateId}
    (hc : w.candidate? c.id = some c) (hp : c.predecessor = some p) : p ∈ w.held.keys := by
  refine h.predecessors c.id p ?_
  rw [pointer?_eq, hc, Option.bind_some, hp]

/-- On the way back a step has a candidate: the one that is named, or else the estimate. -/
lemma exists_chosen (h : IsComplete w) {estimate : CandidateId} (hestimate : estimate ∈ w.held.keys)
    {next : Option CandidateId} (hnext : ∀ p ∈ next, p ∈ w.held.keys) :
    ∃ c, (next.bind w.candidate?).or (w.candidate? estimate) = some c ∧
      w.candidate? c.id = some c ∧ c.id = next.getD estimate := by
  cases next with
  | none =>
    obtain ⟨c, hc, hid⟩ := h.exists_candidate? hestimate
    exact ⟨c, hc, hid ▸ hc, hid⟩
  | some p =>
    obtain ⟨c, hc, hid⟩ := h.exists_candidate? (hnext p rfl)
    exact ⟨c, by rw [Option.bind_some, hc, Option.some_or], hid ▸ hc, hid⟩

/-- The way back through steps whose estimates are held has a candidate for each of them: the one
that the next step names, or else the estimate. -/
lemma walkBack (h : IsComplete w) {steps : List (Step Q)}
    (hestimates : ∀ step ∈ steps, step.estimate ∈ w.held.keys) (next : Option CandidateId)
    (hnext : ∀ p ∈ next, p ∈ w.held.keys) :
    ∃ cs : List (Candidate P T K S), (w.walkBack next steps.reverse).reverse = cs ∧
      cs.length = steps.length ∧ ∀ i step, steps[i]? = some step → ∃ c, cs[i]? = some c ∧
        w.candidate? c.id = some c ∧
          c.id = ((cs[i + 1]?).elim next Candidate.predecessor).getD step.estimate := by
  refine ⟨_, rfl, ?_⟩
  induction steps using List.reverseRecOn generalizing next with
  | nil => exact ⟨rfl, fun i step hi => nomatch hi⟩
  | append_singleton steps last ih =>
    obtain ⟨c, hchosen, hown, hid⟩ := h.exists_chosen (hestimates last (by simp)) hnext
    obtain ⟨hlength, hcandidates⟩ :=
      ih (fun step hstep => hestimates step (List.mem_append_left _ hstep))
        c.predecessor fun p hp => h.predecessor_mem hown hp
    have hwalk : (w.walkBack next (steps ++ [last]).reverse).reverse =
        (w.walkBack c.predecessor steps.reverse).reverse ++ [c] := by
      rw [List.reverse_append, List.reverse_singleton, List.singleton_append, Window.walkBack,
        hchosen, List.reverse_cons]
    rw [hwalk]
    generalize (w.walkBack c.predecessor steps.reverse).reverse = cs at hlength hcandidates ⊢
    refine ⟨by simp [hlength], fun i step hi => ?_⟩
    rcases Nat.lt_trichotomy i steps.length with hlt | rfl | hgt
    · rw [List.getElem?_append_left hlt] at hi
      obtain ⟨d, hd, hdown, hdid⟩ := hcandidates i step hi
      refine ⟨d, by rw [List.getElem?_append_left (hlength ▸ hlt), hd], hdown, ?_⟩
      rw [hdid]
      rcases Nat.lt_or_ge (i + 1) cs.length with hlt' | hge
      · rw [List.getElem?_append_left hlt']
        simp [List.getElem?_eq_getElem hlt']
      · have heq : i + 1 = cs.length := by omega
        rw [heq, List.getElem?_concat_length, List.getElem?_eq_none le_rfl]
        rfl
    · rw [List.getElem?_concat_length, Option.some.injEq] at hi
      subst hi
      refine ⟨c, by rw [← hlength, List.getElem?_concat_length], hown, ?_⟩
      rw [hid, List.getElem?_eq_none (by simp [hlength])]
      rfl
    · rw [List.getElem?_eq_none (by simp; omega)] at hi
      cases hi

/-- **The sequence of a complete memory** has a candidate for each step: the one that the candidate
of the next step names as its predecessor, or else the estimate. -/
theorem sequence (h : IsComplete w) :
    w.sequence.length = w.steps.length ∧ ∀ i step, w.steps[i]? = some step →
      ∃ c, w.sequence[i]? = some c ∧ w.candidate? c.id = some c ∧
        c.id = ((w.sequence[i + 1]?).bind Candidate.predecessor).getD step.estimate := by
  obtain ⟨cs, hcs, hlength, hcandidates⟩ :=
    h.walkBack h.estimates none fun p hp => nomatch hp
  rw [Window.sequence, hcs]
  refine ⟨hlength, fun i step hi => ?_⟩
  obtain ⟨c, hc, hown, hid⟩ := hcandidates i step hi
  exact ⟨c, hc, hown, by rw [hid]; cases cs[i + 1]? <;> rfl⟩

/-- Where predecessors are in the step before, each candidate of the sequence is one of its step. -/
theorem sequence_at (h : IsComplete w) (hlayered : IsLayered w) {i : Nat} {c : Candidate P T K S}
    (hc : w.sequence[i]? = some c) : w.At i c.id := by
  obtain ⟨hlength, hcandidates⟩ := h.sequence
  -- by induction on the number of steps after it
  induction hn : w.sequence.length - i generalizing i c with
  | zero =>
    have hlt := (List.getElem?_eq_some_iff.1 hc).1
    omega
  | succ n ih =>
    have hlt := (List.getElem?_eq_some_iff.1 hc).1
    have hstep := List.getElem?_eq_getElem (hlength ▸ hlt)
    obtain ⟨c', hc', -, hid⟩ := hcandidates i _ hstep
    obtain rfl : c = c' := by rwa [hc, Option.some.injEq] at hc'
    cases hp : (w.sequence[i + 1]?).bind Candidate.predecessor with
    | none =>
      rw [hp, Option.getD_none] at hid
      exact ⟨_, hstep, hid ▸ hlayered.estimates _ (List.getElem_mem _)⟩
    | some p =>
      obtain ⟨d, hd, hdp⟩ := Option.bind_eq_some_iff.1 hp
      rw [hp, Option.getD_some] at hid
      have hlt' := (List.getElem?_eq_some_iff.1 hd).1
      have hnext := List.getElem?_eq_getElem (hlength ▸ hlt')
      obtain ⟨d', hd', hdown, -⟩ := hcandidates (i + 1) _ hnext
      obtain rfl : d = d' := by rwa [hd, Option.some.injEq] at hd'
      rw [hid]
      refine hlayered.predecessors i d.id p (ih hd (by omega)) ?_
      rw [pointer?_eq, hdown, Option.bind_some, hdp]

end IsComplete

/-- Each candidate of the sequence of a memory that was fed distinct updates is one of its step. -/
theorem feed_sequence_at [Timed Q] [LT S] [DecidableLT S] {k t : Option Nat}
    {updates : List (Update P T Q K S)} (h : Update.Distinct updates) {i : Nat}
    {c : Candidate P T K S} (hc : ((bounded k t).feed updates).sequence[i]? = some c) :
    ((bounded k t).feed updates).At i c.id :=
  (feed_kept k t h).isComplete.sequence_at (feed_kept k t h).isLayered hc

end Window

end RoadMatching
