import RoadMatching.Proofs.Memory.Pointers

/-!
What an update adds to a memory.

* `samples_dropFront`, `mem_vector_dropFront`: without the oldest step, the other samples are as
  they were, and so is the last vector, of which some candidates may forget their predecessors.
* `Kept.appended`: after a vector is appended, its sample is the last one and its candidates are the
  last vector, and what is left of the other samples are the latest ones.
  `Kept.mem_samples_accept`: no other samples come in.
-/

namespace RoadMatching

variable {P T Q K S : Type}

namespace Window

variable {w : Window P T Q K S}

lemma samples_dropFront (hlen : 1 < w.steps.length) : w.dropFront.samples = w.samples.tail := by
  rw [samples, steps_dropFront hlen, samples, List.map_tail]

lemma broken_dropFront : w.dropFront.broken = w.broken := by
  rw [dropFront]
  split <;> rfl

/-- The candidates found without the oldest step are those found before, except that some forget
their predecessors. -/
lemma candidate?_dropFront (hlen : 1 < w.steps.length) {id : CandidateId} {c : Candidate P T K S}
    (hc : w.dropFront.candidate? id = some c) :
    ∃ d, w.candidate? id = some d ∧ (c = d ∨ c = d.forget) := by
  obtain ⟨front, second, rest, -, hdrop⟩ := dropFront_cases hlen
  rw [hdrop, candidate?, Option.map_eq_some_iff] at hc
  obtain ⟨e, he, rfl⟩ := hc
  simp only [find?_cutMembers, find?_dropMembers] at he
  by_cases hfront : id ∈ front.members
  · simp [hfront] at he
  · rw [if_neg hfront] at he
    split at he
    · obtain ⟨d, hd, rfl⟩ := Option.map_eq_some_iff.1 he
      exact ⟨d.candidate, by rw [candidate?, hd, Option.map_some], .inr rfl⟩
    · exact ⟨e.candidate, by rw [candidate?, he, Option.map_some], .inl rfl⟩

/-- The last vector without the oldest step is as it was, except that some candidates may forget
their predecessors. -/
lemma mem_vector_dropFront (hlen : 1 < w.steps.length) {c : Candidate P T K S}
    (hc : c ∈ w.dropFront.vector) : ∃ d ∈ w.vector, c = d ∨ c = d.forget := by
  have hlast : w.dropFront.steps.getLast? = w.steps.getLast? := by
    obtain ⟨front, second, rest, hsteps, hdrop⟩ := dropFront_cases hlen
    rw [hdrop, hsteps, List.getLast?_cons_cons]
  rw [vector, hlast] at hc
  rw [vector]
  cases hstep : w.steps.getLast? with
  | none => simp [hstep] at hc
  | some step =>
    rw [hstep] at hc
    obtain ⟨id, hid, hfind⟩ := List.mem_filterMap.1 hc
    obtain ⟨d, hd, heq⟩ := candidate?_dropFront hlen hfind
    exact ⟨d, List.mem_filterMap.2 ⟨id, hid, hd⟩, heq⟩

variable [Timed Q] {seen : List CandidateId} {vector : List (Candidate P T K S)} {sample : Q}

/-- After a vector that is not refused, its sample is the last one and its candidates are the last
vector, of which some may forget their predecessors. Of the samples before, the latest are left. -/
lemma Kept.appended (h : Kept seen w) (hfault : w.fault? vector sample = none)
    (hnodup : (vector.map Candidate.id).Nodup) (hfresh : ∀ id ∈ vector.map Candidate.id, id ∉ seen)
    (hlen : vector.length < 18446744073709551616) (best : CandidateId) :
    let next := ((w.countReferences vector).pruneLast.append vector sample best).evict
    next.broken = false ∧ (∃ kept, kept <:+ w.samples ∧ next.samples = kept ++ [sample]) ∧
      ∀ c ∈ next.vector, ∃ d ∈ vector, c = d ∨ c = d.forget := by
  obtain ⟨-, -, htrimmed, -⟩ := h.ready hfault hfresh hlen
  refine evict_induction (motive := fun v => v.broken = false ∧
    (∃ kept, kept <:+ w.samples ∧ v.samples = kept ++ [sample]) ∧
      ∀ c ∈ v.vector, ∃ d ∈ vector, c = d ∨ c = d.forget) ⟨rfl, ?_, fun c hc => ?_⟩
    fun v hlen hv => ?_
  · refine ⟨w.samples, List.suffix_refl _, ?_⟩
    rw [← htrimmed.samples_eq]
    simp [samples, Window.append]
  · rw [vector_append hnodup] at hc
    exact ⟨c, hc, .inl rfl⟩
  · obtain ⟨hbroken, ⟨kept, hkept, hsamples⟩, hvector⟩ := hv
    refine ⟨broken_dropFront.trans hbroken, ⟨kept.tail, (List.tail_suffix kept).trans hkept, ?_⟩,
      fun c hc => ?_⟩
    · have hne : kept ≠ [] := by
        rintro rfl
        have hlength := congrArg List.length hsamples
        simp [samples] at hlength
        omega
      rw [samples_dropFront hlen, hsamples, List.tail_append_of_ne_nil hne]
    · obtain ⟨d, hd, heq⟩ := mem_vector_dropFront hlen hc
      obtain ⟨e, he, hde⟩ := hvector d hd
      rcases heq with rfl | rfl
      · exact ⟨e, he, hde⟩
      · rcases hde with rfl | rfl
        · exact ⟨d, he, .inr rfl⟩
        · exact ⟨e, he, .inr rfl⟩

/-- After an update the samples are some of those before, and its own. -/
lemma Kept.mem_samples_accept [LT S] [DecidableLT S] (h : Kept seen w) {u : Update P T Q K S} {q : Q}
    (hq : q ∈ (w.accept u).samples) (hnodup : u.ids.Nodup) (hfresh : ∀ id ∈ u.ids, id ∉ seen)
    (hlen : u.vector.length < 18446744073709551616) : q ∈ w.samples ∨ q = u.sample := by
  rw [Window.accept] at hq
  rcases w.update_cases u.vector u.sample with
    ⟨-, heq⟩ | ⟨error, -, -, heq⟩ | ⟨best, -, hfault, heq⟩
  · rw [heq] at hq
    exact .inl hq
  · rw [heq] at hq
    exact .inl hq
  · rw [heq] at hq
    obtain ⟨-, ⟨kept, hkept, hsamples⟩, -⟩ := h.appended hfault hnodup hfresh hlen best.id
    dsimp only at hq
    rw [hsamples, List.mem_append, List.mem_singleton] at hq
    exact hq.imp_left fun hq => hkept.subset hq

end Window

end RoadMatching
