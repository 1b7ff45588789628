import RoadMatching.Proofs.Matching.Calls
import RoadMatching.Proofs.Memory.Retention

/-!
What holds of all match states that calls lead to.

A call leaves a match state as it was, or the match state accepts the vector that the filter gives
for the sample. Nothing is assumed here of the times of samples: a sample may be late, and the match
state may refuse it.

* `Call.Named`: calls whose names never repeat.
* `Call.Taken`: a call whose filter step gives a vector, with what the match state holds before it.
* `Call.run_induction`: what a match state without steps has, and what accepting such a vector keeps,
  holds after any calls.
-/

namespace RoadMatching

namespace Call

variable {K : Type} [Geodesy K] [Zero K] [BEq K] [LT K] [DecidableLT K] [Analysis K] [NatCast K]
variable [One K] [Add K] [Sub K] [Mul K] [Div K] [Neg K] [LE K] [DecidableLE K] [LineTree K]

/-- Calls whose names never repeat, neither in one call nor in several. The number of candidates of
a call is one of 64 bits. -/
structure Named (calls : List (Call K)) : Prop where
  nodup : (calls.flatMap ids).Nodup
  length : ∀ c ∈ calls, c.ids.length < 18446744073709551616

variable {calls : List (Call K)} {c : Call K} {state : MatchState K} {seen : List CandidateId}
  {vector : List (RoadCandidate K)}

/-- The calls before the last one are named too. -/
lemma Named.init (h : Named (calls ++ [c])) : Named calls where
  nodup := (nodup_flatMap_concat h.nodup).1
  length d hd := h.length d (List.mem_append_left _ hd)

variable [Ord K] [IntCast K] [Score K K]

/-- The filter gives a vector for the sample of a call. The names are new to the match state. -/
structure Taken (seen : List CandidateId) (state : MatchState K) (c : Call K)
    (vector : List (RoadCandidate K)) : Prop where
  kept : state.Kept seen
  found : c.matcher.vectorFor c.name state c.sample c.duration = .ok vector
  names : c.ids.Nodup
  nodup : (vector.map Candidate.id).Nodup
  fresh : ∀ id ∈ vector.map Candidate.id, id ∉ seen
  length : vector.length < 18446744073709551616

/-- A vector for the last one of named calls has some of its names. -/
lemma Named.taken (h : Named (calls ++ [c])) (hkept : state.Kept (calls.flatMap ids))
    (hvector : c.matcher.vectorFor c.name state c.sample c.duration = .ok vector) :
    Taken (calls.flatMap ids) state c vector := by
  obtain ⟨-, hnodup, hfresh⟩ := nodup_flatMap_concat h.nodup
  obtain ⟨hids, -⟩ := vectorFor_ok hvector
  refine ⟨hkept, hvector, hnodup, hids.nodup hnodup, fun id hid => hfresh id (hids.subset hid), ?_⟩
  calc vector.length = (vector.map Candidate.id).length := (List.length_map ..).symm
    _ ≤ c.ids.length := hids.length_le
    _ < 18446744073709551616 := h.length c (by simp)

/-- The match state accepts the vector. -/
lemma Taken.accept (h : Taken seen state c vector) :
    (state.accept ⟨vector, c.sample⟩).Kept (seen ++ vector.map Candidate.id) :=
  h.kept.accept (show (Update.ids ⟨vector, c.sample⟩).Nodup from h.nodup) h.fresh h.length

/-- A call leaves the match state as it was, or the match state accepts the vector for the sample. -/
lemma after_cases (c : Call K) (state : MatchState K) :
    c.after state = state ∨ ∃ vector,
      c.matcher.vectorFor c.name state c.sample c.duration = .ok vector ∧
      c.after state = state.accept ⟨vector, c.sample⟩ := by
  by_cases hskip : state.sample?.any fun last => c.spacing.excludes last c.sample
  · exact .inl (by rw [after_eq, Matcher.matchSample, if_pos hskip])
  · cases hvector : c.matcher.vectorFor c.name state c.sample c.duration with
    | error e => exact .inl (by rw [after_eq, Matcher.matchSample, if_neg hskip, hvector])
    | ok vector =>
      refine .inr ⟨vector, rfl, ?_⟩
      cases hupdate : state.update vector c.sample <;>
        simp only [after_eq, Matcher.matchSample, if_neg hskip, hvector, hupdate,
          Window.accept]

/-- **What match states have**: what a match state without steps has, and what is kept when the
vector for a sample is accepted, holds after any calls whose names never repeat. -/
theorem run_induction {motive : MatchState K → Prop} (k t : Option Nat)
    (start : motive (.bounded k t)) {calls : List (Call K)} (hnamed : Named calls)
    (accept : ∀ c ∈ calls, ∀ seen state vector, Taken seen state c vector → motive state →
      motive (state.accept ⟨vector, c.sample⟩)) :
    (run k t calls).Kept (calls.flatMap ids) ∧ motive (run k t calls) := by
  induction calls using List.reverseRecOn with
  | nil => exact ⟨Window.kept_bounded k t, start⟩
  | append_singleton calls c ih =>
    obtain ⟨hkept, hmotive⟩ := ih hnamed.init fun d hd => accept d (List.mem_append_left _ hd)
    rw [run_concat, List.flatMap_append, List.flatMap_singleton]
    rcases c.after_cases (run k t calls) with heq | ⟨vector, hvector, heq⟩
    · rw [heq]
      exact ⟨hkept.mono rfl rfl (List.subset_append_left _ _), hmotive⟩
    · have htaken := hnamed.taken hkept hvector
      rw [heq]
      refine ⟨htaken.accept.mono rfl rfl ?_, accept c (by simp) _ _ _ htaken hmotive⟩
      exact List.append_subset.2 ⟨List.subset_append_left _ _,
        fun id hid => List.mem_append_right _ ((vectorFor_ok hvector).1.subset hid)⟩

end Call

end RoadMatching
