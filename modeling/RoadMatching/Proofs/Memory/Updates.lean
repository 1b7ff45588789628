import Mathlib.Tactic
import RoadMatching.Markov.Window

/-!
Sequences of updates of a memory.

* `Update`: a vector and its sample. `Window.accept` is the memory after an update, which is the
  same one if the update is refused, and `Window.feed` the memory after all of some updates.
* `Update.Distinct`: the updates whose candidates have identifiers of their own.
* `Candidate.best?_eq_some`: the best candidate of a vector is the first of greatest score.
* `Window.update_cases`: an update is a break, or refused, or its vector is appended.
-/

namespace RoadMatching

variable {P T Q K S : Type}

/-- A vector of candidates and the sample they are for, as submitted to a memory. -/
structure Update (P T Q K S : Type) where
  vector : List (Candidate P T K S)
  sample : Q

/-- A time is measured at itself. -/
instance : Timed Int := ⟨id⟩

/-- What is distinct with one more list is distinct without it, and all the list brings is new. -/
lemma nodup_flatMap_concat {α β : Type} {f : α → List β} {l : List α} {a : α}
    (h : ((l ++ [a]).flatMap f).Nodup) :
    (l.flatMap f).Nodup ∧ (f a).Nodup ∧ ∀ b ∈ f a, b ∉ l.flatMap f := by
  rw [List.flatMap_append, List.flatMap_singleton, List.nodup_append] at h
  obtain ⟨hbefore, hlast, hne⟩ := h
  exact ⟨hbefore, hlast, fun b hb hold => hne b hold b hb rfl⟩

namespace Update

/-- The identifiers of the candidates. -/
def ids (u : Update P T Q K S) : List CandidateId := u.vector.map Candidate.id

/-- No two candidates of the updates have the same identifier, and the length of a vector is a
number of 64 bits. -/
structure Distinct (updates : List (Update P T Q K S)) : Prop where
  nodup : (updates.flatMap ids).Nodup
  length : ∀ u ∈ updates, u.vector.length < 18446744073709551616

/-- The updates before the last one are distinct too. -/
lemma Distinct.init {updates : List (Update P T Q K S)} {u : Update P T Q K S}
    (h : Distinct (updates ++ [u])) : Distinct updates where
  nodup := (nodup_flatMap_concat h.nodup).1
  length v hv := h.length v (List.mem_append_left _ hv)

/-- The last of distinct updates has identifiers that differ from each other and are new. -/
lemma Distinct.last {updates : List (Update P T Q K S)} {u : Update P T Q K S}
    (h : Distinct (updates ++ [u])) :
    u.ids.Nodup ∧ (∀ id ∈ u.ids, id ∉ updates.flatMap ids) ∧
      u.vector.length < 18446744073709551616 := by
  obtain ⟨-, hnodup, hfresh⟩ := nodup_flatMap_concat h.nodup
  exact ⟨hnodup, hfresh, h.length u (List.mem_append_right _ List.mem_cons_self)⟩

end Update

namespace Candidate

section Best

variable [LT S] [DecidableLT S]

/-- A candidate at the end takes over if its score is greater than the best one so far. -/
lemma best?_concat (vector : List (Candidate P T K S)) (c : Candidate P T K S) :
    best? (vector ++ [c]) =
      match best? vector with
      | some b => if b.score < c.score then some c else some b
      | none => some c := by
  rw [best?, best?, List.foldl_append]
  rfl

/-- The best candidate is one of the vector. -/
lemma mem_of_best? {vector : List (Candidate P T K S)} {b : Candidate P T K S}
    (h : best? vector = some b) : b ∈ vector := by
  induction vector using List.reverseRecOn generalizing b with
  | nil => cases h
  | append_singleton vector c ih =>
    rw [best?_concat] at h
    cases hbest : best? vector with
    | none =>
      rw [hbest] at h
      cases h
      exact List.mem_append_right _ List.mem_cons_self
    | some a =>
      rw [hbest] at h
      simp only at h
      split at h
      · cases h
        exact List.mem_append_right _ List.mem_cons_self
      · cases h
        exact List.mem_append_left _ (ih hbest)

/-- Only the empty vector has no best candidate. -/
lemma best?_eq_none_iff {vector : List (Candidate P T K S)} :
    best? vector = none ↔ vector = [] := by
  refine ⟨fun h => ?_, fun h => h ▸ rfl⟩
  cases vector using List.reverseRecOn with
  | nil => rfl
  | append_singleton vector c =>
    rw [best?_concat] at h
    cases hbest : best? vector with
    | none =>
      rw [hbest] at h
      cases h
    | some a =>
      rw [hbest] at h
      simp only at h
      split at h <;> cases h

end Best

/-- Over a linear order, the best candidate is the first of greatest score. -/
lemma best?_eq_some [LinearOrder S] {vector : List (Candidate P T K S)} {b : Candidate P T K S}
    (h : best? vector = some b) :
    ∃ before after, vector = before ++ b :: after ∧ (∀ c ∈ before, c.score < b.score) ∧
      ∀ c ∈ after, c.score ≤ b.score := by
  induction vector using List.reverseRecOn generalizing b with
  | nil => cases h
  | append_singleton vector c ih =>
    rw [best?_concat] at h
    cases hbest : best? vector with
    | none =>
      rw [hbest] at h
      cases h
      rw [best?_eq_none_iff.1 hbest]
      exact ⟨[], [], rfl, by simp, by simp⟩
    | some a =>
      obtain ⟨before, after, rfl, hbefore, hafter⟩ := ih hbest
      rw [hbest] at h
      simp only at h
      split at h
      · next hlt =>
        cases h
        refine ⟨before ++ a :: after, [], rfl, fun d hd => ?_, by simp⟩
        rcases List.mem_append.1 hd with hd | hd
        · exact (hbefore d hd).trans hlt
        · rcases List.mem_cons.1 hd with rfl | hd
          · exact hlt
          · exact (hafter d hd).trans_lt hlt
      · next hge =>
        cases h
        refine ⟨before, after ++ [c], by simp, hbefore, fun d hd => ?_⟩
        rcases List.mem_append.1 hd with hd | hd
        · exact hafter d hd
        · rw [List.mem_singleton.1 hd]
          exact not_lt.1 hge

end Candidate

namespace Window

/-- The candidates that may be named are those of the last step. -/
lemma mem_latest {w : Window P T Q K S} {id : CandidateId} (h : id ∈ w.latest) :
    w.broken = false ∧ ∃ step, w.steps.getLast? = some step ∧ id ∈ step.members := by
  rw [latest] at h
  split at h
  · cases h
  · next hb =>
    refine ⟨Bool.eq_false_iff.2 hb, ?_⟩
    cases hlast : w.steps.getLast? with
    | none =>
      rw [hlast] at h
      cases h
    | some step =>
      rw [hlast] at h
      exact ⟨step, rfl, h⟩

variable [Timed Q]

/-- A vector is not refused if its sample is in time and the predecessors it names are in the last
vector. -/
lemma fault?_eq_none_iff {w : Window P T Q K S} {vector : List (Candidate P T K S)} {sample : Q} :
    w.fault? vector sample = none ↔
      (∀ last, w.time? = some last → ¬ Timed.time sample < last) ∧
        ∀ c ∈ vector, ∀ p, c.predecessor = some p → p ∈ w.latest ∧ w.held.contains p = true := by
  rw [fault?, Option.or_eq_none_iff, Option.bind_eq_none_iff, List.findSome?_eq_none_iff]
  simp only [Option.bind_eq_none_iff, ite_eq_right_iff, ite_eq_left_iff, reduceCtorEq, imp_false,
    not_not, Bool.and_eq_true, List.contains_iff_mem]

variable [LT S] [DecidableLT S]

/-- An update is a break, or it is refused, or its vector is appended. -/
lemma update_cases (w : Window P T Q K S) (vector : List (Candidate P T K S)) (sample : Q) :
    (vector = [] ∧ w.update vector sample = .ok { w with breaks := w.breaks + 1, broken := true }) ∨
    (∃ error, vector ≠ [] ∧ w.fault? vector sample = some error ∧
      w.update vector sample = .error error) ∨
    ∃ best, Candidate.best? vector = some best ∧ w.fault? vector sample = none ∧
      w.update vector sample =
        .ok (((w.countReferences vector).pruneLast.append vector sample best.id).evict) := by
  cases hbest : Candidate.best? vector with
  | none => exact .inl ⟨Candidate.best?_eq_none_iff.1 hbest, by rw [update, hbest]⟩
  | some best =>
    have hne : vector ≠ [] := by
      rintro rfl
      cases hbest
    cases hfault : w.fault? vector sample with
    | some error => exact .inr (.inl ⟨error, hne, rfl, by rw [update, hbest, hfault]⟩)
    | none => exact .inr (.inr ⟨best, rfl, rfl, by rw [update, hbest, hfault]⟩)

/-- The memory after an update. One that is refused changes nothing. -/
def accept (w : Window P T Q K S) (u : Update P T Q K S) : Window P T Q K S :=
  match w.update u.vector u.sample with
  | .ok after => after
  | .error _ => w

/-- The memory after all updates, first to last. -/
def feed (w : Window P T Q K S) (updates : List (Update P T Q K S)) : Window P T Q K S :=
  updates.foldl accept w

lemma feed_concat (w : Window P T Q K S) (updates : List (Update P T Q K S))
    (u : Update P T Q K S) : w.feed (updates ++ [u]) = (w.feed updates).accept u := by
  rw [feed, feed, List.foldl_append]
  rfl

end Window

/-- Updates that branch, one that is refused, and a break: `b3` is on the way to both `c1` and `c2`,
`x1` names a candidate that is not in the last vector, and `d1` starts anew. -/
def Update.fork : List (Update Unit Unit Int Int Int) :=
  let c (id : CandidateId) (predecessor : Option CandidateId) (score : Int) :
    Candidate Unit Unit Int Int := ⟨id, (), predecessor, none, 0, score⟩
  [⟨[c "a1" none 3, c "a2" none 5, c "a3" none 1], 0⟩,
    ⟨[c "b1" (some "a1") 4, c "b2" (some "a1") 7, c "b3" (some "a3") 6], 1⟩,
    ⟨[c "x1" (some "a2") 9], 2⟩,
    ⟨[c "c1" (some "b3") 8, c "c2" (some "b3") 9], 3⟩,
    ⟨[], 4⟩,
    ⟨[c "d1" none 1, c "d2" none 0], 5⟩,
    ⟨[c "e1" (some "d2") 1], 6⟩]

end RoadMatching
