import RoadMatching.Proofs.Filtering.Arrivals

/-!
Where the candidates of a filter step come from.

* `Candidate.IsRoot`: a candidate that nothing precedes. `Candidate.ComesFrom`: one that is a root
  or names one of some predecessors; without predecessors it is a root. `Candidate.ComesBy`: one that
  names a predecessor with the transition from it.
* `Candidate.Continues`: a candidate with another belief and score, and with where it comes from.
* `Filter.continues_reach`, `Filter.exists_continues`: the candidates that go on name predecessors
  that they are reached from, with the transitions that they are reached by.
* `Filter.execute_ok`: a step gives some of the candidates of the sample, each of which comes from
  the predecessors. `Filter.execute_comesBy`: those that are no roots come by the transitions asked
  for. `Filter.execute_error`: it fails only if the candidates or the transitions fail.
-/

namespace RoadMatching

variable {P T Q K S ε : Type}

namespace Candidate

/-- Nothing precedes the candidate. -/
def IsRoot (c : Candidate P T K S) : Prop := c.predecessor = none ∧ c.transition = none

/-- The candidate is a root, or one of the predecessors precedes it. -/
def ComesFrom (predecessors : List (Candidate P T K S)) (c : Candidate P T K S) : Prop :=
  c.IsRoot ∨ ∃ p ∈ predecessors, c.predecessor = some p.id

/-- The candidate is a root, or one of the predecessors precedes it by the transition to it. -/
def ComesBy (transitions : Transitions T K) (predecessors : List (Candidate P T K S))
    (c : Candidate P T K S) : Prop :=
  c.IsRoot ∨ ∃ p ∈ predecessors, ∃ t x, transitions.between? p.id c.id = some (t, x) ∧
    c.predecessor = some p.id ∧ c.transition = some t

variable {predecessors : List (Candidate P T K S)} {c d : Candidate P T K S}
  {transitions : Transitions T K}

lemma ComesFrom.isRoot (h : ComesFrom [] c) : c.IsRoot := by
  simpa [ComesFrom] using h

lemma ComesBy.comesFrom (h : c.ComesBy transitions predecessors) : c.ComesFrom predecessors := by
  rcases h with hroot | ⟨p, hp, t, x, -, hname, -⟩
  · exact .inl hroot
  · exact .inr ⟨p, hp, hname⟩

/-- The candidate `d` is `c` with what a filter step says about it. -/
structure Continues (transitions : Transitions T K) (predecessors : List (Candidate P T K S))
    (c d : Candidate P T K S) : Prop where
  id : d.id = c.id
  payload : d.payload = c.payload
  comes : c.IsRoot → d.ComesBy transitions predecessors

/-- Another belief or score makes no difference. -/
lemma Continues.rate (h : Continues transitions predecessors c d) (belief : K) (score : S) :
    Continues transitions predecessors c { d with belief := belief, score := score } :=
  ⟨h.id, h.payload, h.comes⟩

end Candidate

/-- Some of the transitions. -/
def Transitions.IsPart (left transitions : Transitions T K) : Prop :=
  ∀ p c found, left.between? p c = some found → transitions.between? p c = some found

namespace Filter

open Candidate (Continues)

section Steps

variable [Zero K] [Add K] [Mul K] [BEq K] [Add S] [LT S] [DecidableLT S] [Score K S]
  {predecessors : List (Candidate P T K S)} {transitions : Transitions T K}

omit [Add K] [Mul K] [Add S] [LT S] [DecidableLT S] [Score K S] in
/-- An arrival has the transition from its predecessor. -/
lemma of_mem_arrivals {id : CandidateId} {a : Candidate P T K S × T × K}
    (h : a ∈ arrivals predecessors transitions id) :
    a.1 ∈ predecessors ∧ transitions.between? a.1.id id = some a.2 := by
  obtain ⟨p, hp, hbind⟩ := List.mem_filterMap.1 h
  obtain ⟨found, hfound, hif⟩ := Option.bind_eq_some_iff.1 hbind
  split at hif
  · cases hif
  · cases hif
    exact ⟨hp, hfound⟩

/-- A transition is used up at most. -/
lemma isPart_arrive (emission : K) {state : Candidate P T K S × Transitions T K}
    (h : state.2.IsPart transitions) (p : Candidate P T K S) :
    (arrive emission state p).2.IsPart transitions := by
  have hwithout : (state.2.without p.id state.1.id).IsPart transitions := by
    intro q d found hfound
    rw [Transitions.between?_without] at hfound
    split at hfound
    · cases hfound
    · exact h q d found hfound
  rw [arrive]
  split
  · exact h
  · dsimp only
    split
    · exact hwithout
    · split <;> exact hwithout

/-- A candidate goes on from a predecessor by the transition from it. -/
lemma continues_arrive (emission : K) {c : Candidate P T K S}
    {state : Candidate P T K S × Transitions T K} (hpart : state.2.IsPart transitions)
    (h : Continues transitions predecessors c state.1) {p : Candidate P T K S}
    (hp : p ∈ predecessors) : Continues transitions predecessors c (arrive emission state p).1 := by
  rw [(arrive_eq emission state.1 state.2 p).1]
  refine List.foldlRecOn _ (offer emission) h fun d hd a ha => ?_
  obtain ⟨hfrom, hfound⟩ := of_mem_arrivals ha
  obtain rfl := List.mem_singleton.1 hfrom
  rw [offer]
  split
  · refine ⟨hd.id, hd.payload, fun _ => .inr ⟨a.1, hp, a.2.1, a.2.2, ?_, rfl, rfl⟩⟩
    exact hpart _ _ _ (hd.id.trans h.id.symm ▸ hfound)
  · exact hd.rate _ _

/-- A candidate that is reached goes on from the predecessors. -/
lemma continues_reach (c : Candidate P T K S) (emission : K) {left : Transitions T K}
    (hpart : left.IsPart transitions) :
    Continues transitions predecessors c (reach predecessors c emission left).1 ∧
      (reach predecessors c emission left).2.IsPart transitions :=
  List.foldlRecOn predecessors (arrive emission)
    (motive := fun state => Continues transitions predecessors c state.1 ∧
      state.2.IsPart transitions) ⟨⟨rfl, rfl, .inl⟩, hpart⟩
    fun _ hstate p hp =>
      ⟨continues_arrive emission hstate.2 hstate.1 hp, isPart_arrive emission hstate.2 p⟩

/-- Each candidate that goes on is one of those given. -/
lemma exists_continues {candidates : List (Candidate P T K S × K)} {left : Transitions T K}
    (hpart : left.IsPart transitions) :
    ∀ d ∈ continued predecessors candidates left, ∃ c ∈ candidates,
      Continues transitions predecessors c.1 d := by
  induction candidates generalizing left with
  | nil => simp [continued]
  | cons c rest ih =>
    obtain ⟨c, emission⟩ := c
    obtain ⟨hreach, hleft⟩ : Continues transitions predecessors c
        (reach predecessors c emission left).1 ∧
      (reach predecessors c emission left).2.IsPart transitions := continues_reach c emission hpart
    have hrest : ∀ d ∈ continued predecessors rest (reach predecessors c emission left).2,
        ∃ e ∈ (c, emission) :: rest, Continues transitions predecessors e.1 d := by
      intro d hd
      obtain ⟨e, he, hcontinues⟩ := ih hleft d hd
      exact ⟨e, List.mem_cons_of_mem _ he, hcontinues⟩
    intro d hd
    rw [continued] at hd
    simp only at hd
    split at hd
    · exact hrest d hd
    · rcases List.mem_cons.1 hd with rfl | hd
      · exact ⟨(c, emission), List.mem_cons_self, hreach.rate _ _⟩
      · exact hrest d hd

end Steps

variable [Zero K] [Add K] [Mul K] [Div K] [BEq K] [Add S] [LT S] [DecidableLT S] [Score K S]

/-- A step fails with the candidates or with the transitions, or it gives the candidates that go on,
and if there are none then those with an emission. -/
lemma execute_cases (filter : Filter P T Q ε K S) (predecessors : List (Candidate P T K S))
    (previous : Option Q) (sample : Q) :
    (∃ e, filter.candidates predecessors sample = .error e ∧
      filter.execute predecessors previous sample = .error e) ∨
    (∃ e before after, filter.transitions before after = .error e ∧
      filter.execute predecessors previous sample = .error e) ∨
    ∃ candidates reached, filter.candidates predecessors sample = .ok candidates ∧
      (reached = [] ∨ ∃ before transitions, previous = some before ∧
        filter.transitions (before, predecessors) (sample, candidates.map Prod.fst) =
          .ok transitions ∧
        reached = continued predecessors candidates transitions) ∧
      filter.execute predecessors previous sample =
        .ok (normalise (if reached.isEmpty then rooted candidates else reached)) := by
  rw [execute]
  cases hc : filter.candidates predecessors sample with
  | error e => exact .inl ⟨e, rfl, rfl⟩
  | ok candidates =>
    cases previous with
    | none => exact .inr (.inr ⟨candidates, [], rfl, .inl rfl, rfl⟩)
    | some previous =>
      cases predecessors with
      | nil => exact .inr (.inr ⟨candidates, [], rfl, .inl rfl, rfl⟩)
      | cons p rest =>
        simp only [bind, Except.bind]
        cases ht : filter.transitions (previous, p :: rest) (sample, candidates.map Prod.fst) with
        | error e => exact .inr (.inl ⟨e, _, _, ht, rfl⟩)
        | ok transitions =>
          exact .inr (.inr ⟨candidates, _, rfl, .inr ⟨previous, transitions, rfl, ht, rfl⟩, rfl⟩)

variable {filter : Filter P T Q ε K S} {predecessors : List (Candidate P T K S)}
  {previous : Option Q} {sample : Q}

/-- A step gives candidates of the sample, in their order. Those that are no roots come by the
transitions from the predecessors. -/
lemma execute_comesBy {vector : List (Candidate P T K S)}
    (h : filter.execute predecessors previous sample = .ok vector) :
    ∃ candidates, filter.candidates predecessors sample = .ok candidates ∧
      (vector.map Candidate.id).Sublist (candidates.map fun c => c.1.id) ∧
      ∀ d ∈ vector, ∃ c ∈ candidates, d.id = c.1.id ∧ d.payload = c.1.payload ∧
        (d.IsRoot ∨ ∃ before transitions, previous = some before ∧
          filter.transitions (before, predecessors) (sample, candidates.map Prod.fst) =
            .ok transitions ∧
          (c.1.IsRoot → d.ComesBy transitions predecessors)) := by
  rcases filter.execute_cases predecessors previous sample with
    ⟨e, -, he⟩ | ⟨e, _, _, -, he⟩ | ⟨candidates, reached, hc, hreached, hok⟩
  · cases he.symm.trans h
  · cases he.symm.trans h
  · rw [hok, Except.ok.injEq] at h
    subst h
    refine ⟨candidates, hc, ?_, fun d hd => ?_⟩
    · refine sublist_ids_normalise ?_
      rcases hreached with rfl | ⟨_, transitions, -, -, rfl⟩
      · exact List.nil_sublist _
      · exact sublist_ids_continued ..
    · obtain ⟨e, he, rfl⟩ := mem_normalise.1 hd
      split at he
      · obtain ⟨c, hmem, rfl⟩ := List.mem_map.1 he
        exact ⟨c, List.mem_of_mem_filter hmem, rfl, rfl, .inl ⟨rfl, rfl⟩⟩
      · rcases hreached with rfl | ⟨before, transitions, hprevious, ht, rfl⟩
        · cases he
        · obtain ⟨c, hmem, hcontinues⟩ := exists_continues (fun _ _ _ hfound => hfound) e he
          exact ⟨c, hmem, hcontinues.id, hcontinues.payload,
            .inr ⟨before, transitions, hprevious, ht, hcontinues.comes⟩⟩

/-- A step gives candidates of the sample, in their order, that come from the predecessors. -/
lemma execute_ok {vector : List (Candidate P T K S)}
    (h : filter.execute predecessors previous sample = .ok vector) :
    ∃ candidates, filter.candidates predecessors sample = .ok candidates ∧
      (vector.map Candidate.id).Sublist (candidates.map fun c => c.1.id) ∧
      ((∀ c ∈ candidates, c.1.IsRoot) → ∀ c ∈ vector, c.ComesFrom predecessors) := by
  obtain ⟨candidates, hc, hids, hcomes⟩ := execute_comesBy h
  refine ⟨candidates, hc, hids, fun hroots d hd => ?_⟩
  obtain ⟨c, hmem, -, -, hroot | ⟨_, transitions, -, -, hcomes⟩⟩ := hcomes d hd
  · exact .inl hroot
  · exact (hcomes (hroots c hmem)).comesFrom

/-- A step fails if there are no candidates to be had, or no transitions. -/
lemma execute_error {e : ε} (h : filter.execute predecessors previous sample = .error e) :
    filter.candidates predecessors sample = .error e ∨
      ∃ before after, filter.transitions before after = .error e := by
  rcases filter.execute_cases predecessors previous sample with
    ⟨e', hc, he⟩ | ⟨e', before, after, ht, he⟩ | ⟨candidates, reached, -, -, hok⟩
  · cases he.symm.trans h
    exact .inl hc
  · cases he.symm.trans h
    exact .inr ⟨before, after, ht⟩
  · cases hok.symm.trans h

end Filter

end RoadMatching
