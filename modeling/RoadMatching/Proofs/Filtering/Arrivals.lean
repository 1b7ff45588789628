import Mathlib.Tactic
import RoadMatching.Markov.Filter

/-!
What the filter makes of the transitions to a candidate.

A transition is used up when it is looked at, but with distinct identifiers nobody looks at it
again, so each candidate is found from the transitions as they were given.

* `Filter.arrivals`: the transitions to a candidate that are not impossible, each with the
  predecessor it comes from; `Filter.offer` is what one of them does to the candidate.
* `Filter.going`: the candidates that go on, before their emissions count; `Filter.going_eq` and
  `Filter.continued_eq` find each from its own arrivals.
* `Filter.belief_foldl_offer`, `Filter.score_foldl_offer`: the belief is the sum over the arrivals,
  and the score the greatest one that they offer.
* `Filter.normalise`: shares keep the order, the scores and the predecessors.
-/

namespace RoadMatching

variable {P T K S : Type}

/-- Looking at a transition uses up that one only. -/
lemma Transitions.between?_without (transitions : Transitions T K) (p c q d : CandidateId) :
    (transitions.without p c).between? q d =
      if q = p ∧ d = c then none else transitions.between? q d := by
  rw [between?, without, Table.find?_modify, between?]
  by_cases hq : q = p
  · rw [if_pos hq, Option.bind_map]
    cases transitions.find? q with
    | none => simp
    | some row =>
      rw [Option.bind_some, Function.comp_apply, Table.find?_erase, Option.bind_some]
      by_cases hd : d = c <;> simp [hq, hd]
  · rw [if_neg hq, if_neg fun h => hq h.1]

namespace Filter

section Arrivals

variable [Zero K] [BEq K]

/-- The transitions to a candidate that are not impossible, each with its predecessor. -/
def arrivals (predecessors : List (Candidate P T K S)) (transitions : Transitions T K)
    (id : CandidateId) : List (Candidate P T K S × T × K) :=
  predecessors.filterMap fun p =>
    (transitions.between? p.id id).bind fun t => if t.2 == 0 then none else some (p, t)

/-- Arrivals depend on the transitions from the predecessors to the candidate alone. -/
lemma arrivals_congr {predecessors : List (Candidate P T K S)} {transitions left : Transitions T K}
    {id : CandidateId}
    (h : ∀ p ∈ predecessors, left.between? p.id id = transitions.between? p.id id) :
    arrivals predecessors left id = arrivals predecessors transitions id :=
  List.filterMap_congr fun p hp => by rw [h p hp]

end Arrivals

section Offers

variable [Add K] [Mul K] [Add S] [Score K S]

/-- The score of a candidate that comes by an arrival. -/
def arrivalScore (emission : K) (a : Candidate P T K S × T × K) : S :=
  a.1.score + Score.log10 a.2.2 + Score.log10 emission

variable [LT S] [DecidableLT S]

/-- A candidate after an arrival: its belief grows, and it comes by the arrival if that offers a
greater score. -/
def offer (emission : K) (c : Candidate P T K S)
    (a : Candidate P T K S × T × K) : Candidate P T K S :=
  if c.score < arrivalScore emission a then
    { c with
      predecessor := some a.1.id
      transition := some a.2.1
      belief := c.belief + a.2.2 * a.1.belief
      score := arrivalScore emission a }
  else { c with belief := c.belief + a.2.2 * a.1.belief }

lemma id_offer (emission : K) (c : Candidate P T K S) (a : Candidate P T K S × T × K) :
    (offer emission c a).id = c.id := by
  rw [offer]
  split <;> rfl

lemma id_foldl_offer (emission : K) (arrivals : List (Candidate P T K S × T × K))
    (c : Candidate P T K S) : (arrivals.foldl (offer emission) c).id = c.id := by
  induction arrivals generalizing c with
  | nil => rfl
  | cons a rest ih => rw [List.foldl_cons, ih, id_offer]

end Offers

/-! ### From transitions to arrivals -/

section Landing

variable [Zero K] [Add K] [Mul K] [BEq K] [Add S] [Score K S] [LT S] [DecidableLT S]

/-- A candidate after all its arrivals. -/
def landed (predecessors : List (Candidate P T K S))
    (transitions : Transitions T K) (c : Candidate P T K S × K) : Candidate P T K S :=
  (arrivals predecessors transitions c.1.id).foldl (offer c.2)
    { c.1 with belief := 0, score := Score.impossible K }

/-- One predecessor adds its arrival, if there is one, and uses up its transition. -/
lemma arrive_eq (emission : K) (c : Candidate P T K S) (transitions : Transitions T K)
    (p : Candidate P T K S) :
    (arrive emission (c, transitions) p).1 =
        (arrivals [p] transitions c.id).foldl (offer emission) c ∧
      ∀ q d, ¬ (q = p.id ∧ d = c.id) →
        (arrive emission (c, transitions) p).2.between? q d = transitions.between? q d := by
  have hleft : ∀ q d, ¬ (q = p.id ∧ d = c.id) →
      (transitions.without p.id c.id).between? q d = transitions.between? q d := by
    intro q d hne
    rw [Transitions.between?_without, if_neg hne]
  rw [arrive, arrivals]
  simp only [List.filterMap_cons, List.filterMap_nil]
  cases hb : transitions.between? p.id c.id with
  | none => exact ⟨rfl, fun _ _ _ => rfl⟩
  | some found =>
    obtain ⟨t, x⟩ := found
    cases hx : x == 0 with
    | true =>
      simp only [Option.bind_some, hx, if_true]
      exact ⟨rfl, hleft⟩
    | false =>
      simp only [Option.bind_some, hx, Bool.false_eq_true, if_false, List.foldl_cons,
        List.foldl_nil, offer, arrivalScore]
      by_cases hlt : c.score < p.score + Score.log10 x + Score.log10 emission
      · simp only [hlt, if_true]
        exact ⟨trivial, hleft⟩
      · simp only [hlt, if_false]
        exact ⟨trivial, hleft⟩

/-- A candidate that is reached keeps its identifier. -/
lemma id_reach (predecessors : List (Candidate P T K S)) (c : Candidate P T K S) (emission : K)
    (transitions : Transitions T K) :
    (reach predecessors c emission transitions).1.id = c.id := by
  have key : ∀ state : Candidate P T K S × Transitions T K,
      (predecessors.foldl (arrive emission) state).1.id = state.1.id := by
    induction predecessors with
    | nil => exact fun _ => rfl
    | cons p rest ih =>
      rintro ⟨c, transitions⟩
      rw [List.foldl_cons, ih, (arrive_eq emission c transitions p).1, id_foldl_offer]
  exact key _

/-- The candidates that go on are some of those given, in their order. -/
lemma sublist_ids_continued (predecessors : List (Candidate P T K S))
    (candidates : List (Candidate P T K S × K)) (transitions : Transitions T K) :
    ((continued predecessors candidates transitions).map Candidate.id).Sublist
      (candidates.map fun c => c.1.id) := by
  induction candidates generalizing transitions with
  | nil => exact List.Sublist.slnil
  | cons c rest ih =>
    obtain ⟨c, emission⟩ := c
    have hid := id_reach predecessors c emission transitions
    rw [continued]
    simp only
    split
    · exact (ih _).cons _
    · rw [List.map_cons, List.map_cons, hid]
      exact (ih _).cons_cons _

/-- All predecessors add their arrivals, and the transitions to other candidates are left. -/
lemma foldl_arrive_eq (emission : K) {predecessors : List (Candidate P T K S)}
    (hnodup : (predecessors.map Candidate.id).Nodup) (c : Candidate P T K S)
    (transitions : Transitions T K) :
    (predecessors.foldl (arrive emission) (c, transitions)).1 =
        (arrivals predecessors transitions c.id).foldl (offer emission) c ∧
      ∀ q d, d ≠ c.id → (predecessors.foldl (arrive emission) (c, transitions)).2.between? q d =
        transitions.between? q d := by
  induction predecessors generalizing c transitions with
  | nil => exact ⟨rfl, fun _ _ _ => rfl⟩
  | cons p rest ih =>
    rw [List.map_cons, List.nodup_cons] at hnodup
    obtain ⟨hnot, hnodup⟩ := hnodup
    obtain ⟨hfirst, hleft⟩ := arrive_eq emission c transitions p
    rw [List.foldl_cons]
    generalize arrive emission (c, transitions) p = state at hfirst hleft ⊢
    obtain ⟨first, left⟩ := state
    simp only at hfirst hleft
    have hid : first.id = c.id := by rw [hfirst, id_foldl_offer]
    obtain ⟨hrest, hleft'⟩ := ih hnodup first left
    have hsame : arrivals rest left c.id = arrivals rest transitions c.id := by
      refine arrivals_congr fun q hq => hleft q.id c.id fun hboth => hnot ?_
      exact hboth.1 ▸ List.mem_map_of_mem hq
    refine ⟨?_, fun q d hd => ?_⟩
    · rw [hrest, hid, hsame, hfirst, ← List.foldl_append, arrivals, arrivals, arrivals,
        ← List.filterMap_append, List.singleton_append]
    · rw [hleft' q d (hid ▸ hd), hleft q d fun hboth => hd hboth.2]

/-- A candidate is reached by its arrivals. -/
lemma reach_eq {predecessors : List (Candidate P T K S)}
    (hnodup : (predecessors.map Candidate.id).Nodup) (c : Candidate P T K S) (emission : K)
    (transitions : Transitions T K) :
    (reach predecessors c emission transitions).1 = landed predecessors transitions (c, emission) ∧
      ∀ q d, d ≠ c.id →
        (reach predecessors c emission transitions).2.between? q d = transitions.between? q d :=
  foldl_arrive_eq emission hnodup _ transitions

/-- The candidates that go on, before their emissions count, each with its emission. -/
def going (predecessors : List (Candidate P T K S)) :
    List (Candidate P T K S × K) → Transitions T K → List (Candidate P T K S × K)
  | [], _ => []
  | (candidate, emission) :: rest, transitions =>
    let (reached, left) := reach predecessors candidate emission transitions
    if reached.belief == 0 then going predecessors rest left
    else (reached, emission) :: going predecessors rest left

/-- What goes on is multiplied by its emission. -/
lemma continued_eq_map_going (predecessors : List (Candidate P T K S))
    (candidates : List (Candidate P T K S × K)) (transitions : Transitions T K) :
    continued predecessors candidates transitions =
      (going predecessors candidates transitions).map fun c =>
        { c.1 with belief := c.1.belief * c.2 } := by
  induction candidates generalizing transitions with
  | nil => rfl
  | cons c rest ih =>
    rw [continued, going]
    simp only [ih]
    split <;> rfl

/-- The candidates that go on, each from its own arrivals. -/
lemma going_eq {predecessors : List (Candidate P T K S)}
    (hnodup : (predecessors.map Candidate.id).Nodup) {candidates : List (Candidate P T K S × K)}
    (hdistinct : (candidates.map fun c => c.1.id).Nodup) (transitions : Transitions T K) :
    going predecessors candidates transitions =
      candidates.filterMap fun c =>
        if (landed predecessors transitions c).belief == 0 then none
        else some (landed predecessors transitions c, c.2) := by
  have key : ∀ left : Transitions T K,
      (∀ c ∈ candidates, ∀ q, left.between? q c.1.id = transitions.between? q c.1.id) →
      going predecessors candidates left =
        candidates.filterMap fun c =>
          if (landed predecessors transitions c).belief == 0 then none
          else some (landed predecessors transitions c, c.2) := by
    induction candidates with
    | nil => exact fun _ _ => rfl
    | cons c rest ih =>
      intro left hleft
      obtain ⟨c, emission⟩ := c
      rw [List.map_cons, List.nodup_cons] at hdistinct
      obtain ⟨hreach, hothers⟩ := reach_eq hnodup c emission left
      have hlanded : landed predecessors left (c, emission) =
          landed predecessors transitions (c, emission) := by
        have hsame : arrivals predecessors left c.id = arrivals predecessors transitions c.id :=
          arrivals_congr fun p _ => hleft _ List.mem_cons_self p.id
        rw [landed, hsame, landed]
      have hrest := ih hdistinct.2 (reach predecessors c emission left).2 fun d hd q => by
        have hne : d.1.id ≠ c.id := fun heq =>
          hdistinct.1 (List.mem_map.2 ⟨d, hd, heq⟩)
        rw [hothers q d.1.id hne, hleft d (List.mem_cons_of_mem _ hd)]
      rw [going]
      simp only [hreach, hlanded, hrest, List.filterMap_cons]
      split <;> rfl
  exact key transitions fun _ _ _ => rfl

/-- The candidates that go on, each from its own arrivals and multiplied by its emission. -/
lemma continued_eq {predecessors : List (Candidate P T K S)}
    (hnodup : (predecessors.map Candidate.id).Nodup) {candidates : List (Candidate P T K S × K)}
    (hdistinct : (candidates.map fun c => c.1.id).Nodup) (transitions : Transitions T K) :
    continued predecessors candidates transitions =
      candidates.filterMap fun c =>
        if (landed predecessors transitions c).belief == 0 then none
        else some { landed predecessors transitions c with
          belief := (landed predecessors transitions c).belief * c.2 } := by
  rw [continued_eq_map_going, going_eq hnodup hdistinct, List.map_filterMap]
  refine List.filterMap_congr fun c _ => ?_
  split <;> rfl

end Landing

/-! ### Beliefs and scores -/

/-- The belief grows by the share of each arrival. -/
lemma belief_foldl_offer [Field K] [Add S] [Score K S] [LT S] [DecidableLT S] (emission : K)
    (arrivals : List (Candidate P T K S × T × K)) (c : Candidate P T K S) :
    (arrivals.foldl (offer emission) c).belief =
      c.belief + (arrivals.map fun a => a.2.2 * a.1.belief).sum := by
  induction arrivals generalizing c with
  | nil => simp
  | cons a rest ih =>
    have hoffer : (offer emission c a).belief = c.belief + a.2.2 * a.1.belief := by
      rw [offer]
      split <;> rfl
    rw [List.foldl_cons, ih, hoffer, List.map_cons, List.sum_cons, add_assoc]

/-- The score is the greatest of those offered and the one there was, and the predecessor belongs to
it. -/
lemma score_foldl_offer [Add K] [Mul K] [Add S] [Score K S] [LinearOrder S] (emission : K)
    (arrivals : List (Candidate P T K S × T × K)) (c : Candidate P T K S) :
    c.score ≤ (arrivals.foldl (offer emission) c).score ∧
      (∀ a ∈ arrivals, arrivalScore emission a ≤ (arrivals.foldl (offer emission) c).score) ∧
      ((arrivals.foldl (offer emission) c).predecessor = c.predecessor ∧
          (arrivals.foldl (offer emission) c).score = c.score ∨
        ∃ a ∈ arrivals, (arrivals.foldl (offer emission) c).predecessor = some a.1.id ∧
          (arrivals.foldl (offer emission) c).score = arrivalScore emission a) := by
  induction arrivals generalizing c with
  | nil => exact ⟨le_rfl, fun a ha => (by cases ha), .inl ⟨rfl, rfl⟩⟩
  | cons a rest ih =>
    have hfirst : c.score ≤ (offer emission c a).score ∧
        arrivalScore emission a ≤ (offer emission c a).score ∧
        ((offer emission c a).predecessor = c.predecessor ∧ (offer emission c a).score = c.score ∨
          (offer emission c a).predecessor = some a.1.id ∧
            (offer emission c a).score = arrivalScore emission a) := by
      rw [offer]
      split
      · next hlt => exact ⟨hlt.le, le_rfl, .inr ⟨rfl, rfl⟩⟩
      · next hge => exact ⟨le_rfl, not_lt.1 hge, .inl ⟨rfl, rfl⟩⟩
    obtain ⟨hkept, hoffered, hsource⟩ := hfirst
    obtain ⟨hle, hall, hrest⟩ := ih (offer emission c a)
    rw [List.foldl_cons]
    refine ⟨hkept.trans hle, fun b hb => ?_, ?_⟩
    · rcases List.mem_cons.1 hb with rfl | hb
      · exact hoffered.trans hle
      · exact hall b hb
    · rcases hrest with ⟨hp, hs⟩ | ⟨b, hb, hp, hs⟩
      · rcases hsource with ⟨hp', hs'⟩ | ⟨hp', hs'⟩
        · exact .inl ⟨hp.trans hp', hs.trans hs'⟩
        · exact .inr ⟨a, List.mem_cons_self, hp.trans hp', hs.trans hs'⟩
      · exact .inr ⟨b, List.mem_cons_of_mem a hb, hp, hs⟩

/-- Arrivals come from predecessors by transitions that are not impossible. -/
lemma mem_arrivals [Zero K] [BEq K] [LawfulBEq K] {predecessors : List (Candidate P T K S)}
    {transitions : Transitions T K} {id : CandidateId} {a : Candidate P T K S × T × K} :
    a ∈ arrivals predecessors transitions id ↔
      a.1 ∈ predecessors ∧ transitions.between? a.1.id id = some a.2 ∧ a.2.2 ≠ 0 := by
  obtain ⟨p, t, x⟩ := a
  rw [arrivals, List.mem_filterMap]
  constructor
  · rintro ⟨q, hq, h⟩
    obtain ⟨⟨t', x'⟩, hb, hif⟩ := Option.bind_eq_some_iff.1 h
    split at hif
    · cases hif
    · next hne =>
      rw [Option.some.injEq, Prod.mk.injEq] at hif
      obtain ⟨rfl, rfl, rfl⟩ := hif
      exact ⟨hq, hb, by simpa using hne⟩
  · rintro ⟨hp, hb, hne⟩
    refine ⟨p, hp, ?_⟩
    rw [hb, Option.bind_some, if_neg (by simpa using hne)]

/-! ### Shares -/

section Shares

variable [Zero K] [Add K] [Div K]

lemma map_id_normalise (vector : List (Candidate P T K S)) :
    (normalise vector).map Candidate.id = vector.map Candidate.id := by
  rw [normalise, List.map_map]
  rfl

/-- A vector that falls back on the roots, if nothing goes on, has some of the candidates given, in
their order. -/
lemma sublist_ids_normalise [BEq K] [Score K S] {reached : List (Candidate P T K S)}
    {candidates : List (Candidate P T K S × K)}
    (h : (reached.map Candidate.id).Sublist (candidates.map fun c => c.1.id)) :
    ((normalise (if reached.isEmpty then rooted candidates else reached)).map
      Candidate.id).Sublist (candidates.map fun c => c.1.id) := by
  rw [map_id_normalise]
  split
  · rw [rooted, List.map_map]
    exact List.filter_sublist.map _
  · exact h

lemma length_normalise (vector : List (Candidate P T K S)) :
    (normalise vector).length = vector.length := by
  rw [normalise, List.length_map]

/-- A share of the sum takes the place of each belief, and nothing else changes. -/
lemma mem_normalise {vector : List (Candidate P T K S)} {c : Candidate P T K S} :
    c ∈ normalise vector ↔
      ∃ d ∈ vector,
        c = { d with belief := d.belief / vector.foldl (fun s c => s + c.belief) 0 } := by
  rw [normalise, List.mem_map]
  simp only [eq_comm]

end Shares

end Filter

end RoadMatching
