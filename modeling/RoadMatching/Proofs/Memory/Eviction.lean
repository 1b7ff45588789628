import RoadMatching.Proofs.Memory.Links

/-!
Eviction drops steps one by one.

* `dropFront`: the memory without its oldest step, where the next one forgets its predecessors.
  `evict_induction`: what this keeps holds after an eviction.
* `Linked.dropFront`: the links of the steps that stay are whole.
-/

namespace RoadMatching

variable {P T Q K S : Type}

/-- A candidate without its predecessor. -/
def Candidate.forget (c : Candidate P T K S) : Candidate P T K S := { c with predecessor := none }

namespace Window

/-- The memory without its oldest step, unless that is the only one. -/
def dropFront (w : Window P T Q K S) : Window P T Q K S :=
  match w.steps with
  | front :: second :: rest =>
    { w with steps := second :: rest, held := cutMembers (dropMembers w.held front) second }
  | _ => w

/-- What holds of a memory, and is kept when its oldest step is dropped, holds after eviction. -/
lemma evict_induction [Timed Q] {motive : Window P T Q K S → Prop} {w : Window P T Q K S}
    (h : motive w) (step : ∀ v, 1 < v.steps.length → motive v → motive v.dropFront) :
    motive w.evict := by
  have key : ∀ (time : Int) (steps : List (Step Q)) (held : Table CandidateId (Held P T K S)),
      motive { w with steps := steps, held := held } →
      motive { w with
        steps := (w.evictSteps time steps held).1, held := (w.evictSteps time steps held).2 } := by
    intro time steps
    induction steps with
    | nil => exact fun held hm => hm
    | cons front steps ih =>
      intro held hm
      cases steps with
      | nil => exact hm
      | cons second rest =>
        rw [evictSteps]
        split
        · exact ih _ (step _ (by simp) hm)
        · exact hm
  rw [evict]
  split
  · exact h
  · exact key _ _ _ h

/-! ### The view of a dropped step -/

lemma find?_dropMembers (held : Table CandidateId (Held P T K S)) (step : Step Q)
    (id : CandidateId) :
    (dropMembers held step).find? id = if id ∈ step.members then none else held.find? id := by
  rw [dropMembers]
  induction step.members generalizing held with
  | nil => rfl
  | cons m rest ih =>
    rw [List.foldl_cons, ih, Table.find?_erase]
    by_cases hm : id = m <;> by_cases hrest : id ∈ rest <;> simp [hm, hrest]

lemma find?_cutMembers (held : Table CandidateId (Held P T K S)) (step : Step Q)
    (id : CandidateId) :
    (cutMembers held step).find? id =
      if id ∈ step.members then
        (held.find? id).map fun e => { e with candidate := e.candidate.forget }
      else held.find? id := by
  rw [cutMembers]
  induction step.members generalizing held with
  | nil => rfl
  | cons m rest ih =>
    rw [List.foldl_cons, ih, Table.find?_modify]
    by_cases hm : id = m <;> by_cases hrest : id ∈ rest <;> cases held.find? id <;>
      simp [hm, hrest, Candidate.forget]

lemma keys_dropMembers (held : Table CandidateId (Held P T K S)) (step : Step Q) :
    (dropMembers held step).keys = held.keys.filter fun id => id ∉ step.members := by
  rw [dropMembers]
  induction step.members generalizing held with
  | nil => simp
  | cons m rest ih =>
    rw [List.foldl_cons, ih, Table.keys_erase, List.filter_filter]
    refine List.filter_congr fun id _ => ?_
    by_cases hm : id = m <;> simp [hm]

lemma keys_cutMembers (held : Table CandidateId (Held P T K S)) (step : Step Q) :
    (cutMembers held step).keys = held.keys := by
  rw [cutMembers]
  induction step.members generalizing held with
  | nil => rfl
  | cons m rest ih => rw [List.foldl_cons, ih, Table.keys_modify]

variable {w : Window P T Q K S} {next : List CandidateId}

/-- A memory of more than one step, with the oldest step dropped. -/
lemma dropFront_cases (hlen : 1 < w.steps.length) :
    ∃ front second rest, w.steps = front :: second :: rest ∧
      w.dropFront =
        { w with
          steps := second :: rest
          held := cutMembers (dropMembers w.held front) second } := by
  match hsteps : w.steps with
  | [] => simp [hsteps] at hlen
  | [front] => simp [hsteps] at hlen
  | front :: second :: rest => exact ⟨front, second, rest, rfl, by rw [dropFront, hsteps]⟩

lemma steps_dropFront (hlen : 1 < w.steps.length) : w.dropFront.steps = w.steps.tail := by
  obtain ⟨front, second, rest, hsteps, hdrop⟩ := dropFront_cases hlen
  rw [hdrop, hsteps]
  rfl

lemma at_dropFront (hlen : 1 < w.steps.length) {i : Nat} {id : CandidateId} :
    w.dropFront.At i id ↔ w.At (i + 1) id := by
  rw [At, At, steps_dropFront hlen, List.getElem?_tail]

/-- The candidates that stay are as they were, except that those of the oldest step forget their
predecessors. -/
lemma Linked.find?_dropFront (h : Linked next w) (hlen : 1 < w.steps.length) {i : Nat}
    {id : CandidateId} (hat : w.At (i + 1) id) :
    w.dropFront.held.find? id = (w.held.find? id).map fun e =>
      if i = 0 then { e with candidate := e.candidate.forget } else e := by
  obtain ⟨front, second, rest, hsteps, hdrop⟩ := dropFront_cases hlen
  have hfront : id ∉ front.members := by
    intro hid
    have hzero : w.At 0 id := ⟨front, by rw [hsteps]; rfl, hid⟩
    have := h.apart hat hzero
    omega
  have hsecond : id ∈ second.members ↔ i = 0 := by
    constructor
    · intro hid
      have hone : w.At 1 id := ⟨second, by rw [hsteps]; rfl, hid⟩
      have := h.apart hat hone
      omega
    · rintro rfl
      obtain ⟨step, hstep, hid⟩ := hat
      rw [hsteps] at hstep
      cases hstep
      exact hid
  rw [hdrop]
  simp only [find?_cutMembers, find?_dropMembers, if_neg hfront, hsecond]
  split
  · rfl
  · cases w.held.find? id <;> rfl

/-- The candidates of the dropped step are not held any more. -/
lemma Linked.mem_keys_dropFront (h : Linked next w) (hlen : 1 < w.steps.length) {id : CandidateId} :
    id ∈ w.dropFront.held.keys ↔ ∃ i, w.At (i + 1) id := by
  obtain ⟨front, second, rest, hsteps, hdrop⟩ := dropFront_cases hlen
  have hzero : w.steps[0]? = some front := by rw [hsteps]; rfl
  rw [hdrop]
  simp only [keys_cutMembers, keys_dropMembers]
  rw [List.mem_filter, h.held id, decide_eq_true_eq]
  constructor
  · rintro ⟨⟨i, hat⟩, hfront⟩
    cases i with
    | zero =>
      obtain ⟨step, hstep, hid⟩ := hat
      rw [hzero, Option.some.injEq] at hstep
      exact absurd (hstep ▸ hid) hfront
    | succ i => exact ⟨i, hat⟩
  · rintro ⟨i, hat⟩
    refine ⟨⟨i + 1, hat⟩, fun hid => ?_⟩
    have := h.apart hat ⟨front, hzero, hid⟩
    omega

/-- The oldest step that stays names nothing any more, and the others what they named. -/
lemma Linked.named_dropFront (h : Linked next w) (hlen : 1 < w.steps.length) (i : Nat) :
    w.dropFront.named next i = if i = 0 then [] else w.named next (i + 1) := by
  have hpointer : ∀ id, w.At (i + 1) id →
      w.dropFront.pointer? id = if i = 0 then none else w.pointer? id := by
    intro id hat
    rw [pointer?, pointer?, h.find?_dropFront hlen hat, Option.bind_map]
    obtain ⟨e, he⟩ := h.exists_find? hat
    rw [he]
    by_cases hi : i = 0 <;> simp [hi, Candidate.forget]
  rw [named, named, steps_dropFront hlen, List.getElem?_tail]
  cases hstep : w.steps[i + 1]? with
  | none =>
    have hi : ¬ i = 0 := by
      rintro rfl
      rw [List.getElem?_eq_none_iff] at hstep
      omega
    rw [if_neg hi]
    rfl
  | some step =>
    have hpointers : w.dropFront.pointers step = if i = 0 then [] else w.pointers step := by
      rw [pointers, pointers]
      split
      · next hi =>
        rw [List.filterMap_eq_nil_iff]
        intro id hid
        rw [hpointer id ⟨step, hstep, hid⟩, if_pos hi]
      · next hi =>
        refine List.filterMap_congr fun id hid => ?_
        rw [hpointer id ⟨step, hstep, hid⟩, if_neg hi]
    exact hpointers

/-- The links are whole without the oldest step. -/
lemma Linked.dropFront (h : Linked next w) (hlen : 1 < w.steps.length) :
    Linked next w.dropFront := by
  have htail := steps_dropFront hlen
  refine ⟨?_, ?_, fun id => ?_, fun step hstep => ?_, ?_, fun i hi p hp => ?_,
    fun i id e hat he => ?_⟩
  · rw [htail]
    refine h.distinct.sublist ?_
    cases w.steps with
    | nil => exact List.Sublist.refl _
    | cons front rest =>
      rw [List.flatMap_cons]
      exact List.sublist_append_right _ _
  · obtain ⟨front, second, rest, -, hdrop⟩ := dropFront_cases hlen
    rw [hdrop]
    simp only [keys_cutMembers, keys_dropMembers]
    exact h.keys.filter _
  · rw [h.mem_keys_dropFront hlen]
    simp only [at_dropFront hlen]
  · rw [htail] at hstep
    exact h.estimates step (List.mem_of_mem_tail hstep)
  · rw [h.named_dropFront hlen, if_pos rfl]
  · rw [htail, List.length_tail] at hi
    rw [h.named_dropFront hlen, if_neg (Nat.succ_ne_zero i)] at hp
    exact (at_dropFront hlen).2 (h.before (i + 1) (by omega) p hp)
  · rw [at_dropFront hlen] at hat
    rw [h.find?_dropFront hlen hat, Option.map_eq_some_iff] at he
    obtain ⟨e, he, rfl⟩ := he
    rw [h.named_dropFront hlen, if_neg (Nat.succ_ne_zero i), ← h.references (i + 1) id e hat he]
    split <;> rfl

end Window

end RoadMatching
