import RoadMatching.Proofs.Memory.Appended
import RoadMatching.Proofs.Memory.References

/-!
Updates happen as a whole, or not at all.

`update` gives the memory after a vector, or the reason why it is refused. A program that works on
the memory in place checks candidate by candidate and writes field by field, so it must not write
before the last candidate has been checked.

* `submit`: the update in place. `submit_eq`: it is `update`, and one that fails leaves the memory
  as it found it.
* `Reachable`: the memories there can be, whatever they were fed and restored from. `IsNamed`:
  their candidates are held under their own names. `IsNamed.prune`, `IsNamed.evict` and the like are
  the steps, `Reachable.isNamed` is the run.
* `IsNamed.mem_ids_vector`: so the last vector has the names that may be named.
* `Reachable.update_atomic`: **updates are all-or-nothing**. It is told when a vector is refused,
  and what is left of the memory then.
-/

namespace RoadMatching

variable {P T Q K S : Type}

namespace Window

/-! ### Updates in place -/

section InPlace

variable [Timed Q]

/-- Programs that change a memory in place, and may fail on the way. -/
abbrev Change (P T Q K S : Type) : Type → Type := EStateM MemoryError (Window P T Q K S)

/-- Fails if a sample is older than the last one. -/
def checkTime (sample : Q) : Change P T Q K S Unit := do
  match (← get).time? with
  | some last => if Timed.time sample < last then throw (.outOfOrder last (Timed.time sample))
  | none => pure ()

/-- Fails if a candidate names a predecessor that may not be named. -/
def checkPredecessor (candidate : Candidate P T K S) : Change P T Q K S Unit := do
  let w ← get
  match candidate.predecessor with
  | some predecessor =>
    if !(w.latest.contains predecessor && w.held.contains predecessor) then
      throw (.inconsistentVector candidate.id predecessor)
  | none => pure ()

/-- Appends the vector of a sample in place: after the checks the references are counted, the
candidates that are not named are dropped, the vector is appended, and old steps are dropped. -/
def submit [LT S] [DecidableLT S] (vector : List (Candidate P T K S)) (sample : Q) :
    Change P T Q K S Unit := do
  match Candidate.best? vector with
  | none => modify fun w => { w with breaks := w.breaks + 1, broken := true }
  | some best =>
    checkTime sample
    vector.forM checkPredecessor
    modify fun w => w.countReferences vector
    modify pruneLast
    modify fun w => w.append vector sample best.id
    modify evict

/-- The fault of a sample that is older than the last one. -/
def lateFault? (w : Window P T Q K S) (sample : Q) : Option MemoryError :=
  w.time?.bind fun last =>
    if Timed.time sample < last then some (.outOfOrder last (Timed.time sample)) else none

/-- The fault of a candidate that names a predecessor which may not be named. -/
def namingFault? (w : Window P T Q K S) (candidate : Candidate P T K S) : Option MemoryError :=
  candidate.predecessor.bind fun predecessor =>
    if w.latest.contains predecessor && w.held.contains predecessor then none
    else some (.inconsistentVector candidate.id predecessor)

/-- The first of these faults is the reason for which a vector is refused. -/
lemma fault?_eq (w : Window P T Q K S) (vector : List (Candidate P T K S)) (sample : Q) :
    w.fault? vector sample = (w.lateFault? sample).or (vector.findSome? w.namingFault?) := rfl

/-- What is left of a memory after a check: it is as it was, whether there is a fault or not. -/
def verdict (w : Window P T Q K S) :
    Option MemoryError → EStateM.Result MemoryError (Window P T Q K S) Unit
  | some error => .error error w
  | none => .ok () w

lemma checkTime_eq (w : Window P T Q K S) (sample : Q) :
    checkTime sample w = w.verdict (w.lateFault? sample) := by
  rw [lateFault?]
  simp only [checkTime, bind, EStateM.bind, get, getThe, MonadStateOf.get, EStateM.get]
  cases w.time? with
  | none => rfl
  | some last =>
    rw [Option.bind_some]
    dsimp only
    split <;> rfl

omit [Timed Q] in
lemma checkPredecessor_eq (w : Window P T Q K S) (candidate : Candidate P T K S) :
    checkPredecessor candidate w = w.verdict (w.namingFault? candidate) := by
  rw [namingFault?]
  simp only [checkPredecessor, bind, EStateM.bind, get, getThe, MonadStateOf.get, EStateM.get]
  cases candidate.predecessor with
  | none => rfl
  | some p =>
    rw [Option.bind_some]
    dsimp only
    cases w.latest.contains p && w.held.contains p <;> rfl

omit [Timed Q] in
/-- Checks one after the other find the first fault. -/
lemma forM_eq_verdict {α : Type} {check : α → Change P T Q K S Unit} {fault : α → Option MemoryError}
    {w : Window P T Q K S} (hcheck : ∀ a, check a w = w.verdict (fault a)) (as : List α) :
    as.forM check w = w.verdict (as.findSome? fault) := by
  induction as with
  | nil => rfl
  | cons a as ih =>
    rw [List.findSome?_cons]
    show EStateM.bind (check a) (fun _ => as.forM check) w = _
    rw [EStateM.bind, hcheck]
    cases fault a with
    | none => exact ih
    | some error => rfl

variable [LT S] [DecidableLT S]

/-- The update in place gives the memory that `update` gives. If the update fails, it leaves the
memory as it was. -/
theorem submit_eq (w : Window P T Q K S) (vector : List (Candidate P T K S)) (sample : Q) :
    submit vector sample w =
      match w.update vector sample with
      | .ok after => .ok () after
      | .error error => .error error w := by
  rw [submit, update]
  cases Candidate.best? vector with
  | none => rfl
  | some best =>
    have htime := checkTime_eq w sample
    have hnaming := forM_eq_verdict (checkPredecessor_eq w) vector
    rw [fault?_eq]
    cases hlate : w.lateFault? sample with
    | some error =>
      rw [hlate] at htime
      simp only [bind, EStateM.bind, htime, verdict, Option.some_or]
    | none =>
      rw [hlate] at htime
      simp only [bind, EStateM.bind, htime, verdict, Option.none_or, hnaming]
      cases vector.findSome? w.namingFault? <;> rfl

end InPlace

/-! ### Names -/

/-- A memory whose candidates are held under their own names. -/
def IsNamed (w : Window P T Q K S) : Prop :=
  ∀ id e, w.held.find? id = some e → e.candidate.id = id

namespace IsNamed

variable {w : Window P T Q K S}

lemma of_candidate? (h : ∀ id c, w.candidate? id = some c → c.id = id) : IsNamed w :=
  fun id e he => h id e.candidate (by rw [candidate?, he, Option.map_some])

lemma id_of_candidate? (h : IsNamed w) {id : CandidateId} {c : Candidate P T K S}
    (hc : w.candidate? id = some c) : c.id = id := by
  obtain ⟨e, he, rfl⟩ := Option.map_eq_some_iff.1 hc
  exact h id e he

lemma bounded (k t : Option Nat) : IsNamed (bounded k t : Window P T Q K S) := by
  intro id e he
  cases he

lemma countReferences (h : IsNamed w) (vector : List (Candidate P T K S)) :
    IsNamed (w.countReferences vector) := by
  refine List.foldlRecOn (motive := fun held : Table CandidateId (Held P T K S) =>
    ∀ id e, held.find? id = some e → e.candidate.id = id) _ _ h fun held hheld c _ id e he => ?_
  split at he
  · rw [Table.find?_modify] at he
    split at he
    · obtain ⟨d, hd, rfl⟩ := Option.map_eq_some_iff.1 he
      exact hheld id d hd
    · exact hheld id e he
  · exact hheld id e he

lemma discard (h : IsNamed w) (id : CandidateId) (index : Nat) : IsNamed (w.discard id index) := by
  intro x e he
  rw [find?_discard] at he
  split at he
  · cases he
  · split at he
    · obtain ⟨d, hd, rfl⟩ := Option.map_eq_some_iff.1 he
      exact h x d hd
    · exact h x e he

/-- Whatever is pruned, it is discarded one by one, from step to step back. -/
lemma prune (h : IsNamed w) (id : CandidateId) (index : Nat) : IsNamed (w.prune id index) := by
  induction index using Nat.strong_induction_on generalizing w id with
  | _ index ih =>
    cases hstep : w.steps[index]? with
    | none =>
      rw [Window.prune]
      simpa only [hstep] using h
    | some step =>
      by_cases hbest : step.estimate = id
      · rwa [prune_of_eq hstep hbest]
      · rcases prune_cases hstep hbest with ⟨p, before, -, -, rfl, -, -, heq⟩ | ⟨-, heq⟩
        · rw [heq]
          exact ih before (by omega) (h.discard id _) p
        · rw [heq]
          exact h.discard id index

lemma pruneLast (h : IsNamed w) : IsNamed w.pruneLast := by
  rw [Window.pruneLast]
  split
  · exact h
  · exact List.foldlRecOn _ _ h fun v hv id _ => hv.prune id _

lemma append (h : IsNamed w) (vector : List (Candidate P T K S)) (sample : Q) (best : CandidateId) :
    IsNamed (w.append vector sample best) := by
  refine List.foldlRecOn (motive := fun held : Table CandidateId (Held P T K S) =>
    ∀ id e, held.find? id = some e → e.candidate.id = id) _ _ h fun held hheld c _ id e he => ?_
  rw [Table.find?_insert] at he
  split at he
  · next hid =>
    cases he
    exact hid.symm
  · exact hheld id e he

lemma dropFront (h : IsNamed w) (hlen : 1 < w.steps.length) : IsNamed w.dropFront := by
  refine of_candidate? fun id c hc => ?_
  obtain ⟨d, hd, heq⟩ := candidate?_dropFront hlen hc
  rw [← h.id_of_candidate? hd]
  rcases heq with rfl | rfl <;> rfl

lemma evict [Timed Q] (h : IsNamed w) : IsNamed w.evict :=
  evict_induction h fun _ hlen hv => hv.dropFront hlen

/-- An update that is not refused keeps the names. -/
lemma update [Timed Q] [LT S] [DecidableLT S] (h : IsNamed w) {vector : List (Candidate P T K S)}
    {sample : Q} {after : Window P T Q K S} (hafter : w.update vector sample = .ok after) :
    IsNamed after := by
  rcases w.update_cases vector sample with
    ⟨-, heq⟩ | ⟨error, -, -, heq⟩ | ⟨best, -, -, heq⟩ <;> rw [heq] at hafter <;> cases hafter
  · exact h
  · exact ((h.countReferences vector).pruneLast.append vector sample best.id).evict

/-- The names of the last vector are those members of the last step that are held. -/
lemma mem_ids_vector (h : IsNamed w) {id : CandidateId} :
    id ∈ w.vector.map Candidate.id ↔ id ∈ w.lastMembers ∧ w.held.contains id = true := by
  rw [vector, lastMembers]
  cases w.steps.getLast? with
  | none => simp
  | some step =>
    show id ∈ (w.resolve step).map Candidate.id ↔ id ∈ step.members ∧ _
    rw [resolve, List.mem_map]
    simp only [List.mem_filterMap]
    constructor
    · rintro ⟨c, ⟨p, hp, hc⟩, rfl⟩
      obtain rfl : c.id = p := h.id_of_candidate? hc
      obtain ⟨e, he, -⟩ := Option.map_eq_some_iff.1 hc
      exact ⟨hp, by rw [Table.contains, he, Option.isSome_some]⟩
    · rintro ⟨hid, hheld⟩
      obtain ⟨e, he⟩ := Option.isSome_iff_exists.1 hheld
      exact ⟨e.candidate, ⟨id, hid, by rw [candidate?, he, Option.map_some]⟩, h id e he⟩

end IsNamed

/-! ### Reachable memories -/

section Reachable

variable [Numeral K] [IntCast K] [Timed Q] [LT K] [DecidableLT K]

/-- The memories there can be: one without steps, one that is restored from a snapshot, and what an
update makes of these, whatever its vector and its sample. -/
inductive Reachable (codec : Codec P T Q K) : Window P T Q K K → Prop
  | bounded (k t : Option Nat) : Reachable codec (Window.bounded k t)
  | restored {json : Json K} {w : Window P T Q K K} (h : ofSnapshot codec json = .ok w) :
    Reachable codec w
  | updated {w after : Window P T Q K K} {vector : List (Candidate P T K K)} {sample : Q}
    (hw : Reachable codec w) (h : w.update vector sample = .ok after) : Reachable codec after

variable {codec : Codec P T Q K} {w : Window P T Q K K}

/-- Whatever is submitted to such a memory, the memory after it is another one. -/
lemma Reachable.feed (h : Reachable codec w) (updates : List (Update P T Q K K)) :
    Reachable codec (w.feed updates) := by
  refine List.foldlRecOn _ _ h fun v hv u _ => ?_
  rw [accept]
  cases hu : v.update u.vector u.sample with
  | ok after => exact hv.updated hu
  | error error => exact hv

/-- Every memory there can be holds its candidates under their names. -/
lemma Reachable.isNamed (h : Reachable codec w) : IsNamed w := by
  induction h with
  | bounded k t => exact .bounded k t
  | restored h =>
    obtain ⟨parts, held, steps, -, hreads, hwithin, rfl⟩ := exists_reads_of_ofSnapshot h
    exact .of_candidate? (isComplete_ofParts hreads hwithin).names
  | updated _ h ih => exact ih.update h

/-- What may be named are the candidates of the last vector, and nothing after a break. -/
lemma Reachable.mem_latest_iff (h : Reachable codec w) {p : CandidateId} :
    p ∈ w.latest ∧ w.held.contains p = true ↔
      w.broken = false ∧ p ∈ w.vector.map Candidate.id := by
  rw [h.isNamed.mem_ids_vector, latest, ← lastMembers]
  cases w.broken <;> simp

/-- Nothing is in the last vector of a memory that holds no candidate. -/
lemma Reachable.ids_vector_of_size (h : Reachable codec w) (hsize : w.size = 0) (p : CandidateId) :
    p ∉ w.vector.map Candidate.id := by
  intro hp
  have hheld := (h.isNamed.mem_ids_vector.1 hp).2
  have hkey := (Table.find?_isSome_iff _ _).1 hheld
  have hnil : w.held.entries = [] := List.eq_nil_of_length_eq_zero hsize
  rw [Table.keys, hnil] at hkey
  cases hkey

/-- A vector is refused if its sample is late, or a candidate names what is not in the last vector,
or names anything after a break or while there is no candidate. -/
lemma Reachable.fault?_isSome_iff (h : Reachable codec w) (vector : List (Candidate P T K K))
    (sample : Q) :
    (∃ error, w.fault? vector sample = some error) ↔
      (∃ last, w.time? = some last ∧ Timed.time sample < last) ∨
      (∃ c ∈ vector, ∃ p, c.predecessor = some p ∧ p ∉ w.vector.map Candidate.id) ∨
      (w.broken = true ∨ w.size = 0) ∧ ∃ c ∈ vector, ∃ p, c.predecessor = some p := by
  constructor
  · rintro ⟨error, hfault⟩
    by_contra hnot
    obtain ⟨hlate, hunknown, hblocked⟩ : _ ∧ _ ∧ _ := by simpa only [not_or] using hnot
    refine Option.some_ne_none error (hfault.symm.trans (fault?_eq_none_iff.2
      ⟨fun last hlast hlt => hlate ⟨last, hlast, hlt⟩, fun c hc p hp => h.mem_latest_iff.2 ⟨?_, ?_⟩⟩))
    · exact Bool.eq_false_iff.2 fun hbroken => hblocked ⟨.inl hbroken, c, hc, p, hp⟩
    · by_contra hp'
      exact hunknown ⟨c, hc, p, hp, hp'⟩
  · intro hreason
    refine Option.ne_none_iff_exists'.1 fun hfault => ?_
    obtain ⟨htime, hnamed⟩ := fault?_eq_none_iff.1 hfault
    have hknown : ∀ c ∈ vector, ∀ p, c.predecessor = some p →
        w.broken = false ∧ p ∈ w.vector.map Candidate.id :=
      fun c hc p hp => h.mem_latest_iff.1 (hnamed c hc p hp)
    rcases hreason with ⟨last, hlast, hlt⟩ | ⟨c, hc, p, hp, hunknown⟩ |
      ⟨hbroken | hsize, c, hc, p, hp⟩
    · exact htime last hlast hlt
    · exact hunknown (hknown c hc p hp).2
    · exact absurd ((hknown c hc p hp).1.symm.trans hbroken) Bool.false_ne_true
    · exact h.ids_vector_of_size hsize p (hknown c hc p hp).2

omit [Numeral K] [IntCast K] in
/-- A vector that is appended ends a break. -/
lemma broken_of_update {after : Window P T Q K K} {vector : List (Candidate P T K K)} {sample : Q}
    (hne : vector ≠ []) (h : w.update vector sample = .ok after) : after.broken = false := by
  rcases w.update_cases vector sample with
    ⟨hnil, -⟩ | ⟨error, -, -, heq⟩ | ⟨best, -, -, heq⟩
  · exact absurd hnil hne
  · cases heq.symm.trans h
  · rw [← Except.ok.inj (heq.symm.trans h)]
    exact evict_induction (motive := fun v => v.broken = false) rfl
      fun v _ hv => broken_dropFront.trans hv

/-- **Updates are all-or-nothing**. An empty vector only counts as a break, whatever the time of its
sample. Any other vector is refused exactly if its sample is older than the last one, or one of its
candidates names a predecessor that is not in the last vector, or names any predecessor while the
memory is broken or empty. The update in place leaves the memory as it was when the vector is
refused, and otherwise it leaves the memory after the update, which is not broken. -/
theorem Reachable.update_atomic (h : Reachable codec w) (vector : List (Candidate P T K K))
    (sample : Q) :
    (vector = [] →
      w.update vector sample = .ok { w with breaks := w.breaks + 1, broken := true } ∧
      submit vector sample w = .ok () { w with breaks := w.breaks + 1, broken := true }) ∧
    (vector ≠ [] →
      ((∃ error, w.update vector sample = .error error) ↔
        (∃ last, w.time? = some last ∧ Timed.time sample < last) ∨
        (∃ c ∈ vector, ∃ p, c.predecessor = some p ∧ p ∉ w.vector.map Candidate.id) ∨
        (w.broken = true ∨ w.size = 0) ∧ ∃ c ∈ vector, ∃ p, c.predecessor = some p) ∧
      (∀ error, w.update vector sample = .error error →
        submit vector sample w = .error error w) ∧
      ∀ after, w.update vector sample = .ok after →
        submit vector sample w = .ok () after ∧ after.broken = false) := by
  refine ⟨fun hnil => ?_, fun hne => ⟨?_, fun error herror => ?_, fun after hafter => ⟨?_, ?_⟩⟩⟩
  · subst hnil
    exact ⟨rfl, rfl⟩
  · rw [← h.fault?_isSome_iff]
    rcases w.update_cases vector sample with
      ⟨hnil, -⟩ | ⟨error, -, hfault, heq⟩ | ⟨best, -, hfault, heq⟩
    · exact absurd hnil hne
    · exact iff_of_true ⟨error, heq⟩ ⟨error, hfault⟩
    · rw [heq, hfault]
      exact iff_of_false (fun ⟨_, herror⟩ => nomatch herror) fun ⟨_, herror⟩ => nomatch herror
  · rw [submit_eq, herror]
  · rw [submit_eq, hafter]
  · exact broken_of_update hne hafter

/-- After a break a candidate may not name `b1` any more, which was in the last vector, and the
memory is left as it was. A vector that names nothing starts anew. -/
theorem update_atomic_scored :
    let w : Window Unit Unit Int Binary64 Binary64 :=
      (Window.bounded (some 2) none).feed (Update.scored.take 3)
    let c : Option CandidateId → Candidate Unit Unit Binary64 Binary64 :=
      fun predecessor => ⟨"c", (), predecessor, none, 1, 0⟩
    w.broken = true ∧ w.vector.map Candidate.id = ["b1", "b2", "b3"] ∧
      (∃ error, submit [c none, c (some "b1")] 1 w = .error error w) ∧
      ∃ after, submit [c none] 1 w = .ok () after ∧ after.broken = false := by
  intro w c
  have hw : Reachable Codec.plain w := (Reachable.bounded (some 2) none).feed _
  have hbroken : w.broken = true := by decide +kernel
  refine ⟨hbroken, by decide +kernel, ?_, ?_⟩
  · obtain ⟨hiff, hrefused, -⟩ := (hw.update_atomic [c none, c (some "b1")] 1).2 (by simp)
    obtain ⟨error, herror⟩ := hiff.2 (.inr (.inr ⟨.inl hbroken, c (some "b1"), by simp, "b1", rfl⟩))
    exact ⟨error, hrefused error herror⟩
  · obtain ⟨-, -, haccepted⟩ := (hw.update_atomic [c none] 1).2 (by simp)
    exact ⟨_, haccepted _ rfl⟩

end Reachable

end Window

end RoadMatching
