import RoadMatching.Proofs.Memory.Records
import RoadMatching.Proofs.Memory.Retention

/-!
Restoring a memory from its snapshot.

The candidates of a snapshot are listed without their predecessors, which the steps give back one by
one. Since every candidate held belongs to a step, all of them have their predecessors in the end.

* `Sequenced`: the steps of a memory can be held by a snapshot: members are counted with 64 bits, and
  the samples are in the order of their times. `Sequenced.accept`: an update keeps them so.
* `Orderly`: the bounds can be held by a snapshot too. `feed_orderly`: so it is after all distinct
  updates.
* `restored`: the candidates while a snapshot is restored. `foldlM_readCandidate`: none of them has
  a predecessor at first. `restoreLink_restored`: a link gives one its predecessor back;
  `Kept.restoreStep_recordOf`, `Kept.restoreSteps_recordOf`: so do whole steps.
* `settle`: the memory with its numbers as they are read back.
* `Kept.ofSnapshot_eq`: a memory between updates is restored as it was, but that its bounds are read
  back, its numbers are settled, and its breaks are not counted any more.
  `Kept.ofSnapshot_toSnapshot`: its bounds are the same if they are below the signs of 64 bits.
-/

namespace RoadMatching

variable {P T Q K S : Type}

namespace Window

/-! ### Outlines -/

/-- The steps of a memory are those of updates in the order of their times, with members that are
counted with 64 bits. -/
structure Sequenced [Timed Q] (w : Window P T Q K S) : Prop where
  sizes : ∀ step ∈ w.steps, step.members.length < 18446744073709551616
  sorted : w.samples.Pairwise fun a b => Timed.time a ≤ Timed.time b

/-- The outline of a memory is one that a snapshot can hold. -/
structure Orderly [Timed Q] (w : Window P T Q K S) : Prop where
  maxSteps : ∀ n ∈ w.maxSteps, n < 9223372036854775808
  maxAge : ∀ n ∈ w.maxAge, 0 < n ∧ n < 9223372036854775808
  sizes : ∀ step ∈ w.steps, step.members.length < 18446744073709551616
  sorted : w.samples.Pairwise fun a b => Timed.time a ≤ Timed.time b

section Outlines

variable [Timed Q] {w v : Window P T Q K S} {next seen : List CandidateId}

lemma Orderly.sequenced (h : Orderly w) : Sequenced w := ⟨h.sizes, h.sorted⟩

lemma sequenced_bounded (k t : Option Nat) : Sequenced (bounded k t : Window P T Q K S) where
  sizes step h := by cases h
  sorted := List.Pairwise.nil

/-- Fewer candidates in the same steps make no difference. -/
lemma Sequenced.trimmed (h : Sequenced w) (hv : Trimmed w v) (hlinked : Linked next v) :
    Sequenced v := by
  refine ⟨fun step hstep => ?_, hv.samples_eq ▸ h.sorted⟩
  obtain ⟨i, hi⟩ := List.getElem?_of_mem hstep
  have hlt : i < w.steps.length := hv.length_eq ▸ (List.getElem?_eq_some_iff.1 hi).1
  have hsub : step.members ⊆ w.steps[i].members := by
    intro id hid
    obtain ⟨step', hstep', hid'⟩ := hv.members i id ⟨step, hi, hid⟩
    rw [List.getElem?_eq_getElem hlt, Option.some.injEq] at hstep'
    exact hstep' ▸ hid'
  calc step.members.length
      ≤ w.steps[i].members.length := ((hlinked.nodup_members hi).subperm hsub).length_le
    _ < 18446744073709551616 := h.sizes _ (List.getElem_mem hlt)

/-- No sample is later than the last one. -/
lemma Sequenced.le_last (h : Sequenced w) {last : Int} (hlast : w.time? = some last) :
    ∀ sample ∈ w.samples, Timed.time sample ≤ last := by
  obtain ⟨sample, hsample, rfl⟩ := Option.map_eq_some_iff.1 hlast
  rw [sample?_eq] at hsample
  obtain ⟨earlier, hearlier⟩ := List.getLast?_eq_some_iff.1 hsample
  have hsorted := h.sorted
  rw [hearlier, List.pairwise_append] at hsorted
  intro q hq
  rw [hearlier, List.mem_append, List.mem_singleton] at hq
  rcases hq with hq | rfl
  · exact hsorted.2.2 q hq sample (List.mem_singleton_self _)
  · exact le_rfl

/-- A vector whose sample is in time is appended. -/
lemma Sequenced.append (h : Sequenced w) {vector : List (Candidate P T K S)} {sample : Q}
    (htime : ∀ last, w.time? = some last → ¬ Timed.time sample < last)
    (hlen : vector.length < 18446744073709551616) (best : CandidateId) :
    Sequenced (w.append vector sample best) := by
  refine ⟨fun step hstep => ?_, ?_⟩
  · rw [Window.append, List.mem_append, List.mem_singleton] at hstep
    rcases hstep with hstep | rfl
    · exact h.sizes step hstep
    · rwa [List.length_map]
  · rw [samples, Window.append, List.map_append, List.map_singleton, List.pairwise_append]
    refine ⟨h.sorted, List.pairwise_singleton _ _, fun q hq r hr => ?_⟩
    rw [List.mem_singleton] at hr
    subst hr
    cases hlast : w.time? with
    | none =>
      have hnil : w.steps = [] := by
        rw [time?, Option.map_eq_none_iff, sample?, Option.map_eq_none_iff] at hlast
        exact List.getLast?_eq_none_iff.1 hlast
      rw [hnil] at hq
      cases hq
    | some last => exact (h.le_last hlast q hq).trans (not_lt.1 (htime last hlast))

/-- The oldest step may be dropped. -/
lemma Sequenced.dropFront (h : Sequenced w) (hlen : 1 < w.steps.length) :
    Sequenced w.dropFront := by
  have htail := steps_dropFront hlen
  refine ⟨fun step hstep => h.sizes step ?_, ?_⟩
  · rw [htail] at hstep
    exact List.mem_of_mem_tail hstep
  · rw [samples, htail, List.map_tail]
    exact h.sorted.sublist (List.tail_sublist _)

variable [LT S] [DecidableLT S]

/-- An update keeps the steps in order. -/
lemma Sequenced.accept (h : Sequenced w) (hkept : Kept seen w) {u : Update P T Q K S}
    (hfresh : ∀ id ∈ u.ids, id ∉ seen) (hlen : u.vector.length < 18446744073709551616) :
    Sequenced (w.accept u) := by
  rw [Window.accept]
  rcases update_cases w u.vector u.sample with
    ⟨-, heq⟩ | ⟨error, -, -, heq⟩ | ⟨best, -, hfault, heq⟩
  · rw [heq]
    exact ⟨h.sizes, h.sorted⟩
  · rw [heq]
    exact h
  · rw [heq]
    obtain ⟨hlinked, -, htrimmed, -⟩ := hkept.ready hfault hfresh hlen
    refine evict_induction ((h.trimmed htrimmed hlinked).append ?_ hlen best.id)
      fun v hlen hv => hv.dropFront hlen
    intro last hlast
    rw [time?, sample?_eq, htrimmed.samples_eq, ← sample?_eq] at hlast
    exact (fault?_eq_none_iff.1 hfault).1 last hlast

/-- An update does not change the bounds. -/
lemma bounds_accept (hkept : Kept seen w) {u : Update P T Q K S}
    (hfresh : ∀ id ∈ u.ids, id ∉ seen) (hlen : u.vector.length < 18446744073709551616) :
    (w.accept u).maxSteps = w.maxSteps ∧ (w.accept u).maxAge = w.maxAge := by
  rw [Window.accept]
  rcases update_cases w u.vector u.sample with
    ⟨-, heq⟩ | ⟨error, -, -, heq⟩ | ⟨best, -, hfault, heq⟩
  · rw [heq]
    exact ⟨rfl, rfl⟩
  · rw [heq]
    exact ⟨rfl, rfl⟩
  · rw [heq]
    obtain ⟨-, -, htrimmed, -⟩ := hkept.ready hfault hfresh hlen
    refine evict_induction (motive := fun v => v.maxSteps = w.maxSteps ∧ v.maxAge = w.maxAge)
      ⟨htrimmed.maxSteps, htrimmed.maxAge⟩ fun v hlen hv => ?_
    obtain ⟨front, second, rest, -, hdrop⟩ := dropFront_cases hlen
    rw [hdrop]
    exact hv

/-- The outline of every memory that is fed distinct updates is one that a snapshot can hold. -/
lemma feed_orderly {k t : Option Nat} (hk : ∀ n ∈ k, n < 9223372036854775808)
    (ht : ∀ n ∈ t, n < 9223372036854775808) {updates : List (Update P T Q K S)}
    (h : Update.Distinct updates) : Orderly ((bounded k t).feed updates) := by
  obtain ⟨hsequenced, hsteps, hage⟩ : Sequenced ((bounded k t).feed updates) ∧
      ((bounded k t).feed updates).maxSteps = k ∧
      ((bounded k t).feed updates).maxAge = t.filter fun n => 0 < n := by
    induction updates using List.reverseRecOn with
    | nil => exact ⟨sequenced_bounded k t, rfl, rfl⟩
    | append_singleton updates u ih =>
      obtain ⟨-, hfresh, hlen⟩ := h.last
      obtain ⟨hsequenced, hbounds⟩ := ih h.init
      rw [feed_concat]
      obtain ⟨hsteps, hage⟩ := bounds_accept (feed_kept k t h.init) hfresh hlen
      exact ⟨hsequenced.accept (feed_kept k t h.init) hfresh hlen, hsteps.trans hbounds.1,
        hage.trans hbounds.2⟩
  refine ⟨fun n hn => hk n (hsteps ▸ hn), fun n hn => ?_, hsequenced.sizes, hsequenced.sorted⟩
  obtain ⟨hn, hpos⟩ := Option.mem_filter_iff.1 (hage ▸ hn)
  exact ⟨by simpa using hpos, ht n hn⟩

end Outlines

/-! ### Candidates on their way back -/

section Restored

/-- The candidates read back of a snapshot, when those done have their predecessors again. -/
def restored [Extended K] (held : Table CandidateId (Held P T K K)) (done : List CandidateId) :
    Table CandidateId (Held P T K K) :=
  ⟨held.entries.map fun entry => (entry.1,
    if entry.1 ∈ done then entry.2.settle
    else { entry.2 with candidate := entry.2.candidate.settle.forget })⟩

variable [Numeral K] {held : Table CandidateId (Held P T K K)} {done : List CandidateId}

lemma keys_restored (held : Table CandidateId (Held P T K K)) (done : List CandidateId) :
    (restored held done).keys = held.keys := by
  rw [Table.keys, restored, List.map_map]
  rfl

/-- What is held is read back. -/
lemma contains_restored {id : CandidateId} (h : id ∈ held.keys) :
    (restored held done).contains id = true :=
  (Table.find?_isSome_iff _ _).2 (keys_restored held done ▸ h)

/-- A link gives its candidate the predecessor back, if that is held and has a name. -/
lemma restoreLink_restored (hkeys : held.keys.Nodup) {c : Candidate P T K K}
    (hc : (held.find? c.id).map Held.candidate = some c)
    (hp : ∀ p, c.predecessor = some p → p ≠ "" ∧ p ∈ held.keys) :
    restoreLink (restored held done) (linkOf c) = .ok (restored held (done ++ [c.id])) := by
  obtain ⟨e, he, rfl⟩ := Option.map_eq_some_iff.1 hc
  have hown : e.candidate.id ∈ held.keys := (Table.find?_isSome_iff _ _).1 (he ▸ rfl)
  have hpredecessor : (if (linkOf e.candidate).predecessor.isEmpty then none
      else some (linkOf e.candidate).predecessor) = e.candidate.predecessor := by
    rw [linkOf]
    cases hpred : e.candidate.predecessor with
    | none => rfl
    | some p => simp [(hp p hpred).1]
  have hknown : (e.candidate.predecessor.any fun id =>
      !(restored held done).contains id) = false := by
    cases hpred : e.candidate.predecessor with
    | none => rfl
    | some p => simp [contains_restored (hp p hpred).2]
  have hcandidate : (linkOf e.candidate).candidate = e.candidate.id := rfl
  simp only [restoreLink, hpredecessor, hcandidate, hknown, contains_restored hown, Bool.not_true,
    Bool.false_eq_true, if_false]
  refine congrArg (fun entries => Except.ok (Table.mk entries)) ?_
  rw [restored, List.map_map]
  refine List.map_congr_left fun entry hentry => ?_
  by_cases hid : entry.1 = e.candidate.id
  · have hsame : entry.2 = e := by
      rw [← hid, Table.find?_of_mem_entries hkeys hentry, Option.some.injEq] at he
      exact he
    by_cases hdone : e.candidate.id ∈ done <;>
      simp [hid, hsame, hdone, Held.settle, Candidate.settle, Candidate.forget]
  · simp [hid]

/-- The links of candidates held give all of them their predecessors back. -/
lemma foldlM_restoreLink (done : List CandidateId) (hkeys : held.keys.Nodup)
    {cs : List (Candidate P T K K)} (hcs : ∀ c ∈ cs, (held.find? c.id).map Held.candidate = some c)
    (hp : ∀ c ∈ cs, ∀ p, c.predecessor = some p → p ≠ "" ∧ p ∈ held.keys) :
    (cs.map linkOf).foldlM restoreLink (restored held done) =
      .ok (restored held (done ++ cs.map Candidate.id)) := by
  induction cs generalizing done with
  | nil => rw [List.map_nil, List.map_nil, List.append_nil]; rfl
  | cons c cs ih =>
    rw [List.map_cons, List.foldlM_cons,
      restoreLink_restored hkeys (hcs c List.mem_cons_self) (hp c List.mem_cons_self)]
    refine (ih _ (fun d hd => hcs d (List.mem_cons_of_mem c hd))
      fun d hd => hp d (List.mem_cons_of_mem c hd)).trans ?_
    rw [List.map_cons, List.append_assoc, List.singleton_append]

/-- The candidates are read one after the other. -/
lemma foldlM_readCandidate [IntCast K] {codec : Codec P T Q K} (hkey : codec.HasOwnKey)
    (held : Table CandidateId (Held P T K K)) (hkeys : held.keys.Nodup)
    (hnames : ∀ entry ∈ held.entries, entry.2.candidate.id = entry.1)
    (hkeeps : ∀ entry ∈ held.entries, codec.Keeps entry.2.candidate) :
    (held.values.map fun e =>
        (⟨codec.writeCandidate e.candidate, e.references⟩ : HeldRecord K)).foldlM
      (fun held entry => do
        let candidate ← codec.readCandidate entry.candidate
        return held.insert candidate.id ⟨candidate, entry.references⟩)
      (Table.empty : Table CandidateId (Held P T K K)) =
      .ok (restored held []) := by
  obtain ⟨entries⟩ := held
  simp only [Table.keys, Table.values] at hkeys hnames hkeeps ⊢
  induction entries using List.reverseRecOn with
  | nil => rfl
  | append_singleton entries entry ih =>
    rw [List.map_append, List.nodup_append] at hkeys
    obtain ⟨hkeys, -, hnew⟩ := hkeys
    have hlast : entry ∈ entries ++ [entry] := by simp
    have hfresh : entry.1 ∉ (restored ⟨entries⟩ [] : Table _ (Held P T K K)).keys := by
      rw [keys_restored]
      exact fun hmem => hnew entry.1 hmem entry.1 (by simp) rfl
    rw [List.map_append, List.map_append, List.foldlM_append,
      ih hkeys (fun e he => hnames e (List.mem_append_left _ he))
        fun e he => hkeeps e (List.mem_append_left _ he)]
    simp only [List.map_singleton, List.foldlM_cons, List.foldlM_nil, bind, Except.bind, pure,
      Except.pure, Codec.readCandidate_write hkey (hkeeps entry hlast)]
    have hid : entry.2.candidate.settle.id = entry.1 := hnames entry hlast
    rw [hid, Table.insert_of_not_mem hfresh]
    simp [restored, Candidate.forget, hid]

end Restored

/-! ### Whole memories -/

/-- A memory whose candidates and samples survive being written and read. -/
structure Storable (codec : Codec P T Q K) (w : Window P T Q K K) : Prop where
  candidates : ∀ e ∈ w.held.values, codec.Keeps e.candidate
  samples : ∀ step ∈ w.steps,
    codec.readSample (codec.writeSample step.sample) = .ok step.sample

/-- The memory with its numbers as they are read back. -/
def settle [Extended K] (w : Window P T Q K K) : Window P T Q K K :=
  { w with held := ⟨w.held.entries.map fun entry => (entry.1, entry.2.settle)⟩ }

/-- Such a memory holds the same candidates. -/
lemma keys_settle [Extended K] (w : Window P T Q K K) : w.settle.held.keys = w.held.keys := by
  simp only [settle, Table.keys, List.map_map]
  rfl

/-- The candidates of such a memory. -/
lemma candidate?_settle [Extended K] (w : Window P T Q K K) (id : CandidateId) :
    w.settle.candidate? id = (w.candidate? id).map Candidate.settle := by
  simp only [candidate?, Table.find?, settle, List.find?_map, Option.map_map]
  rfl

section Memories

variable {codec : Codec P T Q K} {w : Window P T Q K K} {seen : List CandidateId}

/-- The candidates of a step are those of its members. -/
lemma Kept.map_id_resolve (h : Kept seen w) {i : Nat} {step : Step Q}
    (hstep : w.steps[i]? = some step) : (w.resolve step).map Candidate.id = step.members := by
  rw [resolve, List.map_filterMap]
  refine (List.filterMap_congr fun id hid => ?_).trans List.filterMap_some
  have hat : w.At i id := ⟨step, hstep, hid⟩
  obtain ⟨e, he⟩ := h.linked.exists_find? hat
  have hc : w.candidate? id = some e.candidate := by rw [candidate?, he, Option.map_some]
  rw [hc, Option.map_some, h.names i id e.candidate hat hc]

/-- A candidate of a step is held under its identifier. -/
lemma Kept.candidate?_id (h : Kept seen w) {i : Nat} {step : Step Q}
    (hstep : w.steps[i]? = some step) {c : Candidate P T K K} (hc : c ∈ w.resolve step) :
    w.candidate? c.id = some c ∧ w.At i c.id := by
  obtain ⟨id, hid, hfind⟩ := List.mem_filterMap.1 hc
  have hat : w.At i id := ⟨step, hstep, hid⟩
  rw [h.names i id c hat hfind]
  exact ⟨hfind, hat⟩

/-- The predecessor of a candidate of a step is held, and has a name. -/
lemma Kept.predecessor_mem_keys (h : Kept seen w) (hempty : "" ∉ seen) {i : Nat} {step : Step Q}
    (hstep : w.steps[i]? = some step) {c : Candidate P T K K} (hc : c ∈ w.resolve step)
    {p : CandidateId} (hp : c.predecessor = some p) : p ≠ "" ∧ p ∈ w.held.keys := by
  obtain ⟨hfind, hat⟩ := h.candidate?_id hstep hc
  have hpointer : w.pointer? c.id = some p := by rw [pointer?_eq, hfind, Option.bind_some, hp]
  obtain ⟨j, -, -, hbefore⟩ := h.linked.exists_before hat hpointer
  refine ⟨?_, (h.linked.held p).2 ⟨j, hbefore⟩⟩
  rintro rfl
  exact hempty (h.seen j "" hbefore)

/-- References are counted with 64 bits. -/
lemma Sequenced.references_lt [Timed Q] (h : Sequenced w) (hkept : Kept seen w) {e : Held P T K K}
    (he : e ∈ w.held.values) : e.references < 18446744073709551616 := by
  obtain ⟨⟨id, e⟩, hentry, rfl⟩ := List.mem_map.1 he
  have hfind := Table.find?_of_mem_entries hkept.linked.keys hentry
  obtain ⟨i, hat⟩ := (hkept.linked.held id).1 (List.mem_map_of_mem hentry)
  have hnamed : (w.named [] (i + 1)).length < 18446744073709551616 := by
    cases hstep : w.steps[i + 1]? with
    | none => simp [named, hstep]
    | some step =>
      calc (w.named [] (i + 1)).length
          ≤ step.members.length := by
            rw [named_of_getElem? hstep]
            exact List.length_filterMap_le _ _
        _ < 18446744073709551616 := h.sizes step (List.mem_of_getElem? hstep)
  calc e.references
      = (w.named [] (i + 1)).count id := hkept.linked.references i id e hat hfind
    _ ≤ (w.named [] (i + 1)).length := List.count_le_length
    _ < 18446744073709551616 := hnamed

variable [Numeral K]

/-- A step is restored, and its candidates have their predecessors again. -/
lemma Kept.restoreStep_recordOf (h : Kept seen w) (hempty : "" ∉ seen) {step : Step Q}
    (hstep : step ∈ w.steps)
    (hsample : codec.readSample (codec.writeSample step.sample) = .ok step.sample)
    (done : List CandidateId) :
    restoreStep codec (restored w.held done) (recordOf codec w step) =
      .ok (step, restored w.held (done ++ step.members)) := by
  obtain ⟨i, hi⟩ := List.getElem?_of_mem hstep
  have hmembers := h.map_id_resolve hi
  have hlinks := foldlM_restoreLink done h.linked.keys
    (fun c hc => (h.candidate?_id hi hc).1) fun c hc p hp => h.predecessor_mem_keys hempty hi hc hp
  have hestimate : step.estimate ∈ w.held.keys :=
    (h.linked.held _).2 ⟨i, step, hi, h.linked.estimates step hstep⟩
  have hcandidates : (w.resolve step).map (LinkRecord.candidate ∘ linkOf) = step.members := hmembers
  rw [hmembers] at hlinks
  simp only [restoreStep, recordOf, hlinks, bind, Except.bind, contains_restored hestimate,
    hsample, List.map_map, hcandidates]
  rfl

/-- All steps are restored. -/
lemma Kept.restoreSteps_recordOf (h : Kept seen w) (hempty : "" ∉ seen)
    (hs : w.Storable codec) {steps : List (Step Q)} (hsub : steps ⊆ w.steps)
    (done : List CandidateId) :
    restoreSteps codec (restored w.held done) (steps.map (recordOf codec w)) =
      .ok (steps, restored w.held (done ++ steps.flatMap Step.members)) := by
  induction steps generalizing done with
  | nil => rw [List.flatMap_nil, List.append_nil]; rfl
  | cons step steps ih =>
    have hstep : step ∈ w.steps := hsub List.mem_cons_self
    simp only [List.map_cons, restoreSteps, bind, Except.bind,
      h.restoreStep_recordOf hempty hstep (hs.samples step hstep),
      ih fun x hx => hsub (List.mem_cons_of_mem step hx), List.flatMap_cons, List.append_assoc]
    rfl

/-- In the end all candidates have their predecessors again. -/
lemma Linked.restored_eq {next : List CandidateId} (h : Linked next w) :
    restored w.held (w.steps.flatMap Step.members) = w.settle.held := by
  refine congrArg Table.mk (List.map_congr_left fun entry hentry => ?_)
  have hmem : entry.1 ∈ w.steps.flatMap Step.members :=
    mem_flatMap_members.2 ((h.held _).1 (List.mem_map_of_mem hentry))
  rw [if_pos hmem]

/-- The memory of a snapshot, part by part. -/
lemma ofSnapshot_of_record? [IntCast K] [Timed Q] {json : Json K} {parts : Record K}
    (hparts : record? json = some parts) {held held' : Table CandidateId (Held P T K K)}
    (hheld : parts.held.foldlM
      (fun held entry => do
        let candidate ← codec.readCandidate entry.candidate
        return held.insert candidate.id ⟨candidate, entry.references⟩)
      (Table.empty : Table CandidateId (Held P T K K)) = .ok held)
    {steps : List (Step Q)} (hsteps : restoreSteps codec held parts.steps = .ok (steps, held')) :
    ofSnapshot codec json =
      .ok { (bounded (bound? parts.maxSteps) (bound? parts.maxAge) : Window P T Q K K) with
        steps := steps.mergeSort fun a b => Timed.time a.sample ≤ Timed.time b.sample
        held := held'
        broken := parts.broken } := by
  rw [ofSnapshot, hparts]
  show (parts.held.foldlM _ _ >>= fun held => restoreSteps codec held parts.steps >>= _) = _
  rw [hheld]
  show (restoreSteps codec held parts.steps >>= _) = _
  rw [hsteps]
  rfl

/-- **Restoring**. A memory between updates is restored from its snapshot, with its bounds and its
numbers as they are read back. Its breaks are not counted any more. -/
theorem Kept.ofSnapshot_eq [IntCast K] [Timed Q] (h : Kept seen w) (hempty : "" ∉ seen)
    (ho : Sequenced w) (hs : w.Storable codec) (hkey : codec.HasOwnKey) :
    ofSnapshot codec (toSnapshot codec w) = .ok { w.settle with
      maxSteps := bound? (boundInteger w.maxSteps)
      maxAge := (bound? (boundInteger w.maxAge)).filter fun age => 0 < age
      breaks := 0 } := by
  have hvalues : ∀ entry ∈ w.held.entries, entry.2 ∈ w.held.values := fun entry hentry =>
    List.mem_map_of_mem hentry
  have hnames : ∀ entry ∈ w.held.entries, entry.2.candidate.id = entry.1 := by
    intro entry hentry
    have hfind := Table.find?_of_mem_entries h.linked.keys hentry
    obtain ⟨i, hat⟩ := (h.linked.held _).1 (List.mem_map_of_mem hentry)
    exact h.names i _ _ hat (by rw [candidate?, hfind, Option.map_some])
  have hheld := foldlM_readCandidate hkey w.held h.linked.keys hnames
    fun entry hentry => hs.candidates _ (hvalues entry hentry)
  have hsteps := h.restoreSteps_recordOf hempty hs (List.Subset.refl _) []
  rw [List.nil_append, h.linked.restored_eq] at hsteps
  have hsort : (w.steps.mergeSort fun a b => Timed.time a.sample ≤ Timed.time b.sample) =
      w.steps := by
    refine List.mergeSort_of_pairwise ?_
    simpa using List.pairwise_map.1 ho.sorted
  rw [ofSnapshot_of_record? (record?_toSnapshot codec fun e he => ho.references_lt h he) hheld
    hsteps, hsort]
  rfl

/-- If its bounds are below the signs of 64 bits, they are restored too. -/
theorem Kept.ofSnapshot_toSnapshot [IntCast K] [Timed Q] (h : Kept seen w) (hempty : "" ∉ seen)
    (ho : Orderly w) (hs : w.Storable codec) (hkey : codec.HasOwnKey) :
    ofSnapshot codec (toSnapshot codec w) = .ok { w.settle with breaks := 0 } := by
  have hage : w.maxAge.filter (fun age => 0 < age) = w.maxAge := by
    cases hmax : w.maxAge with
    | none => rfl
    | some age => simp [Option.filter, (ho.maxAge age hmax).1]
  rw [h.ofSnapshot_eq hempty ho.sequenced hs hkey, bound?_boundInteger ho.maxSteps,
    bound?_boundInteger fun age hmem => (ho.maxAge age hmem).2, hage]
  rfl

end Memories

end Window

end RoadMatching
