import RoadMatching.Proofs.Memory.Eviction
import RoadMatching.Proofs.Memory.Pruning

/-!
What a memory retains.

* `Pruned`: whatever a step holds is its best candidate, or named by the step after it, or loose; in
  a memory between updates only the members of the last step are.
* `Kept`: the invariant of a memory between updates. `Kept.update` is the step lemma, and
  `feed_kept` the run lemma.
* `Needed`: the candidates of the last step, the best ones of all steps, and their predecessors.
* `feed_retained`: after distinct updates a memory holds exactly the candidates needed, each in one
  step, with predecessors in the step before and the number of references that the next step makes.
-/

namespace RoadMatching

variable {P T Q K S : Type}

namespace Window

variable {w : Window P T Q K S} {next loose : List CandidateId}

/-! ### Nothing is left over -/

/-- The members of the last step. -/
def lastMembers (w : Window P T Q K S) : List CandidateId :=
  (w.steps.getLast?.map Step.members).getD []

/-- Each member of a step is the best one there, or named by what comes after, or loose. -/
def Pruned (next loose : List CandidateId) (w : Window P T Q K S) : Prop :=
  ∀ i step, w.steps[i]? = some step → ∀ id ∈ step.members,
    step.estimate = id ∨ id ∈ w.named next (i + 1) ∨ id ∈ loose

/-- The members of the last step have its index. -/
lemma mem_lastMembers {id : CandidateId} :
    id ∈ w.lastMembers ↔ ∃ i, i + 1 = w.steps.length ∧ w.At i id := by
  rw [lastMembers]
  cases hlast : w.steps.getLast? with
  | none =>
    have hnil : w.steps = [] := List.getLast?_eq_none_iff.1 hlast
    constructor
    · intro h
      cases h
    · rintro ⟨i, hi, -⟩
      rw [hnil] at hi
      cases hi
  | some step =>
    refine ⟨exists_at_last hlast, ?_⟩
    rintro ⟨i, hi, step', hstep', hid⟩
    rw [List.getLast?_eq_getElem?, ← hi, Nat.add_sub_cancel, hstep', Option.some.injEq] at hlast
    exact hlast ▸ hid

/-- A loose candidate may be discarded, when its predecessor is still named or becomes loose. -/
lemma Pruned.discard {id : CandidateId} (hp : Pruned next (id :: loose) w) (h : Linked next w)
    {index : Nat} (hat : w.At index id) {more : List CandidateId}
    (hmore : ∀ p, w.pointer? id = some p → p ∈ more ∨ p ∈ (w.discard id index).named next index) :
    Pruned next (more ++ loose) (w.discard id index) := by
  intro i step' hstep' x hx
  have hleft : (w.discard id index).At i x := ⟨step', hstep', hx⟩
  obtain ⟨⟨step, hstep, hmem⟩, hnot⟩ := at_discard.1 hleft
  have hxid : x ≠ id := by
    rintro rfl
    exact hnot ⟨h.apart ⟨step, hstep, hmem⟩ hat, rfl⟩
  have hestimate : step'.estimate = step.estimate := by
    rw [getElem?_steps_discard, hstep, Option.map_some, Option.some.injEq] at hstep'
    rw [← hstep']
    split <;> rfl
  rw [hestimate, List.mem_append]
  rcases hp i step hstep x hmem with hbest | hnamed | hloose
  · exact .inl hbest
  · have hcount := h.count_named_discard hat (i + 1) x
    by_cases hlost : i + 1 = index ∧ w.pointer? id = some x
    · obtain ⟨hi, hpx⟩ := hlost
      rcases hmore x hpx with hx | hx
      · exact .inr (.inr (.inl hx))
      · exact .inr (.inl (hi ▸ hx))
    · rw [if_neg hlost, Nat.sub_zero] at hcount
      exact .inr (.inl (List.count_pos_iff.1 (hcount ▸ List.count_pos_iff.2 hnamed)))
  · rcases List.mem_cons.1 hloose with rfl | hloose
    · exact absurd rfl hxid
    · exact .inr (.inr (.inr hloose))

/-- A candidate that is the best one wherever it is need not be loose. -/
lemma Pruned.spare {id : CandidateId} (hp : Pruned next (id :: loose) w)
    (hbest : ∀ step ∈ w.steps, id ∈ step.members → step.estimate = id) : Pruned next loose w := by
  intro i step hstep x hx
  rcases hp i step hstep x hx with h | h | h
  · exact .inl h
  · exact .inr (.inl h)
  · rcases List.mem_cons.1 h with rfl | h
    · exact .inl (hbest step (List.mem_of_getElem? hstep) hx)
    · exact .inr (.inr h)

/-- After the last step is pruned, nothing is loose. -/
lemma Pruned.pruneLast (h : Linked next w) (hp : Pruned next w.lastMembers w) :
    Pruned next [] w.pruneLast := by
  refine (pruneLast_induction (motive := Pruned next) (fun _ hbest hp => hp.spare hbest)
    (fun h hat _ hmore hp => hp.discard h hat hmore) h fun loose hloose => ?_).2.2
  intro i step hstep id hid
  rcases hp i step hstep id hid with hbest | hnamed | hlast
  · exact .inl hbest
  · exact .inr (.inl hnamed)
  · obtain ⟨j, hj, hat⟩ := mem_lastMembers.1 hlast
    rcases hloose j id hj hat with hnext | hid'
    · have hij := h.apart ⟨step, hstep, hid⟩ hat
      rw [hij, hj, named_length]
      exact .inr (.inl hnext)
    · exact .inr (.inr hid')

/-- The count of a vector makes nothing loose. -/
lemma Pruned.countReferences (hp : Pruned [] w.lastMembers w) {vector : List (Candidate P T K S)}
    (hnamed : ∀ i, (w.countReferences vector).named next i = w.named next i) :
    Pruned next w.lastMembers (w.countReferences vector) := by
  intro i step hstep id hid
  have hstep : w.steps[i]? = some step := hstep
  rcases hp i step hstep id hid with hbest | hname | hlast
  · exact .inl hbest
  · by_cases hlt : i + 1 < w.steps.length
    · rw [hnamed, named_of_lt hlt []]
      exact .inr (.inl hname)
    · have heq : i + 1 = w.steps.length := by
        have := (List.getElem?_eq_some_iff.1 hstep).1
        omega
      rw [heq, named_length] at hname
      cases hname
  · exact .inr (.inr hlast)

section Append

variable {vector : List (Candidate P T K S)} {sample : Q} {best : CandidateId}

/-- When a vector is appended, nothing but its own candidates becomes loose. -/
lemma Pruned.append (h : Linked (Candidate.predecessors vector) w)
    (hp : Pruned (Candidate.predecessors vector) [] w) (hnodup : (vector.map Candidate.id).Nodup)
    (hfresh : ∀ id ∈ vector.map Candidate.id, id ∉ w.held.keys) :
    Pruned [] (w.append vector sample best).lastMembers (w.append vector sample best) := by
  have hlength : (w.append vector sample best).steps.length = w.steps.length + 1 := by
    rw [Window.append, List.length_append, List.length_singleton]
  intro i step hstep id hid
  rcases at_append.1 ⟨step, hstep, hid⟩ with hat | ⟨rfl, hmem⟩
  · have hlt := hat.lt_length
    rw [Window.append, List.getElem?_append_left hlt] at hstep
    rw [h.named_append hnodup hfresh hlt]
    rcases hp i step hstep id hid with hbest | hname | hnone
    · exact .inl hbest
    · exact .inr (.inl hname)
    · cases hnone
  · refine .inr (.inr (mem_lastMembers.2 ⟨w.steps.length, hlength.symm, step, hstep, hid⟩))

end Append

/-- Nothing becomes loose when the oldest step is dropped. -/
lemma Pruned.dropFront (h : Linked [] w) (hp : Pruned [] w.lastMembers w)
    (hlen : 1 < w.steps.length) : Pruned [] w.dropFront.lastMembers w.dropFront := by
  intro i step hstep id hid
  have htail := steps_dropFront hlen
  rw [htail, List.getElem?_tail] at hstep
  rw [h.named_dropFront hlen, if_neg (Nat.succ_ne_zero i)]
  rcases hp (i + 1) step hstep id hid with hbest | hname | hlast
  · exact .inl hbest
  · exact .inr (.inl hname)
  · obtain ⟨j, hj, hat⟩ := mem_lastMembers.1 hlast
    have hij := h.apart ⟨step, hstep, hid⟩ hat
    refine .inr (.inr (mem_lastMembers.2 ⟨i, ?_, (at_dropFront hlen).2 (hij ▸ hat)⟩))
    rw [htail, List.length_tail]
    omega

/-! ### Runs -/

/-- A memory between updates: its links are whole, nothing is left over, and all candidates held are
among those seen, each under its own identifier. -/
structure Kept (seen : List CandidateId) (w : Window P T Q K S) : Prop where
  linked : Linked [] w
  pruned : Pruned [] w.lastMembers w
  seen : ∀ i id, w.At i id → id ∈ seen
  names : ∀ i id c, w.At i id → w.candidate? id = some c → c.id = id

lemma kept_bounded (k t : Option Nat) : Kept [] (bounded k t : Window P T Q K S) where
  linked := linked_bounded k t
  pruned i step h := by cases h
  seen i id h := by
    obtain ⟨step, hstep, -⟩ := h
    cases hstep
  names i id c h := by
    obtain ⟨step, hstep, -⟩ := h
    cases hstep

/-- More candidates may have been seen, and breaks change nothing that is kept. -/
lemma Kept.mono {v : Window P T Q K S} {seen more : List CandidateId} (h : Kept seen w)
    (hsteps : v.steps = w.steps) (hheld : v.held = w.held) (hsub : seen ⊆ more) : Kept more v := by
  obtain ⟨maxSteps, maxAge, steps, held, breaks, broken⟩ := v
  subst hsteps hheld
  exact ⟨⟨h.linked.distinct, h.linked.keys, h.linked.held, h.linked.estimates, h.linked.origin,
    h.linked.before, h.linked.references⟩, h.pruned, fun i id hat => hsub (h.seen i id hat),
    h.names⟩

section Updates

variable [Timed Q] {seen : List CandidateId} {vector : List (Candidate P T K S)} {sample : Q}
  {best : Candidate P T K S}

/-- When a vector of new candidates is not refused, it can be appended after the last step is
pruned. -/
lemma Kept.ready (h : Kept seen w) (hfault : w.fault? vector sample = none)
    (hfresh : ∀ id ∈ vector.map Candidate.id, id ∉ seen)
    (hlen : vector.length < 18446744073709551616) :
    Linked (Candidate.predecessors vector) (w.countReferences vector).pruneLast ∧
      Pruned (Candidate.predecessors vector) [] (w.countReferences vector).pruneLast ∧
      Trimmed w (w.countReferences vector).pruneLast ∧
      ∀ id ∈ vector.map Candidate.id, id ∉ (w.countReferences vector).pruneLast.held.keys := by
  have hp := mem_latest_of_fault?_eq_none hfault
  have hcounted := h.linked.countReferences hp hlen
  obtain ⟨hpruned, htrimmed, -⟩ := pruneLast_induction (motive := fun _ _ => True)
    (fun _ _ _ => trivial) (fun _ _ _ _ _ => trivial) hcounted (fun _ _ => trivial)
  have hclean : Pruned (Candidate.predecessors vector) [] (w.countReferences vector).pruneLast :=
    Pruned.pruneLast hcounted (h.pruned.countReferences (h.linked.named_countReferences hp hlen))
  have htrimmed' := (h.linked.trimmed_countReferences hp hlen).trans htrimmed
  refine ⟨hpruned, hclean, htrimmed', fun id hid hmem => ?_⟩
  obtain ⟨i, hat⟩ := (hpruned.held id).1 hmem
  exact hfresh id hid (h.seen i id (htrimmed'.members i id hat))

/-- A memory keeps its invariant when a vector of new candidates is appended. -/
lemma Kept.update (h : Kept seen w) (hfault : w.fault? vector sample = none)
    (hbest : best ∈ vector) (hnodup : (vector.map Candidate.id).Nodup)
    (hfresh : ∀ id ∈ vector.map Candidate.id, id ∉ seen)
    (hlen : vector.length < 18446744073709551616) :
    Kept (seen ++ vector.map Candidate.id)
      ((w.countReferences vector).pruneLast.append vector sample best.id).evict := by
  obtain ⟨hlinked, hclean, htrimmed, hnew⟩ := h.ready hfault hfresh hlen
  refine evict_induction ⟨hlinked.append hnodup hnew (List.mem_map_of_mem hbest),
    hclean.append hlinked hnodup hnew, fun i id hat => ?_, fun i id c hat hc => ?_⟩
    fun v hlen hv => ?_
  · rcases at_append.1 hat with hat | ⟨-, hid⟩
    · exact List.mem_append_left _ (h.seen i id (htrimmed.members i id hat))
    · exact List.mem_append_right _ hid
  · rcases at_append.1 hat with hat | ⟨-, hid⟩
    · have hold : id ∉ vector.map Candidate.id := fun hid =>
        hnew id hid ((hlinked.held id).2 ⟨i, hat⟩)
      rw [candidate?, find?_append_of_not_mem hold] at hc
      exact h.names i id c (htrimmed.members i id hat) (htrimmed.candidates i id hat ▸ hc)
    · obtain ⟨d, hd, rfl⟩ := List.mem_map.1 hid
      rw [candidate?, find?_append_of_mem hnodup hd, Option.map_some, Option.some.injEq] at hc
      rw [← hc]
  · refine ⟨hv.linked.dropFront hlen, hv.pruned.dropFront hv.linked hlen,
      fun i id hat => hv.seen (i + 1) id ((at_dropFront hlen).1 hat), fun i id c hat hc => ?_⟩
    rw [at_dropFront hlen] at hat
    obtain ⟨e, he⟩ := hv.linked.exists_find? hat
    have hname := hv.names (i + 1) id e.candidate hat (by rw [candidate?, he]; rfl)
    rw [candidate?, hv.linked.find?_dropFront hlen hat, he, Option.map_some, Option.map_some,
      Option.some.injEq] at hc
    rw [← hc, ← hname]
    split <;> rfl

variable [LT S] [DecidableLT S]

/-- An update whose candidates are new keeps the invariant, whether or not it is refused. -/
lemma Kept.accept (h : Kept seen w) {u : Update P T Q K S} (hnodup : u.ids.Nodup)
    (hfresh : ∀ id ∈ u.ids, id ∉ seen) (hlen : u.vector.length < 18446744073709551616) :
    Kept (seen ++ u.ids) (w.accept u) := by
  rw [Window.accept]
  rcases w.update_cases u.vector u.sample with
    ⟨-, heq⟩ | ⟨error, -, -, heq⟩ | ⟨best, hbest, hfault, heq⟩
  · rw [heq]
    exact Kept.mono (v := { w with breaks := _, broken := true }) h rfl rfl
      (List.subset_append_left _ _)
  · rw [heq]
    exact h.mono rfl rfl (List.subset_append_left _ _)
  · rw [heq]
    exact h.update hfault (Candidate.mem_of_best? hbest) hnodup hfresh hlen

/-- A memory fed distinct updates keeps its invariant. -/
theorem feed_kept (k t : Option Nat) {updates : List (Update P T Q K S)}
    (h : Update.Distinct updates) :
    Kept (updates.flatMap Update.ids) ((bounded k t).feed updates) := by
  induction updates using List.reverseRecOn with
  | nil => exact kept_bounded k t
  | append_singleton updates u ih =>
    obtain ⟨hnodup, hfresh, hlen⟩ := h.last
    rw [feed_concat, List.flatMap_append, List.flatMap_singleton]
    exact (ih h.init).accept hnodup hfresh hlen

end Updates

/-! ### What is needed -/

/-- The candidates of the last step and the best ones of all steps are needed, and the predecessors
of those needed. -/
inductive Needed (w : Window P T Q K S) : CandidateId → Prop
  | latest {step : Step Q} {id : CandidateId} (hlast : w.steps.getLast? = some step)
      (hid : id ∈ step.members) : Needed w id
  | estimate {step : Step Q} (hstep : step ∈ w.steps) : Needed w step.estimate
  | predecessor {id p : CandidateId} {c : Candidate P T K S} (h : Needed w id)
      (hc : w.candidate? id = some c) (hp : c.predecessor = some p) : Needed w p

/-- A memory that holds what is needed, in its place and with its references. -/
structure Retained (w : Window P T Q K S) : Prop where
  /-- The candidates held are those of the steps, -/
  keys : w.held.keys.Perm (w.steps.flatMap Step.members)
  /-- each of them in one step only. -/
  distinct : (w.steps.flatMap Step.members).Nodup
  estimates : ∀ step ∈ w.steps, step.estimate ∈ step.members
  /-- A predecessor is held in the step before, so those of the oldest step have none. -/
  predecessors : ∀ i step, w.steps[i]? = some step → ∀ c ∈ w.resolve step, ∀ p,
    c.predecessor = some p → ∃ j before, i = j + 1 ∧ w.steps[j]? = some before ∧ p ∈ before.members
  references : ∀ i step, w.steps[i]? = some step → ∀ id ∈ step.members,
    ∃ e, w.held.find? id = some e ∧
      e.references = ((w.steps[i + 1]?.map w.resolve).getD []).countP fun c =>
        c.predecessor == some id
  needed : ∀ id, id ∈ w.held.keys ↔ w.Needed id

lemma pointer?_eq (id : CandidateId) :
    w.pointer? id = (w.candidate? id).bind Candidate.predecessor := by
  rw [pointer?, candidate?, Option.bind_map]
  rfl

/-- What a step names, by its candidates. -/
lemma pointers_eq (step : Step Q) :
    w.pointers step = (w.resolve step).filterMap Candidate.predecessor := by
  rw [pointers, resolve, List.filterMap_filterMap]
  refine List.filterMap_congr fun id _ => pointer?_eq id

/-- Everything held is needed: if nothing else asks for it, then the step after it does. -/
lemma Kept.needed {seen : List CandidateId} (h : Kept seen w) {i : Nat} {id : CandidateId}
    (hat : w.At i id) : w.Needed id := by
  induction hn : w.steps.length - i using Nat.strong_induction_on generalizing i id with
  | _ n ih =>
    have hlt := hat.lt_length
    obtain ⟨step, hstep, hid⟩ := hat
    rcases h.pruned i step hstep id hid with hbest | hnamed | hlast
    · exact hbest ▸ .estimate (List.mem_of_getElem? hstep)
    · cases hafter : w.steps[i + 1]? with
      | none =>
        rw [named, hafter] at hnamed
        cases hnamed
      | some after =>
        rw [named_of_getElem? hafter] at hnamed
        obtain ⟨m, hm, hp⟩ := List.mem_filterMap.1 hnamed
        have hneeded : w.Needed m :=
          ih (w.steps.length - (i + 1)) (by omega) ⟨after, hafter, hm⟩ rfl
        rw [pointer?_eq, Option.bind_eq_some_iff] at hp
        obtain ⟨c, hc, hp⟩ := hp
        exact .predecessor hneeded hc hp
    · rw [lastMembers] at hlast
      cases hl : w.steps.getLast? with
      | none =>
        rw [hl] at hlast
        cases hlast
      | some last =>
        rw [hl] at hlast
        exact .latest hl hlast

/-- Whatever is needed is in some step. -/
lemma Linked.exists_at_of_needed (h : Linked next w) {id : CandidateId} (hid : w.Needed id) :
    ∃ i, w.At i id := by
  induction hid with
  | latest hlast hid =>
    exact mem_flatMap_members.1 (List.mem_flatMap.2 ⟨_, List.mem_of_getLast? hlast, hid⟩)
  | estimate hstep =>
    exact mem_flatMap_members.1 (List.mem_flatMap.2 ⟨_, hstep, h.estimates _ hstep⟩)
  | predecessor _ hc hp ih =>
    obtain ⟨i, hat⟩ := ih
    obtain ⟨j, -, -, hbefore⟩ := h.exists_before hat (by rw [pointer?_eq, hc, Option.bind_some, hp])
    exact ⟨j, hbefore⟩

/-- What a memory keeps is what it should retain. -/
lemma Kept.retained {seen : List CandidateId} (h : Kept seen w) : w.Retained where
  keys := (List.perm_ext_iff_of_nodup h.linked.keys h.linked.distinct).2 fun id => by
    rw [h.linked.held, mem_flatMap_members]
  distinct := h.linked.distinct
  estimates := h.linked.estimates
  predecessors i step hstep c hc p hp := by
    obtain ⟨id, hid, hc⟩ := List.mem_filterMap.1 hc
    have hpointer : w.pointer? id = some p := by rw [pointer?_eq, hc, Option.bind_some, hp]
    obtain ⟨j, hj, -, before, hbefore, hmem⟩ := h.linked.exists_before ⟨step, hstep, hid⟩ hpointer
    exact ⟨j, before, hj, hbefore, hmem⟩
  references i step hstep id hid := by
    obtain ⟨e, he⟩ := h.linked.exists_find? ⟨step, hstep, hid⟩
    refine ⟨e, he, ?_⟩
    rw [h.linked.references i id e ⟨step, hstep, hid⟩ he, named]
    cases w.steps[i + 1]? with
    | none => rfl
    | some after =>
      rw [Option.map_some, Option.getD_some, pointers_eq, List.count_filterMap]
      rfl
  needed id := by
    rw [h.linked.held]
    constructor
    · rintro ⟨i, hat⟩
      exact h.needed hat
    · exact h.linked.exists_at_of_needed

/-- **Memories retain what is needed**: after distinct updates, breaks and refusals included, a
memory of any bounds holds exactly the candidates of its last step, the best ones of its steps and
their predecessors, each in its step and with as many references as the next step makes. -/
theorem feed_retained [Timed Q] [LT S] [DecidableLT S] (k t : Option Nat)
    {updates : List (Update P T Q K S)} (h : Update.Distinct updates) :
    ((bounded k t).feed updates).Retained :=
  (feed_kept k t h).retained

/-- Of the twelve candidates of the fork, a memory of three steps holds four in the end. -/
theorem feed_retained_fork :
    Update.Distinct Update.fork ∧
      ((bounded (some 2) none).feed Update.fork).held.keys = ["c2", "d1", "d2", "e1"] ∧
      ((bounded (some 2) none).feed Update.fork).Retained := by
  have h : Update.Distinct Update.fork := ⟨by decide, by decide⟩
  exact ⟨h, by decide +kernel, feed_retained (some 2) none h⟩

end Window

end RoadMatching
