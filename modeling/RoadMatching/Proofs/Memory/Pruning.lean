import RoadMatching.Proofs.Memory.Links

/-!
Pruning drops candidates one by one.

* `discard`: the memory without a candidate, whose predecessor loses a reference. `prune_cases`
  writes a pruning as a discard, and one more pruning if that reference was the last one.
* `Linked.discard`: the links stay whole when a candidate that nothing names is discarded.
* `prune_induction`, `pruneLast_induction`: what discards of candidates that nothing names keep.
-/

namespace RoadMatching

variable {P T Q K S : Type}

namespace Window

/-! ### Discarding one candidate -/

/-- The candidates held, when the one named loses a reference. -/
def release (held : Table CandidateId (Held P T K S)) :
    Option CandidateId → Table CandidateId (Held P T K S)
  | some id => held.modify id fun e => { e with references := e.references - 1 }
  | none => held

/-- The memory without a candidate of the step at an index. -/
def discard (w : Window P T Q K S) (id : CandidateId) (index : Nat) : Window P T Q K S :=
  { w with
    steps := w.steps.modify index fun step =>
      { step with members := step.members.filter fun m => m ≠ id }
    held := release (w.held.erase id) (w.pointer? id) }

/-- The best candidate of a step is not pruned. -/
lemma prune_of_eq {w : Window P T Q K S} {id : CandidateId} {index : Nat} {step : Step Q}
    (hstep : w.steps[index]? = some step) (heq : step.estimate = id) : w.prune id index = w := by
  rw [prune]
  simp only [hstep, heq, if_true]

/-- Another candidate is discarded, and then its predecessor is pruned if nothing refers to it. -/
lemma prune_cases {w : Window P T Q K S} {id : CandidateId} {index : Nat} {step : Step Q}
    (hstep : w.steps[index]? = some step) (hne : step.estimate ≠ id) :
    (∃ p before e, w.pointer? id = some p ∧ index = before + 1 ∧
      (w.discard id index).held.find? p = some e ∧ e.references = 0 ∧
      w.prune id index = (w.discard id index).prune p before) ∨
    ((∀ p before e, w.pointer? id = some p → index = before + 1 →
      (w.discard id index).held.find? p = some e → e.references ≠ 0) ∧
      w.prune id index = w.discard id index) := by
  have hset : w.steps.set index { step with members := step.members.filter fun m => m ≠ id } =
      (w.discard id index).steps := by
    refine List.ext_getElem? fun j => ?_
    rw [discard, List.getElem?_set, List.getElem?_modify]
    by_cases hj : index = j
    · subst hj
      rw [hstep]
      simp [(List.getElem?_eq_some_iff.1 hstep).1]
    · simp [hj]
  generalize hr : w.prune id index = r
  rw [prune] at hr
  simp only [hstep, hne, if_false] at hr
  cases hid : w.held.find? id with
  | none =>
    have hpointer : w.pointer? id = none := by rw [pointer?, hid, Option.bind_none]
    have herase := Table.erase_of_not_mem ((Table.find?_eq_none_iff _ _).1 hid)
    refine .inr ⟨fun p before e hp => ?_, ?_⟩
    · rw [hpointer] at hp
      cases hp
    · simp only [hid] at hr
      rw [← hr, hset, discard, hpointer, release, herase]
  | some e =>
    have hpointer : w.pointer? id = e.candidate.predecessor := by
      rw [pointer?, hid, Option.bind_some]
    simp only [hid] at hr
    cases hp : e.candidate.predecessor with
    | none =>
      refine .inr ⟨fun p before e' hp' => ?_, ?_⟩
      · rw [hpointer, hp] at hp'
        cases hp'
      · simp only [hp] at hr
        rw [← hr, hset, discard, hpointer, hp, release]
    | some p =>
      have hheld : (w.held.erase id).modify p (fun e => { e with references := e.references - 1 }) =
          (w.discard id index).held := by
        rw [discard, hpointer, hp, release]
      simp only [hp, hset, hheld] at hr
      rw [hpointer, hp]
      split at hr
      · next c before hfind => exact .inl ⟨p, before, _, rfl, rfl, hfind, rfl, hr.symm⟩
      · next hother =>
        refine .inr ⟨?_, hr.symm⟩
        rintro _ before ⟨c, references⟩ ⟨⟩ rfl hfind rfl
        exact hother c before hfind rfl

variable {w : Window P T Q K S} {next : List CandidateId} {id : CandidateId} {index : Nat}

/-- A candidate that is not held, nor a member of a step, is not there to be pruned. -/
lemma prune_of_not_mem (hheld : id ∉ w.held.keys) (hsteps : ∀ step ∈ w.steps, id ∉ step.members) :
    w.prune id index = w := by
  have hfind := (Table.find?_eq_none_iff w.held id).2 hheld
  rw [prune]
  cases hstep : w.steps[index]? with
  | none => rfl
  | some step =>
    have hfilter : step.members.filter (fun m => m ≠ id) = step.members := by
      refine List.filter_eq_self.2 fun m hm => ?_
      rw [decide_eq_true_eq]
      rintro rfl
      exact hsteps step (List.mem_of_getElem? hstep) hm
    have hset : w.steps.set index step = w.steps := by
      obtain ⟨hlt, rfl⟩ := List.getElem?_eq_some_iff.1 hstep
      exact List.set_getElem_self hlt
    simp only [hfind, hfilter, hset, ite_self]

/-! ### The view of a discard -/

lemma getElem?_steps_discard (j : Nat) :
    (w.discard id index).steps[j]? = (w.steps[j]?).map fun step =>
      if index = j then { step with members := step.members.filter fun m => m ≠ id } else step := by
  rw [discard, List.getElem?_modify]
  rfl

lemma length_steps_discard : (w.discard id index).steps.length = w.steps.length := by
  rw [discard, List.length_modify]

lemma at_discard {j : Nat} {x : CandidateId} :
    (w.discard id index).At j x ↔ w.At j x ∧ ¬ (j = index ∧ x = id) := by
  simp only [At, getElem?_steps_discard]
  cases hstep : w.steps[j]? with
  | none => simp
  | some step =>
    by_cases hj : index = j
    · simp [hj]
    · simp [hj, Ne.symm hj]

lemma find?_discard (x : CandidateId) :
    (w.discard id index).held.find? x =
      if x = id then none
      else if w.pointer? id = some x then
        (w.held.find? x).map fun e => { e with references := e.references - 1 }
      else w.held.find? x := by
  have herase := Table.find?_erase w.held id x
  cases hp : w.pointer? id with
  | none =>
    rw [discard, hp]
    simp [release, herase]
  | some p =>
    rw [discard, hp]
    simp only [release, Table.find?_modify, herase, Option.some.injEq, eq_comm]
    split <;> split <;> rfl

lemma keys_discard : (w.discard id index).held.keys = w.held.keys.filter fun x => x ≠ id := by
  rw [discard, ← Table.keys_erase]
  cases w.pointer? id with
  | none => rfl
  | some p => exact Table.keys_modify _ _ _

/-- The candidates left keep their predecessors. -/
lemma pointer?_discard (x : CandidateId) :
    (w.discard id index).pointer? x = if x = id then none else w.pointer? x := by
  rw [pointer?, find?_discard]
  split
  · rfl
  · split
    · rw [Option.bind_map]
      rfl
    · rfl

/-- One name is gone from the names of all but one member. -/
lemma count_filterMap_filter {α β : Type} [DecidableEq α] [DecidableEq β] {l : List α}
    (hl : l.Nodup) {a : α} (ha : a ∈ l) (f : α → Option β) (x : β) :
    ((l.filter fun m => m ≠ a).filterMap f).count x =
      (l.filterMap f).count x - if f a = some x then 1 else 0 := by
  have herase : l.filter (fun m => m ≠ a) = l.erase a := by
    rw [hl.erase_eq_filter]
    refine List.filter_congr fun m _ => ?_
    by_cases hm : m = a <;> simp [hm]
  have hcount := ((List.perm_cons_erase ha).filterMap f).count_eq x
  rw [herase, hcount]
  cases hf : f a with
  | none => rw [List.filterMap_cons_none hf]; rfl
  | some b =>
    rw [List.filterMap_cons_some hf, List.count_cons]
    by_cases hb : b = x <;> simp [hb]

/-- A discard takes the name of the predecessor away from the step of the candidate. -/
lemma Linked.count_named_discard (h : Linked next w) (hat : w.At index id) (j : Nat)
    (x : CandidateId) :
    ((w.discard id index).named next j).count x =
      (w.named next j).count x - if j = index ∧ w.pointer? id = some x then 1 else 0 := by
  have hpointers : ∀ members : List CandidateId, id ∉ members →
      members.filterMap (w.discard id index).pointer? = members.filterMap w.pointer? := by
    intro members hnot
    refine List.filterMap_congr fun m hm => ?_
    rw [pointer?_discard, if_neg]
    rintro rfl
    exact hnot hm
  cases hstep : w.steps[j]? with
  | none =>
    have hj : ¬ j = index := by
      rintro rfl
      obtain ⟨step, hsome, -⟩ := hat
      rw [hstep] at hsome
      cases hsome
    rw [named, named, getElem?_steps_discard, hstep]
    simp [hj]
  | some step =>
    rw [named, named, getElem?_steps_discard, hstep]
    by_cases hj : index = j
    · subst hj
      obtain ⟨step', hstep', hid⟩ := hat
      rw [hstep, Option.some.injEq] at hstep'
      subst hstep'
      simp only [Option.map_some, if_true, Option.getD_some, pointers, true_and]
      rw [hpointers _ (by simp), count_filterMap_filter (h.nodup_members hstep) hid]
    · have hnot : id ∉ step.members := fun hid => hj (h.apart hat ⟨step, hstep, hid⟩)
      simp only [Option.map_some, if_neg hj, Option.getD_some, pointers, hpointers _ hnot,
        Ne.symm hj, false_and, if_false, Nat.sub_zero]

/-- A discard adds no names. -/
lemma Linked.mem_named_of_discard (h : Linked next w) (hat : w.At index id) {j : Nat}
    {x : CandidateId} (hx : x ∈ (w.discard id index).named next j) : x ∈ w.named next j := by
  rw [← List.count_pos_iff, h.count_named_discard hat] at hx
  rw [← List.count_pos_iff]
  omega

/-! ### The links after a discard -/

/-- The members of a step are no more after its change if the change only takes some away. -/
lemma flatMap_modify_sublist {α β : Type} {f : α → List β} {change : α → α}
    (hchange : ∀ a, (f (change a)).Sublist (f a)) (l : List α) (i : Nat) :
    ((l.modify i change).flatMap f).Sublist (l.flatMap f) := by
  induction l generalizing i with
  | nil => rw [List.modify_nil]
  | cons a l ih =>
    cases i with
    | zero =>
      rw [List.modify_zero_cons, List.flatMap_cons, List.flatMap_cons]
      exact (hchange a).append (List.Sublist.refl _)
    | succ i =>
      rw [List.modify_succ_cons, List.flatMap_cons, List.flatMap_cons]
      exact (List.Sublist.refl _).append (ih i)

/-- The links stay whole when a candidate that nothing names, and not the best one of its step, is
discarded. -/
lemma Linked.discard (h : Linked next w) {step : Step Q} (hstep : w.steps[index]? = some step)
    (hid : id ∈ step.members) (hne : step.estimate ≠ id) (hfree : id ∉ w.named next (index + 1)) :
    Linked next (w.discard id index) := by
  have hat : w.At index id := ⟨step, hstep, hid⟩
  refine ⟨?_, ?_, fun x => ?_, fun step' hmem => ?_, ?_, fun i hi p hp => ?_,
    fun i x e hleft he => ?_⟩
  · have hsub : ∀ s : Step Q, (s.members.filter fun m => m ≠ id).Sublist s.members :=
      fun _ => List.filter_sublist
    exact h.distinct.sublist (flatMap_modify_sublist (f := Step.members) hsub w.steps index)
  · rw [keys_discard]
    exact h.keys.filter _
  · rw [keys_discard, List.mem_filter, h.held x, decide_eq_true_eq]
    constructor
    · rintro ⟨⟨i, hi⟩, hx⟩
      exact ⟨i, at_discard.2 ⟨hi, fun hboth => hx hboth.2⟩⟩
    · rintro ⟨i, hleft⟩
      obtain ⟨hi, hnot⟩ := at_discard.1 hleft
      refine ⟨⟨i, hi⟩, ?_⟩
      rintro rfl
      exact hnot ⟨h.apart hi hat, rfl⟩
  · obtain ⟨j, hj⟩ := List.getElem?_of_mem hmem
    rw [getElem?_steps_discard, Option.map_eq_some_iff] at hj
    obtain ⟨old, hold, rfl⟩ := hj
    have hestimate := h.estimates old (List.mem_of_getElem? hold)
    split
    · next hj =>
      subst hj
      rw [hstep, Option.some.injEq] at hold
      subst hold
      exact List.mem_filter.2 ⟨hestimate, by simpa using hne⟩
    · exact hestimate
  · rw [List.eq_nil_iff_forall_not_mem]
    intro x hx
    have hmem := h.mem_named_of_discard hat hx
    rw [h.origin] at hmem
    cases hmem
  · rw [length_steps_discard] at hi
    have hmem := h.mem_named_of_discard hat hp
    refine at_discard.2 ⟨h.before i hi p hmem, ?_⟩
    rintro ⟨rfl, rfl⟩
    exact hfree hmem
  · obtain ⟨hx, hnot⟩ := at_discard.1 hleft
    have hxid : ¬ x = id := by
      rintro rfl
      exact hnot ⟨h.apart hx hat, rfl⟩
    rw [find?_discard, if_neg hxid] at he
    rw [h.count_named_discard hat]
    by_cases hp : w.pointer? id = some x
    · rw [if_pos hp, Option.map_eq_some_iff] at he
      obtain ⟨e, he, rfl⟩ := he
      obtain ⟨j, hj, -, hbefore⟩ := h.exists_before hat hp
      have hij : i + 1 = index := by rw [hj, h.apart hx hbefore]
      rw [if_pos ⟨hij, hp⟩, ← h.references i x e hx he]
    · rw [if_neg hp] at he
      rw [if_neg fun hboth => hp hboth.2, Nat.sub_zero, h.references i x e hx he]

/-! ### Whole prunings -/

/-- A memory with fewer candidates in the same steps. -/
structure Trimmed (w v : Window P T Q K S) : Prop where
  maxSteps : v.maxSteps = w.maxSteps
  maxAge : v.maxAge = w.maxAge
  breaks : v.breaks = w.breaks
  broken : v.broken = w.broken
  outline : v.steps.map (fun step => (step.sample, step.estimate)) =
    w.steps.map fun step => (step.sample, step.estimate)
  members : ∀ i id, v.At i id → w.At i id
  candidates : ∀ i id, v.At i id → v.candidate? id = w.candidate? id

namespace Trimmed

lemma refl (w : Window P T Q K S) : Trimmed w w :=
  ⟨rfl, rfl, rfl, rfl, rfl, fun _ _ h => h, fun _ _ _ => rfl⟩

lemma trans {u v w : Window P T Q K S} (h : Trimmed u v) (h' : Trimmed v w) : Trimmed u w where
  maxSteps := h'.maxSteps.trans h.maxSteps
  maxAge := h'.maxAge.trans h.maxAge
  breaks := h'.breaks.trans h.breaks
  broken := h'.broken.trans h.broken
  outline := h'.outline.trans h.outline
  members i id hat := h.members i id (h'.members i id hat)
  candidates i id hat := (h'.candidates i id hat).trans (h.candidates i id (h'.members i id hat))

lemma length_eq {v : Window P T Q K S} (h : Trimmed w v) : v.steps.length = w.steps.length := by
  simpa using congrArg List.length h.outline

lemma samples_eq {v : Window P T Q K S} (h : Trimmed w v) : v.samples = w.samples := by
  have houtline := congrArg (List.map Prod.fst) h.outline
  rwa [List.map_map, List.map_map] at houtline

end Trimmed

lemma Linked.trimmed_discard (h : Linked next w) (hat : w.At index id) :
    Trimmed w (w.discard id index) := by
  refine ⟨rfl, rfl, rfl, rfl, ?_, fun i x hx => (at_discard.1 hx).1, fun i x hleft => ?_⟩
  · refine List.ext_getElem? fun j => ?_
    rw [List.getElem?_map, List.getElem?_map, getElem?_steps_discard, Option.map_map]
    refine Option.map_congr fun step _ => ?_
    by_cases hj : index = j <;> simp [hj]
  · obtain ⟨hx, hnot⟩ := at_discard.1 hleft
    have hxid : ¬ x = id := by
      rintro rfl
      exact hnot ⟨h.apart hx hat, rfl⟩
    rw [candidate?, find?_discard, if_neg hxid]
    split
    · rw [Option.map_map]
      rfl
    · rfl

/-- The count of a vector changes no candidate. -/
lemma Linked.trimmed_countReferences (h : Linked [] w) {vector : List (Candidate P T K S)}
    (hp : ∀ p ∈ Candidate.predecessors vector, p ∈ w.latest)
    (hlen : vector.length < 18446744073709551616) : Trimmed w (w.countReferences vector) := by
  refine ⟨rfl, rfl, rfl, rfl, rfl, fun _ _ hat => hat, fun i id hat => ?_⟩
  rw [candidate?, find?_countReferences w vector id fun hid e he =>
    h.references_add_count_lt hp hlen hid he, Option.map_map]
  rfl

section Induction

variable {motive : List CandidateId → Window P T Q K S → Prop}
  (spared : ∀ {w : Window P T Q K S} {id : CandidateId} {loose : List CandidateId}, Linked next w →
    (∀ step ∈ w.steps, id ∈ step.members → step.estimate = id) →
    motive (id :: loose) w → motive loose w)
  (discarded : ∀ {w : Window P T Q K S} {id : CandidateId} {loose more : List CandidateId}
    {index : Nat}, Linked next w → w.At index id → id ∉ w.named next (index + 1) →
    (∀ p, w.pointer? id = some p → p ∈ more ∨ p ∈ (w.discard id index).named next index) →
    motive (id :: loose) w → motive (more ++ loose) (w.discard id index))

include spared discarded in
/-- What holds of a memory with a loose candidate, and is kept when that is spared or discarded and
its predecessor becomes loose, holds after the candidate is pruned. -/
lemma prune_induction (h : Linked next w) (hat : w.At index id)
    (hfree : id ∉ w.named next (index + 1)) {loose : List CandidateId}
    (hm : motive (id :: loose) w) :
    Linked next (w.prune id index) ∧ motive loose (w.prune id index) := by
  induction index using Nat.strong_induction_on generalizing w id loose with
  | _ index ih =>
    obtain ⟨step, hstep, hid⟩ := hat
    have hat : w.At index id := ⟨step, hstep, hid⟩
    by_cases hne : step.estimate = id
    · rw [prune_of_eq hstep hne]
      refine ⟨h, spared h (fun other hmem hid' => ?_) hm⟩
      obtain ⟨i, hi⟩ := List.getElem?_of_mem hmem
      have hi' := h.apart ⟨other, hi, hid'⟩ hat
      rw [hi', hstep, Option.some.injEq] at hi
      rw [← hi, hne]
    · have hlinked := h.discard hstep hid hne hfree
      rcases prune_cases hstep hne with ⟨p, before, e, hp, rfl, he, hzero, heq⟩ | ⟨hkept, heq⟩
      · -- the predecessor has no references left, and is pruned in turn
        obtain ⟨j, hj, -, hbefore⟩ := h.exists_before hat hp
        have hbefore : w.At before p := by
          have : before = j := by omega
          exact this ▸ hbefore
        have hat' : (w.discard id (before + 1)).At before p :=
          at_discard.2 ⟨hbefore, fun hboth => by omega⟩
        have hfree' : p ∉ (w.discard id (before + 1)).named next (before + 1) := by
          rw [← List.count_eq_zero, ← hlinked.references before p e hat' he, hzero]
        have hmore : ∀ q, w.pointer? id = some q →
            q ∈ [p] ∨ q ∈ (w.discard id (before + 1)).named next (before + 1) :=
          fun q hq => .inl (by simpa [hp, eq_comm] using hq)
        have hm' := discarded h hat hfree hmore hm
        rw [heq]
        exact ih before (by omega) hlinked hat' hfree' hm'
      · have hmore : ∀ p, w.pointer? id = some p →
            p ∈ ([] : List CandidateId) ∨ p ∈ (w.discard id index).named next index := by
          intro p hp
          obtain ⟨j, hj, -, hbefore⟩ := h.exists_before hat hp
          have hat' : (w.discard id index).At j p :=
            at_discard.2 ⟨hbefore, fun hboth => by omega⟩
          obtain ⟨e, he⟩ := hlinked.exists_find? hat'
          have hpos := hkept p j e hp hj he
          rw [hlinked.references j p e hat' he, ← hj] at hpos
          exact .inr (List.count_pos_iff.1 (Nat.pos_of_ne_zero hpos))
        rw [heq]
        exact ⟨hlinked, discarded h hat hfree hmore hm⟩

include spared discarded in
/-- What is kept when a loose candidate is spared or discarded holds after candidates of the last
step are pruned that nothing names. -/
lemma foldl_prune_induction (h : Linked next w) {ids : List CandidateId} {v : Window P T Q K S}
    (hv : Linked next v) (ht : Trimmed w v)
    (hids : ∀ id ∈ ids, id ∉ next ∧ ∃ i, i + 1 = w.steps.length ∧ w.At i id) (hm : motive ids v) :
    Linked next (ids.foldl (fun v id => v.prune id (v.steps.length - 1)) v) ∧
      Trimmed w (ids.foldl (fun v id => v.prune id (v.steps.length - 1)) v) ∧
      motive [] (ids.foldl (fun v id => v.prune id (v.steps.length - 1)) v) := by
  induction ids generalizing v with
  | nil => exact ⟨hv, ht, hm⟩
  | cons id ids ih =>
    rw [List.foldl_cons]
    obtain ⟨hnot, i, hi, hat⟩ := hids id List.mem_cons_self
    have hrest : ∀ id ∈ ids, id ∉ next ∧ ∃ i, i + 1 = w.steps.length ∧ w.At i id :=
      fun id hid => hids id (List.mem_cons_of_mem _ hid)
    by_cases hheld : id ∈ v.held.keys
    · obtain ⟨j, hj⟩ := (hv.held id).1 hheld
      have hlen := ht.length_eq
      have hij : j = v.steps.length - 1 := by
        have := h.apart (ht.members j id hj) hat
        omega
      have hfree : id ∉ v.named next (v.steps.length - 1 + 1) := by
        rw [show v.steps.length - 1 + 1 = v.steps.length by omega, named_length]
        exact hnot
      obtain ⟨hv', ht', hm'⟩ := prune_induction
        (motive := fun loose v => Trimmed w v ∧ motive loose v)
        (fun hv hestimate hm => ⟨hm.1, spared hv hestimate hm.2⟩)
        (fun hv hat hfree hmore hm =>
          ⟨hm.1.trans (hv.trimmed_discard hat), discarded hv hat hfree hmore hm.2⟩)
        hv (hij ▸ hj) hfree ⟨ht, hm⟩
      exact ih hv' ht' hrest hm'
    · -- the candidate has been pruned before
      have hgone : ∀ step ∈ v.steps, id ∉ step.members := fun step hmem hid =>
        hheld ((hv.held id).2 (mem_flatMap_members.1 (List.mem_flatMap.2 ⟨step, hmem, hid⟩)))
      rw [prune_of_not_mem hheld hgone]
      exact ih hv ht hrest (spared hv (fun step hmem hid => absurd hid (hgone step hmem)) hm)

include spared discarded in
/-- What is kept when a loose candidate is spared or discarded holds after the candidates of the
last step are pruned that nothing names. -/
lemma pruneLast_induction (h : Linked next w)
    (hm : ∀ loose : List CandidateId,
      (∀ i id, i + 1 = w.steps.length → w.At i id → id ∈ next ∨ id ∈ loose) → motive loose w) :
    Linked next w.pruneLast ∧ Trimmed w w.pruneLast ∧ motive [] w.pruneLast := by
  rw [pruneLast]
  cases hlast : w.steps.getLast? with
  | none =>
    refine ⟨h, Trimmed.refl w, hm [] fun i id hi hat => ?_⟩
    rw [List.getLast?_eq_none_iff] at hlast
    have hlt := hat.lt_length
    rw [hlast] at hlt
    cases hlt
  | some last =>
    have hindex : w.steps[w.steps.length - 1]? = some last := by
      rw [← List.getLast?_eq_getElem?, hlast]
    refine foldl_prune_induction spared discarded h h (Trimmed.refl w) (fun id hid => ?_)
      (hm _ fun i id hi hat => ?_)
    · obtain ⟨hid, hzero⟩ := List.mem_filter.1 hid
      obtain ⟨i, hi, hat⟩ := exists_at_last hlast hid
      obtain ⟨e, he⟩ := h.exists_find? hat
      have hcount := h.references i id e hat he
      rw [hi, named_length] at hcount
      rw [he, Option.any_some, beq_iff_eq, hcount, List.count_eq_zero] at hzero
      exact ⟨hzero, i, hi, hat⟩
    · obtain ⟨e, he⟩ := h.exists_find? hat
      have hcount := h.references i id e hat he
      rw [hi, named_length] at hcount
      by_cases hnext : id ∈ next
      · exact .inl hnext
      · obtain ⟨step, hstep, hid⟩ := hat
        rw [show i = w.steps.length - 1 by omega, hindex, Option.some.injEq] at hstep
        subst hstep
        refine .inr (List.mem_filter.2 ⟨hid, ?_⟩)
        rw [he, Option.any_some, beq_iff_eq, hcount, List.count_eq_zero]
        exact hnext

end Induction

end Window

end RoadMatching
