import RoadMatching.Proofs.Memory.Updates

/-!
The links of a memory.

A candidate held belongs to one step, and names a predecessor of the step before or none. The number
of references of a candidate is how often the step after it names it. Between the count of
references and the vector that is appended, the last step is named by a vector to come.

* `Linked`: the invariant, given what the vector to come names.
* `Linked.countReferences`, `Linked.append`: a vector is counted, and then appended.
-/

namespace RoadMatching

variable {P T Q K S : Type}

/-- The predecessors that the candidates of a vector name. -/
def Candidate.predecessors (vector : List (Candidate P T K S)) : List CandidateId :=
  vector.filterMap Candidate.predecessor

namespace Window

/-! ### Members and pointers -/

/-- A candidate is a member of the step at an index. -/
def At (w : Window P T Q K S) (i : Nat) (id : CandidateId) : Prop :=
  ∃ step, w.steps[i]? = some step ∧ id ∈ step.members

/-- The predecessor of a candidate held. -/
def pointer? (w : Window P T Q K S) (id : CandidateId) : Option CandidateId :=
  (w.held.find? id).bind fun e => e.candidate.predecessor

/-- The predecessors of the candidates of a step. -/
def pointers (w : Window P T Q K S) (step : Step Q) : List CandidateId :=
  step.members.filterMap w.pointer?

/-- What the step at an index names, where after the last step a vector to come names `next`. -/
def named (w : Window P T Q K S) (next : List CandidateId) (i : Nat) : List CandidateId :=
  (w.steps[i]?.map w.pointers).getD next

variable {w : Window P T Q K S} {next : List CandidateId}

lemma sample?_eq (w : Window P T Q K S) : w.sample? = w.samples.getLast? := by
  rw [sample?, samples, List.getLast?_map]

lemma At.lt_length {i : Nat} {id : CandidateId} (h : w.At i id) : i < w.steps.length := by
  obtain ⟨step, hstep, -⟩ := h
  exact (List.getElem?_eq_some_iff.1 hstep).1

lemma named_of_getElem? {i : Nat} {step : Step Q} (h : w.steps[i]? = some step) :
    w.named next i = w.pointers step := by
  rw [named, h]
  rfl

lemma named_length : w.named next w.steps.length = next := by
  rw [named, List.getElem?_eq_none le_rfl]
  rfl

/-- What a step before the last names does not depend on the vector to come. -/
lemma named_of_lt {i : Nat} (h : i < w.steps.length) (other : List CandidateId) :
    w.named next i = w.named other i := by
  have hstep := List.getElem?_eq_getElem h
  rw [named_of_getElem? hstep, named_of_getElem? hstep]

/-! ### The invariant -/

/-- The links of a memory are whole, when a vector to come names `next`. -/
structure Linked (next : List CandidateId) (w : Window P T Q K S) : Prop where
  distinct : (w.steps.flatMap Step.members).Nodup
  keys : w.held.keys.Nodup
  held : ∀ id, id ∈ w.held.keys ↔ ∃ i, w.At i id
  estimates : ∀ step ∈ w.steps, step.estimate ∈ step.members
  origin : w.named next 0 = []
  before : ∀ i, i < w.steps.length → ∀ p ∈ w.named next (i + 1), w.At i p
  references : ∀ i id e, w.At i id → w.held.find? id = some e →
    e.references = (w.named next (i + 1)).count id

/-- The candidates of the steps, step by step. -/
lemma mem_flatMap_members {id : CandidateId} :
    id ∈ w.steps.flatMap Step.members ↔ ∃ i, w.At i id := by
  rw [List.mem_flatMap]
  constructor
  · rintro ⟨step, hstep, hid⟩
    obtain ⟨i, hi⟩ := List.getElem?_of_mem hstep
    exact ⟨i, step, hi, hid⟩
  · rintro ⟨i, step, hi, hid⟩
    exact ⟨step, List.mem_of_getElem? hi, hid⟩

/-- A memory without steps is linked. -/
lemma linked_bounded (k t : Option Nat) : Linked [] (bounded k t : Window P T Q K S) where
  distinct := List.nodup_nil
  keys := List.nodup_nil
  held id := by
    constructor
    · intro h
      cases h
    · rintro ⟨i, step, hi, -⟩
      cases hi
  estimates step h := by cases h
  origin := rfl
  before i h := by cases h
  references i id e h := by
    obtain ⟨step, hi, -⟩ := h
    cases hi

namespace Linked

/-- A candidate belongs to one step. -/
lemma apart (h : Linked next w) {i j : Nat} {id : CandidateId} (hi : w.At i id) (hj : w.At j id) :
    i = j := by
  have hpair := (List.nodup_flatMap.1 h.distinct).2
  have key : ∀ {i j : Nat}, w.At i id → w.At j id → ¬ i < j := by
    rintro i j ⟨step, hi, hid⟩ ⟨step', hj, hid'⟩ hlt
    obtain ⟨hi', rfl⟩ := List.getElem?_eq_some_iff.1 hi
    obtain ⟨hj', rfl⟩ := List.getElem?_eq_some_iff.1 hj
    exact List.pairwise_iff_getElem.1 hpair i j hi' hj' hlt hid hid'
  have h₁ := key hi hj
  have h₂ := key hj hi
  omega

/-- The members of a step are distinct. -/
lemma nodup_members (h : Linked next w) {i : Nat} {step : Step Q} (hi : w.steps[i]? = some step) :
    step.members.Nodup :=
  (List.nodup_flatMap.1 h.distinct).1 step (List.mem_of_getElem? hi)

/-- A member of a step is held. -/
lemma exists_find? (h : Linked next w) {i : Nat} {id : CandidateId} (hi : w.At i id) :
    ∃ e, w.held.find? id = some e :=
  Option.isSome_iff_exists.1 ((Table.find?_isSome_iff _ _).2 ((h.held id).2 ⟨i, hi⟩))

/-- The step of a pointer is not the first, and its target is in the step before. -/
lemma exists_before (h : Linked next w) {i : Nat} {id p : CandidateId} (hi : w.At i id)
    (hp : w.pointer? id = some p) : ∃ j, i = j + 1 ∧ p ∈ w.named next i ∧ w.At j p := by
  have hlt := hi.lt_length
  obtain ⟨step, hstep, hid⟩ := hi
  have hmem : p ∈ w.named next i := by
    rw [named_of_getElem? hstep]
    exact List.mem_filterMap.2 ⟨id, hid, hp⟩
  cases i with
  | zero =>
    rw [h.origin] at hmem
    cases hmem
  | succ j => exact ⟨j, rfl, hmem, h.before j (by omega) p hmem⟩

end Linked

/-! ### Counting the references of a vector -/

/-- A vector that is not refused names candidates of the last step. -/
lemma mem_latest_of_fault?_eq_none [Timed Q] {vector : List (Candidate P T K S)} {sample : Q}
    (h : w.fault? vector sample = none) : ∀ p ∈ Candidate.predecessors vector, p ∈ w.latest := by
  intro p hp
  obtain ⟨c, hc, hcp⟩ := List.mem_filterMap.1 hp
  exact ((fault?_eq_none_iff.1 h).2 c hc p hcp).1

/-- The count of a vector changes no key. -/
lemma keys_countReferences (w : Window P T Q K S) (vector : List (Candidate P T K S)) :
    (w.countReferences vector).held.keys = w.held.keys := by
  obtain ⟨_, _, _, held, _, _⟩ := w
  simp only [countReferences]
  induction vector generalizing held with
  | nil => rfl
  | cons c rest ih =>
    rw [List.foldl_cons, ih]
    cases c.predecessor with
    | none => rfl
    | some p => exact Table.keys_modify _ _ _

/-- One more reference is counted for the candidate that is named. -/
lemma find?_modify_references (held : Table CandidateId (Held P T K S)) (p id : CandidateId)
    (hsmall : p = id → ∀ e, held.find? id = some e → e.references + 1 < 18446744073709551616) :
    (held.modify p fun e => { e with references := unsigned64 (e.references + 1) }).find? id =
      (held.find? id).map fun e =>
        { e with references := e.references + if p = id then 1 else 0 } := by
  rw [Table.find?_modify]
  by_cases hid : p = id
  · rw [if_pos hid.symm]
    cases he : held.find? id with
    | none => rfl
    | some e =>
      rw [Option.map_some, Option.map_some, unsigned64_of_lt (hsmall hid e he), if_pos hid]
  · rw [if_neg (Ne.symm hid)]
    cases held.find? id with
    | none => rfl
    | some e => rw [Option.map_some, if_neg hid, Nat.add_zero]

/-- The references of a candidate grow by those of the vector. -/
lemma find?_countReferences (w : Window P T Q K S) (vector : List (Candidate P T K S))
    (id : CandidateId)
    (hsmall : id ∈ Candidate.predecessors vector → ∀ e, w.held.find? id = some e →
      e.references + (Candidate.predecessors vector).count id < 18446744073709551616) :
    (w.countReferences vector).held.find? id = (w.held.find? id).map fun e =>
      { e with references := e.references + (Candidate.predecessors vector).count id } := by
  obtain ⟨_, _, _, held, _, _⟩ := w
  simp only [countReferences] at hsmall ⊢
  induction vector generalizing held with
  | nil =>
    rw [List.foldl_nil]
    cases held.find? id <;> rfl
  | cons c rest ih =>
    rw [List.foldl_cons]
    cases hp : c.predecessor with
    | none =>
      have hsame : Candidate.predecessors (c :: rest) = Candidate.predecessors rest :=
        List.filterMap_cons_none hp
      rw [hsame] at hsmall ⊢
      exact ih held hsmall
    | some p =>
      have hcons : Candidate.predecessors (c :: rest) = p :: Candidate.predecessors rest :=
        List.filterMap_cons_some hp
      have hcount : (p :: Candidate.predecessors rest).count id =
          (Candidate.predecessors rest).count id + if p = id then 1 else 0 := by
        rw [List.count_cons]
        simp only [beq_iff_eq]
      rw [hcons, hcount] at hsmall
      have hfind := find?_modify_references held p id fun hid e he => by
        have hlt := hsmall (hid ▸ List.mem_cons_self) e he
        rw [if_pos hid] at hlt
        omega
      rw [hcons, hcount, ih, hfind, Option.map_map]
      · refine Option.map_congr fun e _ => ?_
        simp only [Function.comp_apply, Held.mk.injEq, true_and]
        omega
      · intro hmem e he
        rw [hfind, Option.map_eq_some_iff] at he
        obtain ⟨e, he, rfl⟩ := he
        have hlt := hsmall (List.mem_cons_of_mem p hmem) e he
        simp only
        omega

/-- The members of the last step, by its index. -/
lemma exists_at_last {step : Step Q} {id : CandidateId} (hlast : w.steps.getLast? = some step)
    (hid : id ∈ step.members) : ∃ i, i + 1 = w.steps.length ∧ w.At i id := by
  rw [List.getLast?_eq_getElem?] at hlast
  have hlt := (List.getElem?_eq_some_iff.1 hlast).1
  exact ⟨w.steps.length - 1, by omega, step, hlast, hid⟩

namespace Linked

/-- Nothing names the candidates of the last step before the vector to come is counted. -/
lemma references_last (h : Linked [] w) {i : Nat} {id : CandidateId} {e : Held P T K S}
    (hi : i + 1 = w.steps.length) (hid : w.At i id) (he : w.held.find? id = some e) :
    e.references = 0 := by
  rw [h.references i id e hid he, hi, named_length]
  rfl

/-- The references of the candidates that a vector names do not exceed its length. -/
lemma references_add_count_lt (h : Linked [] w) {vector : List (Candidate P T K S)}
    (hp : ∀ p ∈ Candidate.predecessors vector, p ∈ w.latest)
    (hlen : vector.length < 18446744073709551616) {id : CandidateId}
    (hid : id ∈ Candidate.predecessors vector) {e : Held P T K S} (he : w.held.find? id = some e) :
    e.references + (Candidate.predecessors vector).count id < 18446744073709551616 := by
  obtain ⟨-, step, hstep, hmem⟩ := mem_latest (hp id hid)
  obtain ⟨i, hi, hat⟩ := exists_at_last hstep hmem
  have hzero := h.references_last hi hat he
  have hcount : (Candidate.predecessors vector).count id ≤ vector.length :=
    List.count_le_length.trans (List.length_filterMap_le _ _)
  omega

/-- What the steps name is the same after the count. -/
lemma named_countReferences (h : Linked [] w) {vector : List (Candidate P T K S)}
    (hp : ∀ p ∈ Candidate.predecessors vector, p ∈ w.latest)
    (hlen : vector.length < 18446744073709551616) (i : Nat) :
    (w.countReferences vector).named next i = w.named next i := by
  have hpointer : (w.countReferences vector).pointer? = w.pointer? := by
    funext id
    rw [pointer?, pointer?, find?_countReferences w vector id fun hid e he =>
      h.references_add_count_lt hp hlen hid he, Option.bind_map]
    rfl
  have hpointers : (w.countReferences vector).pointers = w.pointers := by
    funext step
    rw [pointers, pointers, hpointer]
  rw [named, named, hpointers]
  rfl

/-- The vector to come is counted, when it names candidates of the last step. -/
lemma countReferences (h : Linked [] w) {vector : List (Candidate P T K S)}
    (hp : ∀ p ∈ Candidate.predecessors vector, p ∈ w.latest)
    (hlen : vector.length < 18446744073709551616) :
    Linked (Candidate.predecessors vector) (w.countReferences vector) := by
  have hlast : ∀ p ∈ Candidate.predecessors vector, ∃ i, i + 1 = w.steps.length ∧ w.At i p := by
    intro p hmem
    obtain ⟨-, step, hstep, hid⟩ := mem_latest (hp p hmem)
    exact exists_at_last hstep hid
  have hnamed : ∀ i, (w.countReferences vector).named (Candidate.predecessors vector) i =
      w.named (Candidate.predecessors vector) i := h.named_countReferences hp hlen
  refine ⟨h.distinct, ?_, fun id => ?_, h.estimates, ?_, fun i hi p hmem => ?_,
    fun i id e hat he => ?_⟩
  · rw [keys_countReferences]
    exact h.keys
  · rw [keys_countReferences]
    exact h.held id
  · rw [hnamed]
    by_cases hpos : 0 < w.steps.length
    · rw [named_of_lt hpos []]
      exact h.origin
    · have hzero : w.steps.length = 0 := by omega
      rw [← hzero, named_length, List.eq_nil_iff_forall_not_mem]
      intro p hmem
      obtain ⟨i, hi, -⟩ := hlast p hmem
      omega
  · rw [hnamed] at hmem
    have hi : i < w.steps.length := hi
    by_cases hlt : i + 1 < w.steps.length
    · rw [named_of_lt hlt []] at hmem
      exact h.before i hi p hmem
    · have heq : i + 1 = w.steps.length := by omega
      rw [heq, named_length] at hmem
      obtain ⟨j, hj, hat⟩ := hlast p hmem
      have hij : i = j := by omega
      exact hij ▸ hat
  · rw [hnamed]
    rw [find?_countReferences w vector id fun hid e he => h.references_add_count_lt hp hlen hid he,
      Option.map_eq_some_iff] at he
    obtain ⟨e, he, rfl⟩ := he
    have hat : w.At i id := hat
    have hi := hat.lt_length
    by_cases hlt : i + 1 < w.steps.length
    · -- the vector names candidates of the last step only
      have hnot : id ∉ Candidate.predecessors vector := by
        intro hmem
        obtain ⟨j, hj, hat'⟩ := hlast id hmem
        have hij := h.apart hat hat'
        omega
      rw [named_of_lt hlt [], ← h.references i id e hat he]
      simp only [List.count_eq_zero_of_not_mem hnot, Nat.add_zero]
    · have heq : i + 1 = w.steps.length := by omega
      rw [heq, named_length]
      simp only [h.references_last heq hat he, Nat.zero_add]

end Linked

/-! ### Appending a vector -/

section Append

variable {vector : List (Candidate P T K S)} {sample : Q} {best : CandidateId}

/-- What is held besides the vector stays. -/
lemma find?_append_of_not_mem {id : CandidateId} (hid : id ∉ vector.map Candidate.id) :
    (w.append vector sample best).held.find? id = w.held.find? id := by
  obtain ⟨_, _, _, held, _, _⟩ := w
  simp only [append]
  induction vector generalizing held with
  | nil => rfl
  | cons c rest ih =>
    rw [List.map_cons, List.mem_cons, not_or] at hid
    rw [List.foldl_cons, ih hid.2, Table.find?_insert, if_neg hid.1]

/-- The candidates of the vector are held, without references. -/
lemma find?_append_of_mem (hnodup : (vector.map Candidate.id).Nodup) {c : Candidate P T K S}
    (hc : c ∈ vector) : (w.append vector sample best).held.find? c.id = some ⟨c, 0⟩ := by
  obtain ⟨maxSteps, maxAge, steps, held, breaks, broken⟩ := w
  induction vector generalizing held with
  | nil => cases hc
  | cons d rest ih =>
    rw [List.map_cons, List.nodup_cons] at hnodup
    rcases List.mem_cons.1 hc with rfl | hc
    · have hold : ((⟨maxSteps, maxAge, steps, held.insert c.id ⟨c, 0⟩, breaks, broken⟩ :
          Window P T Q K S).append rest sample best).held.find? c.id = _ :=
        find?_append_of_not_mem hnodup.1
      exact hold.trans (by rw [Table.find?_insert, if_pos rfl])
    · exact ih hnodup.2 hc (held.insert d.id ⟨d, 0⟩)

/-- New candidates are held after those there were. -/
lemma keys_append (hnodup : (vector.map Candidate.id).Nodup)
    (hfresh : ∀ id ∈ vector.map Candidate.id, id ∉ w.held.keys) :
    (w.append vector sample best).held.keys = w.held.keys ++ vector.map Candidate.id := by
  obtain ⟨_, _, _, held, _, _⟩ := w
  simp only [append] at hfresh ⊢
  induction vector generalizing held with
  | nil => exact (List.append_nil _).symm
  | cons c rest ih =>
    rw [List.map_cons, List.nodup_cons] at hnodup
    have hc : c.id ∉ held.keys := hfresh c.id (by simp)
    have hkeys := Table.keys_insert hc (⟨c, 0⟩ : Held P T K S)
    rw [List.foldl_cons, ih hnodup.2, hkeys, List.map_cons, List.append_assoc,
      List.singleton_append]
    intro id hid
    rw [hkeys, List.mem_append, List.mem_singleton, not_or]
    refine ⟨hfresh id (List.mem_cons_of_mem _ hid), ?_⟩
    rintro rfl
    exact hnodup.1 hid

lemma at_append {i : Nat} {id : CandidateId} :
    (w.append vector sample best).At i id ↔
      w.At i id ∨ i = w.steps.length ∧ id ∈ vector.map Candidate.id := by
  simp only [At, append, List.getElem?_append]
  by_cases hlt : i < w.steps.length
  · have hne : ¬ i = w.steps.length := by omega
    simp [hlt, hne]
  · rw [if_neg hlt, List.getElem?_eq_none (Nat.le_of_not_lt hlt), List.getElem?_singleton]
    by_cases heq : i = w.steps.length
    · simp [heq]
    · have hne : ¬ i - w.steps.length = 0 := by omega
      simp [heq, hne]

end Append

namespace Linked

variable {vector : List (Candidate P T K S)} {sample : Q} {best : CandidateId}

/-- The last step names what the vector named when it was to come. -/
lemma named_append (h : Linked next w) (hnodup : (vector.map Candidate.id).Nodup)
    (hfresh : ∀ id ∈ vector.map Candidate.id, id ∉ w.held.keys) {i : Nat}
    (hi : i ≤ w.steps.length) :
    (w.append vector sample best).named [] i = w.named (Candidate.predecessors vector) i := by
  rcases Nat.lt_or_eq_of_le hi with hlt | rfl
  · have hstep := List.getElem?_eq_getElem hlt
    have hstep' : (w.append vector sample best).steps[i]? = some w.steps[i] := by
      rw [append, List.getElem?_append_left hlt, hstep]
    rw [named_of_getElem? hstep, named_of_getElem? hstep', pointers, pointers]
    refine List.filterMap_congr fun id hid => ?_
    have hold : id ∉ vector.map Candidate.id := fun hmem =>
      hfresh id hmem ((h.held id).2 ⟨i, w.steps[i], hstep, hid⟩)
    rw [pointer?, pointer?, find?_append_of_not_mem hold]
  · have hstep : (w.append vector sample best).steps[w.steps.length]? =
        some ⟨vector.map Candidate.id, sample, best⟩ := by
      rw [append, List.getElem?_concat_length]
    rw [named_length, named_of_getElem? hstep, pointers, List.filterMap_map]
    refine List.filterMap_congr fun c hc => ?_
    rw [Function.comp_apply, pointer?, find?_append_of_mem hnodup hc]
    rfl

/-- The vector to come is appended, when its candidates are new. -/
lemma append (h : Linked (Candidate.predecessors vector) w)
    (hnodup : (vector.map Candidate.id).Nodup)
    (hfresh : ∀ id ∈ vector.map Candidate.id, id ∉ w.held.keys)
    (hbest : best ∈ vector.map Candidate.id) : Linked [] (w.append vector sample best) := by
  have hold : ∀ {i id}, w.At i id → id ∉ vector.map Candidate.id := fun hat hmem =>
    hfresh _ hmem ((h.held _).2 ⟨_, hat⟩)
  have hlength : (w.append vector sample best).steps.length = w.steps.length + 1 := by
    rw [Window.append, List.length_append, List.length_singleton]
  refine ⟨?_, ?_, fun id => ?_, fun step hstep => ?_, ?_, fun i hi p hp => ?_,
    fun i id e hat he => ?_⟩
  · rw [Window.append, List.flatMap_append, List.flatMap_singleton, List.nodup_append]
    refine ⟨h.distinct, hnodup, fun id hid id' hid' heq => ?_⟩
    obtain ⟨i, hat⟩ := mem_flatMap_members.1 hid
    exact hold hat (heq ▸ hid')
  · rw [keys_append hnodup hfresh, List.nodup_append]
    exact ⟨h.keys, hnodup, fun id hid id' hid' heq => hfresh id (heq ▸ hid') hid⟩
  · rw [keys_append hnodup hfresh, List.mem_append, h.held id]
    simp only [at_append, exists_or, exists_eq_left]
  · rw [Window.append, List.mem_append, List.mem_singleton] at hstep
    rcases hstep with hstep | rfl
    · exact h.estimates step hstep
    · exact hbest
  · rw [h.named_append hnodup hfresh (Nat.zero_le _)]
    exact h.origin
  · by_cases hlt : i < w.steps.length
    · rw [h.named_append hnodup hfresh hlt] at hp
      exact at_append.2 (.inl (h.before i hlt p hp))
    · have heq : i + 1 = (w.append vector sample best).steps.length := by omega
      rw [heq, named_length] at hp
      cases hp
  · rcases at_append.1 hat with hat | ⟨rfl, hmem⟩
    · rw [find?_append_of_not_mem (hold hat)] at he
      rw [h.named_append hnodup hfresh hat.lt_length]
      exact h.references i id e hat he
    · obtain ⟨c, hc, rfl⟩ := List.mem_map.1 hmem
      rw [find?_append_of_mem hnodup hc, Option.some.injEq] at he
      rw [← hlength, named_length, ← he]
      rfl

end Linked

end Window

end RoadMatching
