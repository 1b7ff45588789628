import RoadMatching.Proofs.Memory.Complete
import RoadMatching.Proofs.Memory.Resuming

/-!
References of a snapshot.

A snapshot refers to candidates by their names: steps to their members and to their estimates, links
to predecessors. That the snapshot has these candidates is all that is asked when it is read.

* `StepRecord.IsWithin`: a step refers to candidates of a list only. `restoreLink_eq`,
  `foldlM_restoreLink_eq`, `restoreStep_eq`: a link, links and a step are restored if they are
  within what is held, and refused if they are not.
* `relink`: what a link does. `pointerIn_foldl_relink`: the last link of a candidate counts.
* `Record.Reads`: all parts of a snapshot can be read. `ofSnapshot_of_reads`: what is restored then;
  `exists_reads_of_ofSnapshot`: nothing is restored otherwise.
* `Restores`: the steps and candidates of a snapshot. `restores_ofParts`, `isComplete_ofParts`: what
  is restored has them, and holds all that it refers to.
* `ofSnapshot_references`: **references are checked**. What is restored is complete, and a snapshot
  whose parts can be read is refused if it refers to a candidate that it does not have.
* `ofSnapshot_unlinked`: a reference may still lead to a candidate of another step, or of none.
-/

namespace RoadMatching

variable {P T Q K S : Type}

namespace Window

/-! ### Links -/

/-- The predecessor of a link, if it has one. -/
def LinkRecord.target? (link : LinkRecord) : Option CandidateId :=
  if link.predecessor.isEmpty then none else some link.predecessor

/-- A link between candidates of a list, or from such a one to nowhere. -/
def LinkRecord.IsWithin (ids : List CandidateId) (link : LinkRecord) : Prop :=
  link.candidate ∈ ids ∧ ∀ p ∈ link.target?, p ∈ ids

instance (ids : List CandidateId) (link : LinkRecord) : Decidable (link.IsWithin ids) :=
  inferInstanceAs (Decidable (_ ∧ ∀ p ∈ link.target?, p ∈ ids))

/-- The predecessor of a candidate in a table. -/
def pointerIn (held : Table CandidateId (Held P T K S)) (id : CandidateId) : Option CandidateId :=
  (held.find? id).bind fun e => e.candidate.predecessor

/-- The table in which the candidate of a link has its predecessor. -/
def relink (held : Table CandidateId (Held P T K S)) (link : LinkRecord) :
    Table CandidateId (Held P T K S) :=
  held.modify link.candidate fun e =>
    { e with candidate := { e.candidate with predecessor := link.target? } }

section Links

variable (held : Table CandidateId (Held P T K S))

@[simp] lemma keys_relink (link : LinkRecord) : (relink held link).keys = held.keys :=
  Table.keys_modify _ _ _

@[simp] lemma keys_foldl_relink (links : List LinkRecord) :
    (links.foldl relink held).keys = held.keys := by
  induction links generalizing held with
  | nil => rfl
  | cons link links ih => rw [List.foldl_cons, ih, keys_relink]

/-- Candidates keep their names. -/
lemma names_relink (h : ∀ id e, held.find? id = some e → e.candidate.id = id) (link : LinkRecord) :
    ∀ id e, (relink held link).find? id = some e → e.candidate.id = id := by
  intro id e he
  rw [relink, Table.find?_modify] at he
  split at he
  · obtain ⟨e', he', rfl⟩ := Option.map_eq_some_iff.1 he
    exact h id e' he'
  · exact h id e he

lemma names_foldl_relink (h : ∀ id e, held.find? id = some e → e.candidate.id = id)
    (links : List LinkRecord) :
    ∀ id e, (links.foldl relink held).find? id = some e → e.candidate.id = id := by
  induction links generalizing held with
  | nil => exact h
  | cons link links ih => exact ih _ (names_relink held h link)

/-- A link of a candidate held gives it the predecessor, and no other one. -/
lemma pointerIn_relink {link : LinkRecord} (h : link.candidate ∈ held.keys) (id : CandidateId) :
    pointerIn (relink held link) id =
      if link.candidate = id then link.target? else pointerIn held id := by
  rw [pointerIn, relink, Table.find?_modify]
  by_cases hid : id = link.candidate
  · obtain ⟨e, he⟩ := Option.isSome_iff_exists.1 ((Table.find?_isSome_iff held _).2 h)
    rw [if_pos hid, if_pos hid.symm, hid, he]
    rfl
  · rw [if_neg hid, if_neg (Ne.symm hid), pointerIn]

/-- Of the links of a candidate the last one counts. -/
lemma pointerIn_foldl_relink {links : List LinkRecord}
    (h : ∀ link ∈ links, link.candidate ∈ held.keys) (id : CandidateId) :
    pointerIn (links.foldl relink held) id =
      ((links.filter (·.candidate = id)).getLast?.map LinkRecord.target?).getD
        (pointerIn held id) := by
  induction links using List.reverseRecOn with
  | nil => rfl
  | append_singleton links link ih =>
    have hlast : link.candidate ∈ (links.foldl relink held).keys := by
      rw [keys_foldl_relink]
      exact h link (by simp)
    rw [List.foldl_append, List.foldl_cons, List.foldl_nil, pointerIn_relink _ hlast,
      ih fun l hl => h l (List.mem_append_left _ hl), List.filter_append]
    by_cases hid : link.candidate = id <;> simp [hid]

end Links

/-! ### Steps -/

/-- A step that refers to candidates of a list. -/
def StepRecord.IsWithin (ids : List CandidateId) (step : StepRecord K) : Prop :=
  (∀ link ∈ step.links, link.IsWithin ids) ∧ step.estimate ∈ ids

instance (ids : List CandidateId) (step : StepRecord K) : Decidable (step.IsWithin ids) :=
  inferInstanceAs (Decidable (_ ∧ _))

/-- A step is what its record says. -/
structure StepRecord.Describes (codec : Codec P T Q K) (record : StepRecord K) (step : Step Q) :
    Prop where
  members : step.members = record.links.map LinkRecord.candidate
  sample : codec.readSample record.sample = .ok step.sample
  estimate : step.estimate = record.estimate

section Steps

variable (codec : Codec P T Q K) (held : Table CandidateId (Held P T K K))

lemma contains_eq (id : CandidateId) : held.contains id = decide (id ∈ held.keys) := by
  rw [Bool.eq_iff_iff, decide_eq_true_iff]
  exact Table.find?_isSome_iff held id

/-- A link is restored if it is within what is held, and refused if it is not. -/
lemma restoreLink_eq (link : LinkRecord) :
    restoreLink held link =
      if link.IsWithin held.keys then .ok (relink held link) else .error inconsistent := by
  show (if link.target?.any fun id => !held.contains id then Except.error inconsistent
    else if !held.contains link.candidate then .error inconsistent
    else .ok (relink held link)) = _
  have hany : (link.target?.any fun id => !held.contains id) = true ↔
      ¬ ∀ p ∈ link.target?, p ∈ held.keys := by
    cases link.target? <;> simp [contains_eq]
  by_cases hp : ∀ p ∈ link.target?, p ∈ held.keys
  · by_cases hc : link.candidate ∈ held.keys
    · rw [if_neg (hany.not_left.2 hp), if_neg (by simp [contains_eq, hc]), if_pos ⟨hc, hp⟩]
    · rw [if_neg (hany.not_left.2 hp), if_pos (by simp [contains_eq, hc]), if_neg fun h => hc h.1]
  · rw [if_pos (hany.2 hp), if_neg fun h => hp h.2]

/-- So are the links of a step. -/
lemma foldlM_restoreLink_eq (links : List LinkRecord) :
    links.foldlM restoreLink held =
      if ∀ link ∈ links, link.IsWithin held.keys then .ok (links.foldl relink held)
      else .error inconsistent := by
  induction links generalizing held with
  | nil => simp; rfl
  | cons link links ih =>
    rw [List.foldlM_cons, restoreLink_eq, List.foldl_cons]
    by_cases hlink : link.IsWithin held.keys
    · simp only [hlink, if_true, bind, Except.bind, ih, keys_relink, List.forall_mem_cons, true_and]
    · simp only [hlink, if_false, bind, Except.bind, List.forall_mem_cons, false_and]

/-- A step is restored if it is within what is held and its sample can be read. References are
looked at before the sample. -/
lemma restoreStep_eq (record : StepRecord K) :
    restoreStep codec held record =
      if record.IsWithin held.keys then
        (codec.readSample record.sample).map fun sample =>
          (⟨record.links.map LinkRecord.candidate, sample, record.estimate⟩,
            record.links.foldl relink held)
      else .error inconsistent := by
  rw [restoreStep, foldlM_restoreLink_eq]
  by_cases hlinks : ∀ link ∈ record.links, link.IsWithin held.keys
  · by_cases hestimate : record.estimate ∈ held.keys
    · rw [if_pos hlinks, if_pos ⟨hlinks, hestimate⟩]
      simp only [bind, Except.bind, contains_eq, keys_foldl_relink, hestimate]
      cases codec.readSample record.sample <;> rfl
    · rw [if_pos hlinks, if_neg fun h => hestimate h.2]
      simp only [bind, Except.bind, contains_eq, keys_foldl_relink, hestimate]
      rfl
  · rw [if_neg hlinks, if_neg fun h => hlinks h.1]
    rfl

variable {codec}

/-- Steps within what is held are restored, one after the other. -/
lemma restoreSteps_of_within {records : List (StepRecord K)} {steps : List (Step Q)}
    (hsteps : List.Forall₂ (StepRecord.Describes codec) records steps)
    (h : ∀ record ∈ records, record.IsWithin held.keys) :
    restoreSteps codec held records =
      .ok (steps, (records.flatMap StepRecord.links).foldl relink held) := by
  induction hsteps generalizing held with
  | nil => rfl
  | @cons record step records steps hstep _ ih =>
    rw [List.forall_mem_cons] at h
    have hrest := ih (record.links.foldl relink held) fun r hr =>
      (keys_foldl_relink held record.links).symm ▸ h.2 r hr
    obtain ⟨members, sample, estimate⟩ := step
    obtain ⟨rfl, hsample, rfl⟩ := hstep
    rw [restoreSteps, restoreStep_eq, if_pos h.1, hsample]
    simp only [Except.map, bind, Except.bind, hrest, List.flatMap_cons, List.foldl_append]
    rfl

/-- Steps that refer to another candidate are refused, if their samples can be read. -/
lemma restoreSteps_of_not_within {records : List (StepRecord K)} {steps : List (Step Q)}
    (hsteps : List.Forall₂ (StepRecord.Describes codec) records steps)
    (h : ¬ ∀ record ∈ records, record.IsWithin held.keys) :
    restoreSteps codec held records = .error inconsistent := by
  induction hsteps generalizing held with
  | nil => exact absurd (fun _ hr => nomatch hr) h
  | @cons record step records steps hstep _ ih =>
    rw [List.forall_mem_cons] at h
    rw [restoreSteps, restoreStep_eq]
    by_cases hfirst : record.IsWithin held.keys
    · have hrest : restoreSteps codec (record.links.foldl relink held) records =
          .error inconsistent := by
        refine ih _ fun hall => h ⟨hfirst, ?_⟩
        rwa [keys_foldl_relink] at hall
      rw [if_pos hfirst, hstep.sample]
      simp only [Except.map, bind, Except.bind, hrest]
    · rw [if_neg hfirst]
      rfl

end Steps

/-! ### Candidates -/

/-- A candidate held is what its record says. -/
structure HeldRecord.Describes [Numeral K] [IntCast K] (codec : Codec P T Q K)
    (record : HeldRecord K) (e : Held P T K K) : Prop where
  candidate : codec.readCandidate record.candidate = .ok e.candidate
  references : e.references = record.references

/-- The parts of a snapshot can be read, to the candidates and the steps given. -/
structure Record.Reads [Numeral K] [IntCast K] (codec : Codec P T Q K) (parts : Record K)
    (held : List (Held P T K K)) (steps : List (Step Q)) : Prop where
  held : List.Forall₂ (HeldRecord.Describes codec) parts.held held
  steps : List.Forall₂ (StepRecord.Describes codec) parts.steps steps

/-- The names of candidates. -/
def idsOf (held : List (Held P T K S)) : List CandidateId := held.map fun e => e.candidate.id

/-- The table of candidates under their names. -/
def tableOf (held : List (Held P T K S)) : Table CandidateId (Held P T K S) :=
  held.foldl (fun t e => t.insert e.candidate.id e) Table.empty

lemma tableOf_concat (held : List (Held P T K S)) (e : Held P T K S) :
    tableOf (held ++ [e]) = (tableOf held).insert e.candidate.id e := by
  rw [tableOf, List.foldl_append]
  rfl

/-- The table has the names of the candidates. -/
lemma mem_keys_tableOf (held : List (Held P T K S)) (id : CandidateId) :
    id ∈ (tableOf held).keys ↔ id ∈ idsOf held := by
  induction held using List.reverseRecOn with
  | nil => exact Iff.rfl
  | append_singleton held e ih =>
    rw [tableOf_concat, ← Table.find?_isSome_iff, Table.find?_insert, idsOf, List.map_append,
      List.mem_append, ← idsOf, ← ih, ← Table.find?_isSome_iff]
    by_cases h : id = e.candidate.id <;> simp [h]

/-- What the table has are the candidates, under their names. -/
lemma find?_tableOf {held : List (Held P T K S)} {id : CandidateId} {e : Held P T K S}
    (h : (tableOf held).find? id = some e) : e ∈ held ∧ e.candidate.id = id := by
  induction held using List.reverseRecOn with
  | nil => cases h
  | append_singleton held last ih =>
    rw [tableOf_concat, Table.find?_insert] at h
    split at h
    · next hid =>
      obtain rfl := Option.some.inj h
      exact ⟨by simp, hid.symm⟩
    · exact ⟨List.mem_append_left _ (ih h).1, (ih h).2⟩

section Candidates

/-- What follows after a value was given. -/
lemma exists_of_bind_eq_ok {ε α β : Type} {x : Except ε α} {f : α → Except ε β} {b : β}
    (h : (x >>= f) = .ok b) : ∃ a, x = .ok a ∧ f a = .ok b := by
  cases x with
  | ok a => exact ⟨a, rfl, h⟩
  | error e => cases h

variable [Numeral K] [IntCast K] {codec : Codec P T Q K}

/-- A candidate is read without a predecessor. -/
lemma predecessor_of_readCandidate {json : Json K} {c : Candidate P T K K}
    (h : codec.readCandidate json = .ok c) : c.predecessor = none := by
  rw [Codec.readCandidate] at h
  obtain ⟨parts, -, h⟩ := exists_of_bind_eq_ok h
  cases hpayload : parts.others.lookup codec.payloadKey with
  | none =>
    rw [hpayload] at h
    cases h
  | some value =>
    rw [hpayload] at h
    obtain ⟨payload, -, h⟩ := exists_of_bind_eq_ok h
    obtain ⟨belief, -, h⟩ := exists_of_bind_eq_ok h
    obtain ⟨score, -, h⟩ := exists_of_bind_eq_ok h
    cases htransition : parts.transition <;>
    · rw [htransition] at h
      obtain ⟨transition, -, h⟩ := exists_of_bind_eq_ok h
      cases h
      rfl

/-- The candidates are read to a table. -/
lemma foldlM_readCandidate_of_describes {records : List (HeldRecord K)} {held : List (Held P T K K)}
    (h : List.Forall₂ (HeldRecord.Describes codec) records held)
    (t : Table CandidateId (Held P T K K)) :
    records.foldlM
      (fun held entry => do
        let candidate ← codec.readCandidate entry.candidate
        return held.insert candidate.id ⟨candidate, entry.references⟩) t =
      .ok (held.foldl (fun t e => t.insert e.candidate.id e) t) := by
  induction h generalizing t with
  | nil => rfl
  | @cons record e records held hfirst _ ih =>
    obtain ⟨candidate, references⟩ := e
    obtain ⟨hcandidate, rfl⟩ := hfirst
    rw [List.foldlM_cons, hcandidate]
    exact ih _

/-- No table is read if a candidate is not. -/
lemma exists_describes_of_foldlM {records : List (HeldRecord K)}
    {t t' : Table CandidateId (Held P T K K)}
    (h : records.foldlM
      (fun held entry => do
        let candidate ← codec.readCandidate entry.candidate
        return held.insert candidate.id ⟨candidate, entry.references⟩) t = .ok t') :
    ∃ held, List.Forall₂ (HeldRecord.Describes codec) records held := by
  induction records generalizing t with
  | nil => exact ⟨[], .nil⟩
  | cons record records ih =>
    rw [List.foldlM_cons] at h
    obtain ⟨next, hnext, h⟩ := exists_of_bind_eq_ok h
    obtain ⟨candidate, hcandidate, -⟩ := exists_of_bind_eq_ok hnext
    obtain ⟨held, hheld⟩ := ih h
    exact ⟨⟨candidate, record.references⟩ :: held, .cons ⟨hcandidate, rfl⟩ hheld⟩

omit [Numeral K] [IntCast K] in
/-- No steps are restored if a sample is not read. -/
lemma exists_describes_of_restoreSteps {records : List (StepRecord K)} {steps : List (Step Q)}
    {held held' : Table CandidateId (Held P T K K)}
    (h : restoreSteps codec held records = .ok (steps, held')) :
    List.Forall₂ (StepRecord.Describes codec) records steps := by
  induction records generalizing steps held held' with
  | nil =>
    cases h
    exact .nil
  | cons record records ih =>
    rw [restoreSteps] at h
    obtain ⟨⟨step, held₁⟩, hstep, h⟩ := exists_of_bind_eq_ok h
    obtain ⟨⟨others, held₂⟩, hothers, h⟩ := exists_of_bind_eq_ok h
    cases h
    refine .cons ?_ (ih hothers)
    rw [restoreStep_eq] at hstep
    split at hstep
    · cases hsample : codec.readSample record.sample with
      | ok sample =>
        rw [hsample] at hstep
        cases hstep
        exact ⟨rfl, hsample, rfl⟩
      | error e =>
        rw [hsample] at hstep
        cases hstep
    · cases hstep

end Candidates

/-! ### Whole snapshots -/

/-- The links of a snapshot, in the order in which they are restored. -/
def Record.links (parts : Record K) : List LinkRecord := parts.steps.flatMap StepRecord.links

/-- A snapshot all of whose steps refer to candidates of a list. -/
def Record.IsWithin (ids : List CandidateId) (parts : Record K) : Prop :=
  ∀ step ∈ parts.steps, step.IsWithin ids

instance (ids : List CandidateId) (parts : Record K) : Decidable (parts.IsWithin ids) :=
  inferInstanceAs (Decidable (∀ step ∈ parts.steps, step.IsWithin ids))

/-- The memory of a snapshot whose parts are read. -/
def ofParts [Timed Q] (parts : Record K) (held : List (Held P T K K)) (steps : List (Step Q)) :
    Window P T Q K K :=
  { (bounded (bound? parts.maxSteps) (bound? parts.maxAge) : Window P T Q K K) with
    steps := steps.mergeSort fun a b => Timed.time a.sample ≤ Timed.time b.sample
    held := parts.links.foldl relink (tableOf held)
    broken := parts.broken }

section Snapshots

variable [Numeral K] [IntCast K] [Timed Q] {codec : Codec P T Q K} {json : Json K}
  {parts : Record K} {held : List (Held P T K K)} {steps : List (Step Q)}

/-- A snapshot whose parts can be read is restored if it refers to its candidates only, and refused
if it does not. -/
lemma ofSnapshot_of_reads (hparts : record? json = some parts) (h : parts.Reads codec held steps) :
    ofSnapshot codec json =
      if parts.IsWithin (idsOf held) then .ok (ofParts parts held steps)
      else .error inconsistent := by
  have hkeys : parts.IsWithin (idsOf held) ↔
      ∀ step ∈ parts.steps, step.IsWithin (tableOf held).keys := by
    simp only [Record.IsWithin, StepRecord.IsWithin, LinkRecord.IsWithin, mem_keys_tableOf]
  have hheld := foldlM_readCandidate_of_describes h.held Table.empty
  split
  · next hwithin =>
    exact ofSnapshot_of_record? hparts hheld
      (restoreSteps_of_within _ h.steps (hkeys.1 hwithin))
  · next hwithin =>
    have hsteps := restoreSteps_of_not_within _ h.steps fun hall => hwithin (hkeys.2 hall)
    rw [ofSnapshot, hparts]
    show (parts.held.foldlM _ _ >>= fun held => restoreSteps codec held parts.steps >>= _) = _
    rw [hheld]
    show (restoreSteps codec (tableOf held) parts.steps >>= _) = _
    rw [hsteps]
    rfl

/-- What is restored has been read. -/
lemma exists_reads_of_ofSnapshot {w : Window P T Q K K} (h : ofSnapshot codec json = .ok w) :
    ∃ (parts : Record K) (held : List (Held P T K K)) (steps : List (Step Q)),
      record? json = some parts ∧ parts.Reads codec held steps ∧ parts.IsWithin (idsOf held) ∧
        w = ofParts parts held steps := by
  have hok := h
  rw [ofSnapshot] at h
  obtain ⟨parts, hshape, h⟩ := exists_of_bind_eq_ok h
  obtain ⟨table, htable, h⟩ := exists_of_bind_eq_ok h
  obtain ⟨⟨steps, table'⟩, hsteps, -⟩ := exists_of_bind_eq_ok h
  obtain ⟨held, hheld⟩ := exists_describes_of_foldlM htable
  have hparts : record? json = some parts := by
    cases hrecord : record? json with
    | none =>
      rw [hrecord] at hshape
      cases hshape
    | some parts' =>
      rw [hrecord] at hshape
      cases hshape
      rfl
  have hreads : parts.Reads codec held steps := ⟨hheld, exists_describes_of_restoreSteps hsteps⟩
  rw [ofSnapshot_of_reads hparts hreads] at hok
  split at hok
  · next hwithin =>
    cases hok
    exact ⟨parts, held, steps, hparts, hreads, hwithin, rfl⟩
  · cases hok

end Snapshots

/-! ### References -/

/-- A memory has the steps of a snapshot in the order of their times, and its candidates, each with
the predecessor that the last link of it names. -/
structure Restores [Timed Q] (parts : Record K) (held : List (Held P T K K)) (steps : List (Step Q))
    (w : Window P T Q K K) : Prop where
  steps : w.steps.Perm steps
  sorted : w.samples.Pairwise fun a b => Timed.time a ≤ Timed.time b
  keys : ∀ id, id ∈ w.held.keys ↔ id ∈ idsOf held
  pointers : ∀ id, w.pointer? id =
    (parts.links.filter (·.candidate = id)).getLast?.bind LinkRecord.target?

section References

variable [Numeral K] [IntCast K] [Timed Q] {codec : Codec P T Q K} {parts : Record K}
  {held : List (Held P T K K)} {steps : List (Step Q)}

omit [Numeral K] [IntCast K] [Timed Q] in
/-- The links of a snapshot within a list are between candidates of the list. -/
lemma Record.IsWithin.links {ids : List CandidateId} (h : parts.IsWithin ids) {link : LinkRecord}
    (hlink : link ∈ parts.links) : link.IsWithin ids := by
  obtain ⟨step, hstep, hlink⟩ := List.mem_flatMap.1 hlink
  exact (h step hstep).1 link hlink

omit [Timed Q] in
/-- The candidates that are read have no predecessors. -/
lemma predecessor_of_describes {records : List (HeldRecord K)}
    (h : List.Forall₂ (HeldRecord.Describes codec) records held) :
    ∀ e ∈ held, e.candidate.predecessor = none := by
  induction h with
  | nil => exact fun e he => nomatch he
  | cons hfirst _ ih =>
    exact List.forall_mem_cons.2 ⟨predecessor_of_readCandidate hfirst.candidate, ih⟩

omit [Numeral K] [IntCast K] [Timed Q] in
/-- A step that is read has a record. -/
lemma exists_describes {records : List (StepRecord K)}
    (h : List.Forall₂ (StepRecord.Describes codec) records steps) :
    ∀ step ∈ steps, ∃ record ∈ records, record.Describes codec step := by
  induction h with
  | nil => exact fun step hstep => nomatch hstep
  | cons hfirst _ ih =>
    refine List.forall_mem_cons.2 ⟨⟨_, List.mem_cons_self, hfirst⟩, fun step hstep => ?_⟩
    obtain ⟨record, hrecord, hdescribes⟩ := ih step hstep
    exact ⟨record, List.mem_cons_of_mem _ hrecord, hdescribes⟩

/-- What is restored is what was read. -/
lemma restores_ofParts (h : parts.Reads codec held steps) (hwithin : parts.IsWithin (idsOf held)) :
    Restores parts held steps (ofParts parts held steps) := by
  refine ⟨List.mergeSort_perm _ _, ?_, fun id => ?_, fun id => ?_⟩
  · rw [samples, List.pairwise_map]
    have hsorted : (steps.mergeSort fun a b =>
        decide (Timed.time a.sample ≤ Timed.time b.sample)).Pairwise fun a b =>
          decide (Timed.time a.sample ≤ Timed.time b.sample) = true :=
      List.pairwise_mergeSort (fun a b c => by simpa using le_trans)
        (fun a b => by simpa using le_total _ _) steps
    exact hsorted.imp of_decide_eq_true
  · show id ∈ (parts.links.foldl relink (tableOf held)).keys ↔ _
    rw [keys_foldl_relink, mem_keys_tableOf]
  · have hnone : pointerIn (tableOf held) id = none := by
      rw [pointerIn, Option.bind_eq_none_iff]
      intro e he
      exact predecessor_of_describes h.held e (find?_tableOf he).1
    show pointerIn (parts.links.foldl relink (tableOf held)) id = _
    rw [pointerIn_foldl_relink _ (fun link hlink => (mem_keys_tableOf held _).2
      (hwithin.links hlink).1), hnone]
    cases (parts.links.filter (·.candidate = id)).getLast? <;> rfl

/-- What is restored is complete. -/
lemma isComplete_ofParts (h : parts.Reads codec held steps)
    (hwithin : parts.IsWithin (idsOf held)) : IsComplete (ofParts parts held steps) := by
  have hrestores := restores_ofParts h hwithin
  have hdescribed : ∀ step ∈ (ofParts parts held steps).steps, ∃ record ∈ parts.steps,
      record.Describes codec step := by
    intro step hstep
    exact exists_describes h.steps step (hrestores.steps.mem_iff.1 hstep)
  refine ⟨fun id c hc => ?_, fun step hstep id hid => ?_, fun step hstep => ?_, fun id p hp => ?_⟩
  · obtain ⟨e, he, rfl⟩ := Option.map_eq_some_iff.1 hc
    exact names_foldl_relink _ (fun id e he => (find?_tableOf he).2) parts.links id e he
  · obtain ⟨record, hrecord, hdescribes⟩ := hdescribed step hstep
    rw [hdescribes.members] at hid
    obtain ⟨link, hlink, rfl⟩ := List.mem_map.1 hid
    exact (hrestores.keys _).2 ((hwithin record hrecord).1 link hlink).1
  · obtain ⟨record, hrecord, hdescribes⟩ := hdescribed step hstep
    rw [hdescribes.estimate]
    exact (hrestores.keys _).2 (hwithin record hrecord).2
  · rw [hrestores.pointers] at hp
    obtain ⟨link, hlink, htarget⟩ := Option.bind_eq_some_iff.1 hp
    have hmem := List.mem_of_mem_filter (List.mem_of_getLast? hlink)
    exact (hrestores.keys p).2 ((hwithin.links hmem).2 p htarget)

variable (codec)

/-- **References are checked**. If a snapshot is restored, its parts can be read and refer to its
candidates only. The memory has its steps in the order of their times, and its candidates with the
predecessors of their last links, and all that it refers to is held. So its sequence has a candidate
for each step: the one that the candidate of the next step names, or else the estimate; and that is
one of the step, if predecessors are in the step before and estimates in their own.

A snapshot whose parts can be read is restored if it refers to its candidates only, and refused as
inconsistent if it does not. -/
theorem ofSnapshot_references (json : Json K) :
    (∀ w : Window P T Q K K, ofSnapshot codec json = .ok w →
      ∃ (parts : Record K) (held : List (Held P T K K)) (steps : List (Step Q)),
        record? json = some parts ∧ parts.Reads codec held steps ∧ parts.IsWithin (idsOf held) ∧
        Restores parts held steps w ∧ IsComplete w ∧
        (w.sequence.length = w.steps.length ∧ ∀ i step, w.steps[i]? = some step →
          ∃ c, w.sequence[i]? = some c ∧ w.candidate? c.id = some c ∧
            c.id = ((w.sequence[i + 1]?).bind Candidate.predecessor).getD step.estimate) ∧
        (IsLayered w → ∀ i c, w.sequence[i]? = some c → w.At i c.id)) ∧
    ∀ (parts : Record K) (held : List (Held P T K K)) (steps : List (Step Q)),
      record? json = some parts → parts.Reads codec held steps →
        ((∃ w : Window P T Q K K, ofSnapshot codec json = .ok w) ↔ parts.IsWithin (idsOf held)) ∧
        (¬ parts.IsWithin (idsOf held) → ofSnapshot codec json = .error inconsistent) := by
  refine ⟨fun w hw => ?_, fun parts held steps hparts hreads => ?_⟩
  · obtain ⟨parts, held, steps, hparts, hreads, hwithin, rfl⟩ := exists_reads_of_ofSnapshot hw
    have hcomplete := isComplete_ofParts hreads hwithin
    exact ⟨parts, held, steps, hparts, hreads, hwithin, restores_ofParts hreads hwithin, hcomplete,
      hcomplete.sequence, fun hlayered i c hc => hcomplete.sequence_at hlayered hc⟩
  · rw [ofSnapshot_of_reads hparts hreads]
    by_cases hwithin : parts.IsWithin (idsOf held)
    · rw [if_pos hwithin]
      exact ⟨iff_of_true ⟨_, rfl⟩ hwithin, fun h => absurd hwithin h⟩
    · rw [if_neg hwithin]
      exact ⟨iff_of_false (fun ⟨w, hw⟩ => nomatch hw) hwithin, fun _ => rfl⟩

end References

end Window

/-- The snapshot of a memory without bounds, with steps and candidates that are certain. -/
def Codec.plainSnapshot (steps : List (Window.StepRecord Binary64)) (ids : List CandidateId) :
    Json Binary64 :=
  let link (l : Window.LinkRecord) : Json Binary64 :=
    Json.object [("candid", .str l.candidate), ("predid", .str l.predecessor)]
  let step (s : Window.StepRecord Binary64) : Json Binary64 :=
    Json.object
      [("vector", .arr (s.links.map link)), ("sample", s.sample), ("kestid", .str s.estimate)]
  let held (id : CandidateId) : Json Binary64 :=
    Json.object
      [("candidate", Codec.plain.writeCandidate ⟨id, (), none, none, 1, 0⟩), ("count", .int 0)]
  Json.object
    [("k", .int (-1)), ("t", .int (-1)), ("sequence", .arr (steps.map step)),
      ("candidates", .arr (ids.map held))]

namespace Window

/-- The parts of such a snapshot. -/
def plainRecord (steps : List (StepRecord Binary64)) (ids : List CandidateId) :
    Record Binary64 where
  maxSteps := -1
  maxAge := -1
  steps := steps
  held := ids.map fun id => ⟨Codec.plain.writeCandidate ⟨id, (), none, none, 1, 0⟩, 0⟩
  broken := false

/-- Two steps of a candidate each, whose first one is named by the other. -/
def chained (estimate : CandidateId) : List (StepRecord Binary64) :=
  [⟨[⟨"a", ""⟩], .int 0, "a"⟩, ⟨[⟨"b", "a"⟩], .int 1, estimate⟩]

lemma reads_chained (estimate : CandidateId) :
    (plainRecord (chained estimate) ["a", "b"]).Reads Codec.plain
      [⟨⟨"a", (), none, none, 1, 0⟩, 0⟩, ⟨⟨"b", (), none, none, 1, 0⟩, 0⟩]
      [⟨["a"], 0, "a"⟩, ⟨["b"], 1, estimate⟩] where
  held := .cons ⟨rfl, rfl⟩ (.cons ⟨rfl, rfl⟩ .nil)
  steps := .cons ⟨rfl, rfl, rfl⟩ (.cons ⟨rfl, rfl, rfl⟩ .nil)

/-- The two steps are restored, and refused if the last one has an estimate that is missing. -/
theorem ofSnapshot_references_chained :
    (∃ w : Window Unit Unit Int Binary64 Binary64,
      ofSnapshot Codec.plain (Codec.plainSnapshot (chained "b") ["a", "b"]) = .ok w ∧
        IsComplete w ∧ w.sequence.length = 2) ∧
    ofSnapshot Codec.plain (Codec.plainSnapshot (chained "c") ["a", "b"]) =
      .error inconsistent := by
  obtain ⟨hrestored, hread⟩ :=
    ofSnapshot_references Codec.plain (Codec.plainSnapshot (chained "b") ["a", "b"])
  obtain ⟨-, hrefused⟩ :=
    ofSnapshot_references Codec.plain (Codec.plainSnapshot (chained "c") ["a", "b"])
  constructor
  · obtain ⟨w, hw⟩ := (hread _ _ _ rfl (reads_chained "b")).1.2 (by decide)
    obtain ⟨parts, held, steps, hparts, hreads, -, hrestores, hcomplete, ⟨hlength, -⟩, -⟩ :=
      hrestored w hw
    refine ⟨w, hw, hcomplete, ?_⟩
    obtain rfl : plainRecord (chained "b") ["a", "b"] = parts := Option.some.inj hparts
    rw [hlength, hrestores.steps.length_eq, ← hreads.steps.length_eq]
    rfl
  · exact (hrefused _ _ _ rfl (reads_chained "c")).2 (by decide)

/-- Two steps of a candidate each. The first one has the candidate of the last one as its estimate,
and the predecessor of that belongs to no step. -/
def unlinked : List (StepRecord Binary64) :=
  [⟨[⟨"a", ""⟩], .int 0, "b"⟩, ⟨[⟨"b", "c"⟩], .int 1, "b"⟩]

/-- **References are not bound to steps**. A snapshot is restored in which an estimate is not a
member of its step, a candidate belongs to no step and is a predecessor nevertheless, and the
sequence does not have a candidate of the first step. -/
theorem ofSnapshot_unlinked :
    ∃ w : Window Unit Unit Int Binary64 Binary64,
      ofSnapshot Codec.plain (Codec.plainSnapshot unlinked ["a", "b", "c"]) = .ok w ∧
        w.steps = [⟨["a"], 0, "b"⟩, ⟨["b"], 1, "b"⟩] ∧ w.held.keys = ["a", "b", "c"] ∧
        w.pointer? "b" = some "c" ∧ w.sequence.map Candidate.id = ["c", "b"] := by
  have hreads : (plainRecord unlinked ["a", "b", "c"]).Reads Codec.plain
      [⟨⟨"a", (), none, none, 1, 0⟩, 0⟩, ⟨⟨"b", (), none, none, 1, 0⟩, 0⟩,
        ⟨⟨"c", (), none, none, 1, 0⟩, 0⟩]
      [⟨["a"], 0, "b"⟩, ⟨["b"], 1, "b"⟩] :=
    ⟨.cons ⟨rfl, rfl⟩ (.cons ⟨rfl, rfl⟩ (.cons ⟨rfl, rfl⟩ .nil)),
      .cons ⟨rfl, rfl, rfl⟩ (.cons ⟨rfl, rfl, rfl⟩ .nil)⟩
  have hrestored : ofSnapshot Codec.plain (Codec.plainSnapshot unlinked ["a", "b", "c"]) = _ :=
    ofSnapshot_of_reads rfl hreads
  rw [if_pos (by decide), ofParts, List.mergeSort_of_pairwise (by decide)] at hrestored
  refine ⟨_, hrestored, rfl, ?_, ?_, ?_⟩ <;> decide +kernel

end Window

end RoadMatching
