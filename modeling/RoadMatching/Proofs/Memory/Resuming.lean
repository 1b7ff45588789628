import RoadMatching.Proofs.Memory.Restoring

/-!
Going on from a snapshot.

A restored memory lists its candidates in another order and has settled numbers, but an update looks
at candidates by their identifiers, and compares no numbers but those of its own vector.

* `Held.Alike`, `Table.Alike`: candidates that differ in the form of their numbers at most, and
  tables that hold such candidates under each key. Insertions, erasures and changes keep this.
* `Window.Resumes`: a memory stands for another one that has counted some more breaks.
  `Resumes.prune`, `Resumes.evict`, `Resumes.accept`: what one step of an update preserves, and
  `Resumes.feed`: what a whole run does.
* `Codec.IsFaithful`: all that candidates and steps consist of survives being written and read.
* `resumes_snapshot`: **a snapshot is transparent**. Whatever the order of its candidates, it is
  restored, and the memory restored stands for the one saved in all that follows.
-/

namespace RoadMatching

variable {P T Q K : Type}

/-! ### Candidates held alike -/

/-- Candidates held that differ in the form of their numbers at most. -/
structure Held.Alike [Extended K] (e d : Held P T K K) : Prop where
  references : e.references = d.references
  candidate : e.candidate = d.candidate ∨ e.candidate = d.candidate.settle

/-- Tables that hold candidates alike. -/
def Table.Alike [Extended K] (t t' : Table CandidateId (Held P T K K)) : Prop :=
  ∀ id, Option.Rel Held.Alike (t.find? id) (t'.find? id)

section Alike

variable [Extended K]

namespace Held.Alike

variable {e d : Held P T K K}

lemma refl (e : Held P T K K) : e.Alike e := ⟨rfl, .inl rfl⟩

lemma predecessor_eq (h : e.Alike d) : e.candidate.predecessor = d.candidate.predecessor := by
  rcases h.candidate with heq | heq <;> rw [heq]
  rfl

/-- Another number of references makes no difference. -/
lemma recount (h : e.Alike d) (count : Nat → Nat) :
    Held.Alike { e with references := count e.references }
      { d with references := count d.references } :=
  ⟨congrArg count h.references, h.candidate⟩

/-- Candidates forget their predecessors alike. -/
lemma forget (h : e.Alike d) :
    Held.Alike { e with candidate := e.candidate.forget }
      { d with candidate := d.candidate.forget } := by
  refine ⟨h.references, ?_⟩
  rcases h.candidate with heq | heq
  · exact .inl (congrArg Candidate.forget heq)
  · exact .inr (congrArg Candidate.forget heq)

end Held.Alike

namespace Table.Alike

variable {t t' : Table CandidateId (Held P T K K)}

/-- A key has no candidate in either table, or one in both. -/
lemma find?_cases (h : t.Alike t') (id : CandidateId) :
    (t.find? id = none ∧ t'.find? id = none) ∨
      ∃ e d, t.find? id = some e ∧ t'.find? id = some d ∧ e.Alike d := by
  have hrel := h id
  generalize t.find? id = o, t'.find? id = o' at hrel ⊢
  cases hrel with
  | none => exact .inl ⟨rfl, rfl⟩
  | some hed => exact .inr ⟨_, _, rfl, rfl, hed⟩

lemma exists_left (h : t.Alike t') {id : CandidateId} {d : Held P T K K}
    (hd : t'.find? id = some d) : ∃ e, t.find? id = some e ∧ e.Alike d := by
  rcases h.find?_cases id with ⟨-, hnone⟩ | ⟨e, d', he, hd', hed⟩
  · cases hd.symm.trans hnone
  · exact ⟨e, he, Option.some.inj (hd'.symm.trans hd) ▸ hed⟩

lemma exists_right (h : t.Alike t') {id : CandidateId} {e : Held P T K K}
    (he : t.find? id = some e) : ∃ d, t'.find? id = some d ∧ e.Alike d := by
  rcases h.find?_cases id with ⟨hnone, -⟩ | ⟨e', d, he', hd, hed⟩
  · cases he.symm.trans hnone
  · exact ⟨d, hd, Option.some.inj (he'.symm.trans he) ▸ hed⟩

lemma contains_eq (h : t.Alike t') (id : CandidateId) : t.contains id = t'.contains id := by
  rw [Table.contains, Table.contains]
  rcases h.find?_cases id with ⟨ht, ht'⟩ | ⟨e, d, ht, ht', -⟩
  · rw [ht, ht']
  · rw [ht, ht', Option.isSome_some, Option.isSome_some]

lemma insert (h : t.Alike t') (id : CandidateId) (e : Held P T K K) :
    (t.insert id e).Alike (t'.insert id e) := by
  intro other
  rw [find?_insert, find?_insert]
  split
  · exact .some (.refl e)
  · exact h other

lemma erase (h : t.Alike t') (id : CandidateId) : (t.erase id).Alike (t'.erase id) := by
  intro other
  rw [find?_erase, find?_erase]
  split
  · exact .none
  · exact h other

lemma modify (h : t.Alike t') (id : CandidateId) {change : Held P T K K → Held P T K K}
    (hchange : ∀ e d, e.Alike d → (change e).Alike (change d)) :
    (t.modify id change).Alike (t'.modify id change) := by
  intro other
  rw [find?_modify, find?_modify]
  split
  · rcases h.find?_cases other with ⟨ht, ht'⟩ | ⟨e, d, ht, ht', hed⟩ <;> rw [ht, ht']
    · exact .none
    · exact .some (hchange e d hed)
  · exact h other

end Table.Alike

end Alike

namespace Window

/-! ### Memories that stand for others -/

/-- A memory stands for another one, which has counted `lost` breaks more. -/
structure Resumes [Extended K] (lost : Nat) (v w : Window P T Q K K) : Prop where
  maxSteps : v.maxSteps = w.maxSteps
  maxAge : v.maxAge = w.maxAge
  steps : v.steps = w.steps
  held : v.held.Alike w.held
  breaks : v.breaks + lost = w.breaks
  broken : v.broken = w.broken

namespace Resumes

variable [Extended K] {lost : Nat} {v w : Window P T Q K K}

lemma pointer?_eq (h : Resumes lost v w) (id : CandidateId) : v.pointer? id = w.pointer? id := by
  rw [pointer?, pointer?]
  rcases h.held.find?_cases id with ⟨hv, hw⟩ | ⟨e, d, hv, hw, hed⟩ <;> rw [hv, hw]
  exact hed.predecessor_eq

/-- A vector is refused by both, and for the same reason. -/
lemma fault?_eq [Timed Q] (h : Resumes lost v w) (vector : List (Candidate P T K K)) (sample : Q) :
    v.fault? vector sample = w.fault? vector sample := by
  have htime : v.time? = w.time? := by rw [time?, time?, sample?, sample?, h.steps]
  have hlatest : v.latest = w.latest := by rw [latest, latest, h.broken, h.steps]
  simp only [fault?, htime, hlatest, h.held.contains_eq]

lemma countReferences (h : Resumes lost v w) (vector : List (Candidate P T K K)) :
    Resumes lost (v.countReferences vector) (w.countReferences vector) := by
  refine ⟨h.maxSteps, h.maxAge, h.steps, ?_, h.breaks, h.broken⟩
  refine List.foldl_rel h.held fun c _ t t' ht => ?_
  cases c.predecessor with
  | none => exact ht
  | some p => exact ht.modify p fun e d hed => hed.recount fun n => unsigned64 (n + 1)

lemma discard (h : Resumes lost v w) (id : CandidateId) (index : Nat) :
    Resumes lost (v.discard id index) (w.discard id index) := by
  refine ⟨h.maxSteps, h.maxAge, ?_, ?_, h.breaks, h.broken⟩
  · rw [Window.discard, Window.discard, h.steps]
  · rw [Window.discard, Window.discard, h.pointer?_eq]
    cases w.pointer? id with
    | none => exact h.held.erase id
    | some p => exact (h.held.erase id).modify p fun e d hed => hed.recount fun n => n - 1

/-- Both drop the same candidates: those before the last one have no references left in one memory
whenever they have none in the other. -/
lemma prune (h : Resumes lost v w) (id : CandidateId) (index : Nat) :
    Resumes lost (v.prune id index) (w.prune id index) := by
  induction index using Nat.strong_induction_on generalizing v w id with
  | _ index ih =>
    cases hstep : w.steps[index]? with
    | none =>
      have hstep' : v.steps[index]? = none := h.steps ▸ hstep
      rw [Window.prune, Window.prune]
      simpa only [hstep, hstep'] using h
    | some step =>
      have hstep' : v.steps[index]? = some step := h.steps ▸ hstep
      by_cases heq : step.estimate = id
      · rwa [prune_of_eq hstep heq, prune_of_eq hstep' heq]
      · have hdiscard := h.discard id index
        rcases prune_cases hstep heq with ⟨p, before, d, hp, rfl, hd, hzero, hw⟩ | ⟨hkept, hw⟩
        · obtain ⟨e, he, hed⟩ := hdiscard.held.exists_left hd
          rcases prune_cases hstep' heq with ⟨q, other, -, hq, hindex, -, -, hv⟩ | ⟨hkept, hv⟩
          · obtain rfl : p = q := by
              rw [h.pointer?_eq, hp, Option.some.injEq] at hq
              exact hq
            obtain rfl : before = other := by omega
            rw [hv, hw]
            exact ih before (by omega) hdiscard p
          · exact absurd (hed.references.trans hzero)
              (hkept p before e ((h.pointer?_eq id).trans hp) rfl he)
        · rcases prune_cases hstep' heq with ⟨p, before, e, hp, hindex, he, hzero, -⟩ | ⟨-, hv⟩
          · obtain ⟨d, hd, hed⟩ := hdiscard.held.exists_right he
            exact absurd (hed.references.symm.trans hzero)
              (hkept p before d ((h.pointer?_eq id).symm.trans hp) hindex hd)
          · rw [hv, hw]
            exact hdiscard

/-- Both drop the candidates of the last step that nothing refers to. -/
lemma pruneLast (h : Resumes lost v w) : Resumes lost v.pruneLast w.pruneLast := by
  have hfree : ∀ id, (v.held.find? id).any (fun e => e.references == 0) =
      (w.held.find? id).any fun e => e.references == 0 := by
    intro id
    rcases h.held.find?_cases id with ⟨hv, hw⟩ | ⟨e, d, hv, hw, hed⟩ <;> rw [hv, hw]
    rw [Option.any_some, Option.any_some, hed.references]
  simp only [Window.pruneLast, h.steps, hfree]
  split
  · exact h
  · refine List.foldl_rel h fun id _ v w hvw => ?_
    rw [hvw.steps]
    exact hvw.prune id _

lemma append (h : Resumes lost v w) (vector : List (Candidate P T K K)) (sample : Q)
    (best : CandidateId) :
    Resumes lost (v.append vector sample best) (w.append vector sample best) := by
  refine ⟨h.maxSteps, h.maxAge, ?_, ?_, h.breaks, rfl⟩
  · rw [Window.append, Window.append, h.steps]
  · exact List.foldl_rel h.held fun c _ t t' ht => ht.insert c.id ⟨c, 0⟩

/-- Both drop the same steps. -/
lemma evict [Timed Q] (h : Resumes lost v w) : Resumes lost v.evict w.evict := by
  have htime : v.time? = w.time? := by rw [time?, time?, sample?, sample?, h.steps]
  have hexpired : ∀ time step, v.isExpired time step = w.isExpired time step := by
    intro time step
    rw [isExpired, isExpired, h.maxAge]
  have key : ∀ (time : Int) (steps : List (Step Q)) {t t' : Table CandidateId (Held P T K K)},
      t.Alike t' → (v.evictSteps time steps t).1 = (w.evictSteps time steps t').1 ∧
        (v.evictSteps time steps t).2.Alike (w.evictSteps time steps t').2 := by
    intro time steps
    induction steps with
    | nil => exact fun ht => ⟨rfl, ht⟩
    | cons front steps ih =>
      intro t t' ht
      cases steps with
      | nil => exact ⟨rfl, ht⟩
      | cons second rest =>
        rw [evictSteps, evictSteps, hexpired, h.maxSteps]
        split
        · refine ih (List.foldl_rel (List.foldl_rel ht fun id _ t t' ht => ht.erase id)
            fun id _ t t' ht => ?_)
          exact ht.modify id fun e d hed => hed.forget
        · exact ⟨rfl, ht⟩
  rw [Window.evict, Window.evict, htime, h.steps]
  cases w.time? with
  | none => exact h
  | some time =>
    obtain ⟨hsteps, hheld⟩ := key time w.steps h.held
    exact ⟨h.maxSteps, h.maxAge, hsteps, hheld, h.breaks, h.broken⟩

variable [Timed Q] [LT K] [DecidableLT K]

/-- An update is refused by both for the same reason, or by neither. -/
lemma update_eq (h : Resumes lost v w) (u : Update P T Q K K) :
    (v.update u.vector u.sample).map (fun _ => ()) =
      (w.update u.vector u.sample).map fun _ => () := by
  rw [Window.update, Window.update, h.fault?_eq]
  cases Candidate.best? u.vector with
  | none => rfl
  | some best => cases w.fault? u.vector u.sample <;> rfl

/-- The memory after an update stands for the other one after it. -/
lemma accept (h : Resumes lost v w) (u : Update P T Q K K) :
    Resumes lost (v.accept u) (w.accept u) := by
  rw [Window.accept, Window.accept, Window.update, Window.update, h.fault?_eq]
  cases Candidate.best? u.vector with
  | none =>
    have hbreaks : v.breaks + 1 + lost = w.breaks + 1 := by rw [← h.breaks, Nat.add_right_comm]
    exact ⟨h.maxSteps, h.maxAge, h.steps, h.held, hbreaks, rfl⟩
  | some best =>
    cases w.fault? u.vector u.sample with
    | some error => exact h
    | none => exact ((h.countReferences u.vector).pruneLast.append u.vector u.sample best.id).evict

/-- The memory after any updates stands for the other one after them. -/
theorem feed (h : Resumes lost v w) (updates : List (Update P T Q K K)) :
    Resumes lost (v.feed updates) (w.feed updates) :=
  List.foldl_rel h fun u _ _ _ hvw => hvw.accept u

end Resumes

/-! ### Memories that are listed in another order -/

section Relisted

variable {S : Type} {w : Window P T Q K S} {seen : List CandidateId}
  {listed : List (CandidateId × Held P T K S)}

/-- Candidates are found in whatever order they are listed. -/
lemma candidate?_relisted (hkeys : w.held.keys.Nodup) (hlisted : listed.Perm w.held.entries)
    (id : CandidateId) :
    ({ w with held := ⟨listed⟩ } : Window P T Q K S).candidate? id = w.candidate? id :=
  congrArg (Option.map Held.candidate) (Table.find?_perm hkeys hlisted id)

/-- The order in which candidates are listed makes no difference to what is kept. -/
lemma Kept.relisted (h : Kept seen w) (hlisted : listed.Perm w.held.entries) :
    Kept seen { w with held := ⟨listed⟩ } := by
  have hfind : ∀ id, (⟨listed⟩ : Table CandidateId (Held P T K S)).find? id = w.held.find? id :=
    Table.find?_perm h.linked.keys hlisted
  have hkeys : (⟨listed⟩ : Table CandidateId (Held P T K S)).keys.Perm w.held.keys :=
    hlisted.map Prod.fst
  have hpointer : ({ w with held := ⟨listed⟩ } : Window P T Q K S).pointer? = w.pointer? := by
    funext id
    show ((⟨listed⟩ : Table CandidateId (Held P T K S)).find? id).bind _ = _
    rw [hfind, pointer?]
  have hnamed : ∀ next i, ({ w with held := ⟨listed⟩ } : Window P T Q K S).named next i =
      w.named next i := by
    intro next i
    have hpointers : ({ w with held := ⟨listed⟩ } : Window P T Q K S).pointers = w.pointers :=
      funext fun step => congrArg (step.members.filterMap ·) hpointer
    rw [named, named, hpointers]
  refine ⟨⟨h.linked.distinct, hkeys.nodup_iff.2 h.linked.keys, fun id => ?_, h.linked.estimates, ?_,
    fun i hi p hp => ?_, fun i id e hat he => ?_⟩, fun i step hstep id hid => ?_, h.seen,
    fun i id c hat hc => h.names i id c hat ?_⟩
  · exact hkeys.mem_iff.trans (h.linked.held id)
  · rw [hnamed]
    exact h.linked.origin
  · rw [hnamed] at hp
    exact h.linked.before i hi p hp
  · rw [hnamed]
    exact h.linked.references i id e hat ((hfind id).symm.trans he)
  · rw [hnamed]
    exact h.pruned i step hstep id hid
  · exact (candidate?_relisted h.linked.keys hlisted id).symm.trans hc

end Relisted

end Window

/-! ### Snapshots -/

/-- All that candidates and steps consist of survives being written and read, and the payload has a
key of its own. -/
structure Codec.IsFaithful (codec : Codec P T Q K) : Prop where
  payload : ∀ p, codec.readPayload (codec.writePayload p) = .ok p
  transition : ∀ t, codec.readTransition (codec.writeTransition t) = .ok t
  transition_ne_null : ∀ t, codec.writeTransition t ≠ .null
  sample : ∀ s, codec.readSample (codec.writeSample s) = .ok s
  key : codec.HasOwnKey

namespace Window

section Snapshots

/-- A faithful codec keeps every memory. -/
lemma storable {codec : Codec P T Q K} (h : codec.IsFaithful) (w : Window P T Q K K) :
    w.Storable codec where
  candidates _ _ := ⟨h.payload _, fun t _ => ⟨h.transition t, h.transition_ne_null t⟩⟩
  samples step _ := h.sample step.sample

variable [Numeral K]

/-- A memory stands for itself, in another order and with settled numbers, without its breaks. -/
lemma Kept.resumes {seen : List CandidateId} {w : Window P T Q K K} (h : Kept seen w)
    {listed : List (CandidateId × Held P T K K)} (hlisted : listed.Perm w.held.entries) :
    Resumes w.breaks { ({ w with held := ⟨listed⟩ } : Window P T Q K K).settle with breaks := 0 }
      w := by
  refine ⟨rfl, rfl, rfl, fun id => ?_, Nat.zero_add _, rfl⟩
  have hfind : (⟨listed⟩ : Table CandidateId (Held P T K K)).find? id = w.held.find? id :=
    Table.find?_perm h.linked.keys hlisted id
  have hsettled : (settle { w with held := ⟨listed⟩ } : Window P T Q K K).held.find? id =
      (w.held.find? id).map Held.settle := by
    rw [← hfind]
    simp only [Table.find?, settle, List.find?_map, Option.map_map]
    rfl
  rw [hsettled]
  cases w.held.find? id with
  | none => exact .none
  | some e => exact .some ⟨rfl, .inr rfl⟩

variable [IntCast K] [Timed Q] [LT K] [DecidableLT K]

/-- **A snapshot is transparent**. A memory that was fed distinct updates, whose candidates are
saved in any order, is restored with its bounds, steps, candidates and references, and with its
broken flag; only breaks are counted from zero. From then on it stands for the memory saved, and
each update is accepted, or refused for the same reason, by both.

The numbers are the same too: a finite one is written as it is, and of the others only the undefined
value loses a sign, see `Binary64.settle_eq`. -/
theorem resumes_snapshot {codec : Codec P T Q K} (hcodec : codec.IsFaithful) {k t : Option Nat}
    (hk : ∀ n ∈ k, n < 9223372036854775808) (ht : ∀ n ∈ t, n < 9223372036854775808)
    {updates : List (Update P T Q K K)} (h : Update.Distinct updates)
    (hempty : "" ∉ updates.flatMap Update.ids) {listed : List (CandidateId × Held P T K K)}
    (hlisted : listed.Perm ((bounded k t).feed updates).held.entries) :
    ∃ restored,
      ofSnapshot codec (toSnapshot codec { (bounded k t).feed updates with held := ⟨listed⟩ }) =
        .ok restored ∧
      restored = { (bounded k t).feed updates with
        held := ⟨listed.map fun entry => (entry.1, entry.2.settle)⟩, breaks := 0 } ∧
      ∀ later : List (Update P T Q K K),
        Resumes ((bounded k t).feed updates).breaks (restored.feed later)
          (((bounded k t).feed updates).feed later) ∧
        ∀ u : Update P T Q K K,
          ((restored.feed later).update u.vector u.sample).map (fun _ => ()) =
            ((((bounded k t).feed updates).feed later).update u.vector u.sample).map
              fun _ => () := by
  have hkept := feed_kept k t h
  have horderly : Orderly { (bounded k t).feed updates with held := ⟨listed⟩ } := by
    obtain ⟨hsteps, hage, hsizes, hsorted⟩ := feed_orderly hk ht h
    exact ⟨hsteps, hage, hsizes, hsorted⟩
  have hrestored := (hkept.relisted hlisted).ofSnapshot_toSnapshot hempty horderly
    (storable hcodec _) hcodec.key
  refine ⟨_, hrestored, rfl, fun later => ?_⟩
  have hresumes := (hkept.resumes hlisted).feed later
  exact ⟨hresumes, hresumes.update_eq⟩

end Snapshots

end Window

/-- Candidates without data, whose samples are their times. -/
def Codec.plain : Codec Unit Unit Int Binary64 where
  payloadKey := "payload"
  writePayload _ := .null
  readPayload _ := .ok ()
  writeTransition _ := .bool true
  readTransition _ := .ok ()
  writeSample time := .int time
  readSample
    | .int time => .ok time
    | _ => .error .shape

lemma Codec.plain_isFaithful : Codec.plain.IsFaithful where
  payload _ := rfl
  transition _ := rfl
  transition_ne_null _ h := by cases h
  sample _ := rfl
  key := show "payload" ∉ _ by decide

/-- Updates with impossible candidates, equal times and a break. -/
def Update.scored : List (Update Unit Unit Int Binary64 Binary64) :=
  let c (id : CandidateId) (predecessor : Option CandidateId) (score : Binary64) :
    Candidate Unit Unit Binary64 Binary64 :=
      ⟨id, (), predecessor, predecessor.map fun _ => (), 1, score⟩
  let impossible : Binary64 := Extended.infinite true
  [⟨[c "a1" none impossible, c "a2" none 0], 0⟩,
    ⟨[c "b1" (some "a2") 0, c "b2" (some "a1") impossible, c "b3" none impossible], 1⟩,
    ⟨[], 1⟩,
    ⟨[c "c1" none impossible, c "c2" none 0], 1⟩,
    ⟨[c "d1" (some "c2") 0, c "d2" (some "c1") 0], 2⟩]

open Window in
/-- After a break and a dropped step, the memory is saved with its latest candidates first. It is
restored as it was saved, impossible candidates included, and goes on from there. -/
theorem resumes_snapshot_scored :
    let saved := (bounded (some 2) none).feed Update.scored
    saved.held.keys = ["b1", "c1", "c2", "d1", "d2"] ∧ saved.breaks = 1 ∧
      ∃ restored,
        ofSnapshot Codec.plain
          (toSnapshot Codec.plain { saved with held := ⟨saved.held.entries.reverse⟩ }) =
            .ok restored ∧
        restored = { saved with held := ⟨saved.held.entries.reverse⟩, breaks := 0 } ∧
        ∀ later, Resumes 1 (restored.feed later) (saved.feed later) := by
  have hkeys : ((bounded (some 2) none).feed Update.scored).held.keys =
      ["b1", "c1", "c2", "d1", "d2"] := by decide +kernel
  have hbreaks : ((bounded (some 2) none).feed Update.scored).breaks = 1 := by decide +kernel
  have hsigns : ∀ entry ∈ ((bounded (some 2) none).feed Update.scored).held.entries,
      entry.2.candidate.belief.negated = false ∧ entry.2.candidate.score.negated = false := by
    decide +kernel
  obtain ⟨restored, hrestored, heq, hlater⟩ := resumes_snapshot Codec.plain_isFaithful
    (by simp) (by simp) ⟨by decide, by decide⟩ (by decide)
    (List.reverse_perm ((bounded (some 2) none).feed Update.scored).held.entries)
  refine ⟨hkeys, hbreaks, restored, hrestored, ?_, fun later => hbreaks ▸ (hlater later).1⟩
  have hsettled : ((bounded (some 2) none).feed Update.scored).held.entries.reverse.map
      (fun entry => (entry.1, entry.2.settle)) =
        ((bounded (some 2) none).feed Update.scored).held.entries.reverse := by
    refine (List.map_congr_left fun entry hentry => ?_).trans (List.map_id _)
    obtain ⟨hbelief, hscore⟩ := hsigns entry (List.mem_reverse.1 hentry)
    exact Prod.ext rfl (Held.settle_eq hbelief hscore)
  rw [heq, hsettled]

end RoadMatching
