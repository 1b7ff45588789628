import RoadMatching.Markov.Latest
import RoadMatching.Proofs.Memory.Readout

/-!
The memory of the latest vector beside the memory of a window.

One replaces its vector, the other prunes, appends and drops old steps. What they tell of the latest
vector is the same, since both tell what a history does.

* `Update.run`: the memory after updates of which none is refused.
* `Latest.submit`: the update of the latest vector in place. `Latest.submit_eq`: it is `update`, and
  leaves the memory as it was when the vector is refused.
* `Latest.Follows`: the memory has the latest vector of a history. `Latest.Follows.update` is the
  step, and `Latest.exists_follows` the run.
* `Latest.run_agrees`: **the memories agree** after every update that the window accepts, and the one
  of the latest vector refuses what comes too late for the other.
-/

namespace RoadMatching

variable {P T Q K S : Type}

/-! ### Runs without refusals -/

namespace Update

variable {M : Type} {update : M → List (Candidate P T K S) → Q → Except MemoryError M} {m : M}
  {updates : List (Update P T Q K S)}

/-- The memory after all updates, first to last, if none of them is refused. -/
def run (update : M → List (Candidate P T K S) → Q → Except MemoryError M) (m : M)
    (updates : List (Update P T Q K S)) : Except MemoryError M :=
  updates.foldlM (fun m u => update m u.vector u.sample) m

/-- Updates are accepted together if the first ones are, and then the others. -/
lemma run_append_eq_ok {more : List (Update P T Q K S)} {after : M} :
    run update m (updates ++ more) = .ok after ↔
      ∃ between, run update m updates = .ok between ∧ run update between more = .ok after := by
  rw [run, List.foldlM_append, ← run]
  cases run update m updates with
  | error error => exact iff_of_false nofun (by rintro ⟨_, ⟨⟩, _⟩)
  | ok between => exact ⟨fun h => ⟨between, rfl, h⟩, by rintro ⟨_, ⟨⟩, h⟩; exact h⟩

/-- One more update is accepted after others. -/
lemma run_concat_eq_ok {u : Update P T Q K S} {after : M} :
    run update m (updates ++ [u]) = .ok after ↔
      ∃ between, run update m updates = .ok between ∧
        update between u.vector u.sample = .ok after := by
  rw [run_append_eq_ok]
  refine exists_congr fun between => and_congr_right fun _ => ?_
  rw [run, List.foldlM_cons]
  cases update between u.vector u.sample <;> exact Iff.rfl

/-- The first ones of accepted updates are accepted. -/
lemma exists_run_take {after : M} (h : run update m updates = .ok after) (n : Nat) :
    ∃ between, run update m (updates.take n) = .ok between := by
  rw [← List.take_append_drop n updates, run_append_eq_ok] at h
  obtain ⟨between, hbetween, -⟩ := h
  exact ⟨between, hbetween⟩

/-- The first ones of distinct updates are distinct. -/
lemma Distinct.take (h : Distinct updates) (n : Nat) : Distinct (updates.take n) where
  nodup := h.nodup.sublist ((List.take_sublist n updates).flatMap ids)
  length u hu := h.length u (List.mem_of_mem_take hu)

end Update

section Runs

variable [Timed Q] [LT S] [DecidableLT S]

/-- What a window is fed is what it is run on, if it accepts everything. -/
lemma Window.feed_eq_of_run {w after : Window P T Q K S} {updates : List (Update P T Q K S)}
    (h : Update.run Window.update w updates = .ok after) : w.feed updates = after := by
  induction updates using List.reverseRecOn generalizing after with
  | nil => exact Except.ok.inj h
  | append_singleton updates u ih =>
    obtain ⟨between, hbetween, hlast⟩ := Update.run_concat_eq_ok.1 h
    rw [feed_concat, ih hbetween, accept, hlast]

/-- An update of a history is a break, or it is refused as too late or for a predecessor, or its
vector is appended. -/
lemma History.update_cases (h : History P T Q K S) (vector : List (Candidate P T K S))
    (sample : Q) :
    (vector = [] ∧ h.update vector sample = .ok { h with broken := true }) ∨
    (vector ≠ [] ∧ ∃ last, h.time? = some last ∧ Timed.time sample < last ∧
      h.update vector sample = .error (.outOfOrder last (Timed.time sample))) ∨
    (vector ≠ [] ∧ (∀ last, h.time? = some last → ¬ Timed.time sample < last) ∧
      ((∃ id p, h.update vector sample = .error (.inconsistentVector id p)) ∨
        ∃ best, h.update vector sample =
          .ok ⟨h.records ++ [⟨vector, sample, best⟩], false⟩)) := by
  rw [update]
  cases hbest : Candidate.best? vector with
  | none => exact .inl ⟨Candidate.best?_eq_none_iff.1 hbest, rfl⟩
  | some best =>
    have hne : vector ≠ [] := by
      rintro rfl
      cases hbest
    dsimp only
    by_cases hlate : ∃ last, h.time? = some last ∧ Timed.time sample < last
    · obtain ⟨last, hlast, hlt⟩ := hlate
      refine .inr (.inl ⟨hne, last, hlast, hlt, ?_⟩)
      rw [fault?, hlast, Option.bind_some, if_pos hlt, Option.some_or]
    · have hintime : ∀ last, h.time? = some last → ¬ Timed.time sample < last :=
        fun last hlast hlt => hlate ⟨last, hlast, hlt⟩
      refine .inr (.inr ⟨hne, hintime, ?_⟩)
      have hnone : (h.time?.bind fun last => if Timed.time sample < last then
          some (MemoryError.outOfOrder last (Timed.time sample)) else none) = none :=
        Option.bind_eq_none_iff.2 fun last hlast => if_neg (hintime last hlast)
      cases hfault : h.fault? vector sample with
      | none => exact .inr ⟨best, rfl⟩
      | some error =>
        rw [fault?, hnone, Option.none_or] at hfault
        obtain ⟨c, -, hc⟩ := List.exists_of_findSome?_eq_some hfault
        obtain ⟨p, -, hp⟩ := Option.bind_eq_some_iff.1 hc
        obtain ⟨-, hp⟩ | ⟨-, hp⟩ := ite_eq_iff.1 hp
        · cases hp
        · exact .inl ⟨c.id, p, by rw [← Option.some.inj hp]⟩

end Runs

namespace Latest

variable [Timed Q] {m : Latest P T Q K S} {history : History P T Q K S}

/-! ### The latest vector -/

/-- Replaces the vector in place, unless there is none or its sample is older than the last one. -/
def submit (vector : List (Candidate P T K S)) (sample : Q) :
    EStateM MemoryError (Latest P T Q K S) Unit := do
  unless vector.isEmpty do
    match (← get).time? with
    | some last => if Timed.time sample < last then throw (.outOfOrder last (Timed.time sample))
    | none => pure ()
    modify fun m => { m with vector := vector }
    modify fun m => { m with sample? := some sample }

/-- An update changes nothing, or it is refused as too late, or its vector replaces the last one. -/
lemma update_cases (m : Latest P T Q K S) (vector : List (Candidate P T K S)) (sample : Q) :
    (vector = [] ∧ m.update vector sample = .ok m) ∨
    (vector ≠ [] ∧ ∃ last, m.time? = some last ∧ Timed.time sample < last ∧
      m.update vector sample = .error (.outOfOrder last (Timed.time sample))) ∨
    (vector ≠ [] ∧ (∀ last, m.time? = some last → ¬ Timed.time sample < last) ∧
      m.update vector sample = .ok ⟨vector, some sample⟩) := by
  rw [update]
  by_cases hnil : vector = []
  · exact .inl ⟨hnil, if_pos (List.isEmpty_iff.2 hnil)⟩
  · rw [if_neg (by simpa using hnil)]
    cases htime : m.time? with
    | none => exact .inr (.inr ⟨hnil, nofun, rfl⟩)
    | some last =>
      by_cases hlt : Timed.time sample < last
      · refine .inr (.inl ⟨hnil, last, rfl, hlt, ?_⟩)
        simp only [Option.filter_some, hlt, decide_true, if_true]
      · refine .inr (.inr ⟨hnil, fun other hother => ?_, ?_⟩)
        · rwa [← Option.some.inj hother]
        · simp only [Option.filter_some, hlt, decide_false, Bool.false_eq_true, if_false]

/-- The update in place gives the memory that `update` gives. If the update fails, it leaves the
memory as it was. -/
lemma submit_eq (m : Latest P T Q K S) (vector : List (Candidate P T K S)) (sample : Q) :
    submit vector sample m =
      match m.update vector sample with
      | .ok after => .ok () after
      | .error error => .error error m := by
  rw [submit, update]
  cases hempty : vector.isEmpty with
  | true => rfl
  | false =>
    have hget : (get : EStateM MemoryError (Latest P T Q K S) (Latest P T Q K S)) m = .ok m m := rfl
    simp only [bind, EStateM.bind, hget, Bool.false_eq_true, if_false]
    cases m.time? with
    | none => rfl
    | some last =>
      by_cases hlt : Timed.time sample < last
      · simp only [Option.filter_some, hlt, decide_true, if_true]
        rfl
      · simp only [Option.filter_some, hlt, decide_false, Bool.false_eq_true, if_false]
        rfl

/-- The memory has the last vector of a history and its sample. -/
structure Follows (history : History P T Q K S) (m : Latest P T Q K S) : Prop where
  vector : m.vector = history.vector
  sample : m.sample? = history.sample?

lemma Follows.time?_eq (h : Follows history m) : m.time? = history.time? := by
  rw [time?, History.time?, h.sample]

variable [LT S] [DecidableLT S]

/-- What a history accepts is accepted, and followed. -/
lemma Follows.update (h : Follows history m) {vector : List (Candidate P T K S)} {sample : Q}
    {after : History P T Q K S} (hafter : history.update vector sample = .ok after) :
    ∃ next, m.update vector sample = .ok next ∧ Follows after next := by
  rcases history.update_cases vector sample with
    ⟨hnil, heq⟩ | ⟨-, last, -, -, heq⟩ | ⟨hne, hintime, ⟨id, p, heq⟩ | ⟨best, heq⟩⟩ <;>
  cases hafter.symm.trans heq
  · exact ⟨m, by rw [hnil]; rfl, h.vector, h.sample⟩
  · rw [← h.time?_eq] at hintime
    refine ⟨⟨vector, some sample⟩, ?_, ?_, ?_⟩
    · rcases m.update_cases vector sample with ⟨hnil, -⟩ | ⟨-, last, hlast, hlt, -⟩ | ⟨-, -, heq⟩
      · exact absurd hnil hne
      · exact absurd hlt (hintime last hlast)
      · exact heq
    · rw [History.vector, List.getLast?_concat]
      rfl
    · rw [History.sample?, List.getLast?_concat]
      rfl

/-- What is refused is what a history refuses as too late. -/
lemma Follows.update_error_iff (h : Follows history m) {vector : List (Candidate P T K S)}
    {sample : Q} {error : MemoryError} :
    m.update vector sample = .error error ↔
      history.update vector sample = .error error ∧
        ∃ last time, error = .outOfOrder last time := by
  constructor
  · intro herror
    rcases m.update_cases vector sample with
      ⟨-, heq⟩ | ⟨hne, last, hlast, hlt, heq⟩ | ⟨-, -, heq⟩ <;> cases herror.symm.trans heq
    rw [h.time?_eq] at hlast
    rcases history.update_cases vector sample with
      ⟨hnil, -⟩ | ⟨-, other, hother, -, heq'⟩ | ⟨-, hintime, -⟩
    · exact absurd hnil hne
    · obtain rfl := Option.some.inj (hother.symm.trans hlast)
      exact ⟨heq', other, _, rfl⟩
    · exact absurd hlt (hintime last hlast)
  · rintro ⟨herror, last, time, rfl⟩
    rcases history.update_cases vector sample with
      ⟨-, heq⟩ | ⟨hne, last, hlast, hlt, heq⟩ | ⟨-, -, ⟨id, p, heq⟩ | ⟨best, heq⟩⟩ <;>
        cases herror.symm.trans heq
    rw [← h.time?_eq] at hlast
    rcases m.update_cases vector sample with
      ⟨hnil, -⟩ | ⟨-, other, hother, -, heq'⟩ | ⟨-, hintime, -⟩
    · exact absurd hnil hne
    · obtain rfl := Option.some.inj (hother.symm.trans hlast)
      exact heq'
    · exact absurd hlt (hintime _ hlast)

/-- What a window accepts is accepted, and the memory follows the history of it. -/
lemma exists_follows (k t : Option Nat) {updates : List (Update P T Q K S)}
    (h : Update.Distinct updates) {w : Window P T Q K S}
    (hrun : Update.run Window.update (Window.bounded k t) updates = .ok w) :
    ∃ m, Update.run update empty updates = .ok m ∧ Follows (History.empty.feed updates) m := by
  induction updates using List.reverseRecOn generalizing w with
  | nil => exact ⟨empty, rfl, rfl, rfl⟩
  | append_singleton updates u ih =>
    obtain ⟨v, hv, hlast⟩ := Update.run_concat_eq_ok.1 hrun
    obtain ⟨m, hm, hfollows⟩ := ih h.init hv
    obtain ⟨n, htracks, hmeets⟩ := Window.feed_tracks k t h.init
    have hlinked := (Window.feed_kept k t h.init).linked
    rw [Window.feed_eq_of_run hv] at htracks hmeets hlinked
    rw [History.feed_concat, History.accept]
    cases hhistory : (History.empty.feed updates).update u.vector u.sample with
    | error error =>
      cases hlast.symm.trans ((htracks.update_error_iff hlinked hmeets _ _ _).2 hhistory)
    | ok after =>
      obtain ⟨next, hnext, hfollows'⟩ := hfollows.update hhistory
      exact ⟨next, Update.run_concat_eq_ok.2 ⟨m, hm, hnext⟩, hfollows'⟩

/-! ### Agreement -/

/-- The memories tell the same of the latest vector: the sample, the vector, and the candidate of
greatest belief. Only the predecessors are not always the same, since the candidates of a window of
one step have forgotten them. -/
structure Agrees [LE K] [DecidableLE K] (m : Latest P T Q K S) (w : Window P T Q K S) : Prop where
  sample : m.sample? = w.sample?
  time : m.time? = w.time?
  vector : w.vector = if w.steps.length = 1 then m.vector.map Candidate.forget else m.vector
  estimate : w.estimate? =
    if w.steps.length = 1 then m.estimate?.map Candidate.forget else m.estimate?

/-- **The memories agree**: where a window of any bounds accepts distinct updates, the memory of the
latest vector accepts them as well, and after each of them both have the same sample, the same
candidates in the latest vector, and the same estimate. What this memory refuses then, being left
as it was, is what the window refuses because its sample is too late. -/
theorem run_agrees [LE K] [DecidableLE K] (k t : Option Nat) {updates : List (Update P T Q K S)}
    (h : Update.Distinct updates) {w : Window P T Q K S}
    (hrun : Update.run Window.update (Window.bounded k t) updates = .ok w) (n : Nat) :
    ∃ v m, Update.run Window.update (Window.bounded k t) (updates.take n) = .ok v ∧
      Update.run update empty (updates.take n) = .ok m ∧ Agrees m v ∧
      ∀ (u : Update P T Q K S) error after,
        submit u.vector u.sample m = .error error after ↔
          after = m ∧ v.update u.vector u.sample = .error error ∧
            ∃ last time, error = .outOfOrder last time := by
  obtain ⟨v, hv⟩ := Update.exists_run_take hrun n
  obtain ⟨m, hm, hfollows⟩ := exists_follows k t (h.take n) hv
  obtain ⟨i, htracks, hmeets⟩ := Window.feed_tracks k t (h.take n)
  have hlinked := (Window.feed_kept k t (h.take n)).linked
  rw [Window.feed_eq_of_run hv] at htracks hmeets hlinked
  have hvector := htracks.vector_eq hmeets
  rw [← hfollows.vector] at hvector
  have hsample := htracks.sample?_eq.trans hfollows.sample.symm
  refine ⟨v, m, hv, hm, ⟨hsample.symm, ?_, hvector, ?_⟩, fun u error after => ?_⟩
  · rw [time?, Window.time?, hsample]
  · rw [Window.estimate?, hvector, estimate?]
    split
    · rw [Window.mostLikely?_map_forget]
    · rfl
  · rw [submit_eq, htracks.update_error_iff hlinked hmeets, ← hfollows.update_error_iff]
    cases m.update u.vector u.sample with
    | ok next => simp
    | error other => simp [and_comm, eq_comm]

end Latest

/-- Updates that are all accepted: two vectors of which the second goes on from the first, a break,
and a vector that starts anew. The belief and the score of a candidate come last. -/
def Update.resumed : List (Update Unit Unit Int Int Int) :=
  let c (id : CandidateId) (predecessor : Option CandidateId) (belief score : Int) :
    Candidate Unit Unit Int Int := ⟨id, (), predecessor, none, belief, score⟩
  [⟨[c "a1" none 3 5, c "a2" none 5 2], 0⟩,
    ⟨[c "b1" (some "a2") 2 4, c "b2" (some "a1") 7 1, c "b3" (some "a2") 7 3], 1⟩,
    ⟨[], 4⟩,
    ⟨[c "d1" none 1 1, c "d2" none 6 0], 5⟩]

/-- After the second update a window of one step has forgotten the predecessors, and has the same
estimate, `b2`. An earlier sample is refused by both memories. -/
theorem Latest.run_agrees_resumed :
    Update.Distinct Update.resumed ∧
      ∃ w v m, Update.run Window.update (.bounded (some 0) none) Update.resumed = .ok w ∧
        Update.run Window.update (.bounded (some 0) none) (Update.resumed.take 2) = .ok v ∧
        Update.run update empty (Update.resumed.take 2) = .ok m ∧ Agrees m v ∧
        m.vector.map Candidate.predecessor = [some "a2", some "a1", some "a2"] ∧
        v.vector.map Candidate.predecessor = [none, none, none] ∧
        m.estimate?.map Candidate.id = some "b2" ∧
        v.update [⟨"c", (), none, none, 1, 1⟩] 0 = .error (.outOfOrder 1 0) ∧
        submit [⟨"c", (), none, none, 1, 1⟩] 0 m = .error (.outOfOrder 1 0) m := by
  have h : Update.Distinct Update.resumed := ⟨by decide, by decide⟩
  obtain ⟨w, hw⟩ : ∃ w, Update.run Window.update (.bounded (some 0) none) Update.resumed = .ok w :=
    ⟨_, rfl⟩
  obtain ⟨v, m, hv, hm, hagrees, hrefused⟩ := run_agrees (some 0) none h hw 2
  obtain rfl := Except.ok.inj (hv.symm.trans rfl)
  obtain rfl := Except.ok.inj (hm.symm.trans rfl)
  have hlate := (hrefused ⟨[⟨"c", (), none, none, 1, 1⟩], 0⟩ (.outOfOrder 1 0) _).2
    ⟨rfl, rfl, 1, 0, rfl⟩
  exact ⟨h, w, _, _, hw, hv, hm, hagrees, by decide +kernel, by decide +kernel, by decide +kernel,
    rfl, hlate⟩

end RoadMatching
