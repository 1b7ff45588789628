import RoadMatching.Proofs.Memory.History
import RoadMatching.Proofs.Memory.Retention

/-!
What is read out of a memory is what a history gives.

* `Tracks`: a memory whose steps are the last records of a history, with some of their candidates.
  Pruning, appending and dropping the oldest step keep it, and `feed_tracks` is the run lemma.
* `Tracks.walkBack_take`: the way back through the steps is the one through the records.
* `feed_readout`: a memory of any bounds refuses what a history refuses, and gives the same last
  vector, estimate and sequence, as far back as its steps go.
-/

namespace RoadMatching

variable {P T Q K S : Type}

namespace Window

variable {w : Window P T Q K S} {history : History P T Q K S} {n : Nat}

/-! ### The simulation -/

/-- The steps of a memory are the records of a history from the index `n` on. The candidates held
are as submitted, except that those of the oldest step have forgotten their predecessors. -/
structure Tracks (n : Nat) (history : History P T Q K S) (w : Window P T Q K S) : Prop where
  broken : w.broken = history.broken
  length : history.records.length = n + w.steps.length
  start : w.steps = [] → n = 0
  records : ∀ r ∈ history.records, r.best ∈ r.vector ∧ (r.vector.map Candidate.id).Nodup
  steps : ∀ i step, w.steps[i]? = some step → ∃ r, history.records[n + i]? = some r ∧
    step.sample = r.sample ∧ step.estimate = r.best.id ∧ ∀ id ∈ step.members, ∃ c ∈ r.vector,
      c.id = id ∧ w.candidate? id = some (if i = 0 then c.forget else c)

lemma tracks_bounded (k t : Option Nat) :
    Tracks 0 .empty (bounded k t : Window P T Q K S) where
  broken := rfl
  length := rfl
  start _ := rfl
  records r h := by cases h
  steps i step h := by cases h

namespace Tracks

/-- A break shows in both. -/
lemma afterBreak (h : Tracks n history w) (breaks : Nat) :
    Tracks n { history with broken := true } { w with breaks := breaks, broken := true } :=
  ⟨rfl, h.length, h.start, h.records, h.steps⟩

/-- A memory with fewer candidates tracks the history still. -/
lemma trimmed {v : Window P T Q K S} (h : Tracks n history w) (hv : Trimmed w v) :
    Tracks n history v where
  broken := hv.broken.trans h.broken
  length := by rw [h.length, hv.length_eq]
  start hnil := h.start (List.eq_nil_of_length_eq_zero (by rw [← hv.length_eq, hnil]; rfl))
  records := h.records
  steps i step hstep := by
    have houtline : (w.steps[i]?).map (fun s => (s.sample, s.estimate)) =
        some (step.sample, step.estimate) := by
      rw [← List.getElem?_map, ← hv.outline, List.getElem?_map, hstep]
      rfl
    rw [Option.map_eq_some_iff] at houtline
    obtain ⟨old, hold, heq⟩ := houtline
    obtain ⟨r, hr, hsample, hestimate, hmembers⟩ := h.steps i old hold
    rw [Prod.mk.injEq] at heq
    refine ⟨r, hr, heq.1 ▸ hsample, heq.2 ▸ hestimate, fun id hid => ?_⟩
    obtain ⟨other, hother, hid'⟩ := hv.members i id ⟨step, hstep, hid⟩
    rw [hold, Option.some.injEq] at hother
    rw [hv.candidates i id ⟨step, hstep, hid⟩]
    exact hmembers id (hother ▸ hid')

/-- A vector appended is a record appended. -/
lemma append {vector : List (Candidate P T K S)} {best : Candidate P T K S}
    (h : Tracks n history w) (sample : Q) (hlinked : Linked (Candidate.predecessors vector) w)
    (hnodup : (vector.map Candidate.id).Nodup)
    (hfresh : ∀ id ∈ vector.map Candidate.id, id ∉ w.held.keys) (hbest : best ∈ vector) :
    Tracks n ⟨history.records ++ [⟨vector, sample, best⟩], false⟩
      (w.append vector sample best.id) := by
  refine ⟨rfl, ?_, fun hnil => ?_, fun r hr => ?_, fun i step hstep => ?_⟩
  · rw [List.length_append, Window.append, List.length_append, h.length]
    rfl
  · rw [Window.append, List.append_eq_nil_iff] at hnil
    cases hnil.2
  · rcases List.mem_append.1 hr with hr | hr
    · exact h.records r hr
    · rw [List.mem_singleton.1 hr]
      exact ⟨hbest, hnodup⟩
  · rw [Window.append, List.getElem?_append] at hstep
    split at hstep
    · next hlt =>
      obtain ⟨r, hr, hsample, hestimate, hmembers⟩ := h.steps i step hstep
      have hlen := (List.getElem?_eq_some_iff.1 hr).1
      refine ⟨r, ?_, hsample, hestimate, fun id hid => ?_⟩
      · rw [List.getElem?_append_left hlen, hr]
      · obtain ⟨c, hc, hcid, hfind⟩ := hmembers id hid
        have hold : id ∉ vector.map Candidate.id := fun hmem =>
          hfresh id hmem ((hlinked.held id).2 ⟨i, step, hstep, hid⟩)
        refine ⟨c, hc, hcid, ?_⟩
        rw [candidate?, find?_append_of_not_mem hold]
        exact hfind
    · next hge =>
      have hi : i = w.steps.length := by
        have hlt := (List.getElem?_eq_some_iff.1 hstep).1
        rw [List.length_singleton] at hlt
        omega
      subst hi
      rw [Nat.sub_self] at hstep
      cases hstep
      refine ⟨⟨vector, sample, best⟩, ?_, rfl, rfl, fun id hid => ?_⟩
      · rw [← h.length, List.getElem?_concat_length]
      · obtain ⟨c, hc, rfl⟩ := List.mem_map.1 hid
        refine ⟨c, hc, rfl, ?_⟩
        rw [candidate?, find?_append_of_mem hnodup hc, Option.map_some, Option.some.injEq]
        split
        · next hzero =>
          -- a first vector names no predecessors
          have hnone : c.predecessor = none := by
            have horigin := hlinked.origin
            rw [← hzero, named_length, Candidate.predecessors, List.filterMap_eq_nil_iff] at horigin
            exact horigin c hc
          rw [Candidate.forget, ← hnone]
        · rfl

/-- Without its oldest step, a memory tracks the history from the next record on. -/
lemma dropFront (h : Tracks n history w) (hlinked : Linked [] w) (hlen : 1 < w.steps.length) :
    Tracks (n + 1) history w.dropFront := by
  have htail := steps_dropFront hlen
  obtain ⟨front, second, rest, hsteps, hdrop⟩ := dropFront_cases hlen
  refine ⟨?_, ?_, fun hnil => ?_, h.records, fun i step hstep => ?_⟩
  · rw [hdrop]
    exact h.broken
  · rw [htail, List.length_tail, h.length]
    omega
  · rw [hdrop] at hnil
    cases hnil
  · rw [htail, List.getElem?_tail] at hstep
    obtain ⟨r, hr, hsample, hestimate, hmembers⟩ := h.steps (i + 1) step hstep
    refine ⟨r, ?_, hsample, hestimate, fun id hid => ?_⟩
    · rw [← hr]
      congr 1
      omega
    · obtain ⟨c, hc, hcid, hfind⟩ := hmembers id hid
      refine ⟨c, hc, hcid, ?_⟩
      rw [if_neg (Nat.succ_ne_zero i), candidate?, Option.map_eq_some_iff] at hfind
      obtain ⟨e, he, rfl⟩ := hfind
      rw [candidate?, hlinked.find?_dropFront hlen ⟨step, hstep, hid⟩, he]
      by_cases hi : i = 0 <;> simp [hi]

end Tracks

/-! ### Accepting and refusing -/

/-- The last vector of a memory is the last one of a history, by its identifiers. -/
def Meets (history : History P T Q K S) (w : Window P T Q K S) : Prop :=
  w.lastMembers = history.vector.map Candidate.id

lemma lastMembers_append {vector : List (Candidate P T K S)} {sample : Q} {best : CandidateId} :
    (w.append vector sample best).lastMembers = vector.map Candidate.id := by
  rw [lastMembers, append, List.getLast?_concat]
  rfl

lemma lastMembers_dropFront (hlen : 1 < w.steps.length) :
    w.dropFront.lastMembers = w.lastMembers := by
  obtain ⟨front, second, rest, hsteps, hdrop⟩ := dropFront_cases hlen
  rw [lastMembers, lastMembers, hdrop, hsteps, List.getLast?_cons_cons]

/-- Either both are empty, or the last step is the last record. -/
lemma Tracks.last_cases (h : Tracks n history w) :
    (w.steps = [] ∧ history.records = []) ∨
    ∃ i step r, w.steps.length = i + 1 ∧ w.steps[i]? = some step ∧
      w.steps.getLast? = some step ∧ history.records[n + i]? = some r ∧
      history.records.getLast? = some r := by
  by_cases hnil : w.steps = []
  · refine .inl ⟨hnil, List.eq_nil_of_length_eq_zero ?_⟩
    rw [h.length, h.start hnil, hnil]
    rfl
  · have hlast := List.getLast?_eq_some_getLast hnil
    have hstep := hlast
    have hpos := List.length_pos_iff.2 hnil
    rw [List.getLast?_eq_getElem?] at hstep
    obtain ⟨r, hr, -⟩ := h.steps _ _ hstep
    refine .inr ⟨_, _, r, by omega, hstep, hlast, hr, ?_⟩
    rw [List.getLast?_eq_getElem?, ← hr, h.length]
    congr 1
    omega

/-- The last sample is the same. -/
lemma Tracks.sample?_eq (h : Tracks n history w) : w.sample? = history.sample? := by
  rw [sample?, History.sample?]
  rcases h.last_cases with ⟨hnil, hrecords⟩ | ⟨i, step, r, -, hstep, hlast, hr, hlast'⟩
  · rw [hnil, hrecords]
    rfl
  · obtain ⟨r', hr', hsample, -⟩ := h.steps i step hstep
    rw [hr, Option.some.injEq] at hr'
    rw [hlast, hlast', Option.map_some, Option.map_some, hsample, hr']

/-- A memory refuses what the history refuses, for the same reason. -/
lemma Tracks.fault?_eq [Timed Q] (h : Tracks n history w) (hlinked : Linked [] w)
    (hmeets : Meets history w) (vector : List (Candidate P T K S)) (sample : Q) :
    w.fault? vector sample = history.fault? vector sample := by
  have htime : w.time? = history.time? := by rw [time?, History.time?, h.sample?_eq]
  have hlatest : w.latest = if history.broken then [] else history.vector.map Candidate.id := by
    rw [latest, h.broken, ← hmeets, lastMembers]
  have hheld : ∀ p, (w.latest.contains p && w.held.contains p) = w.latest.contains p := by
    intro p
    cases hp : w.latest.contains p with
    | false => rfl
    | true =>
      obtain ⟨-, step, hstep, hid⟩ := mem_latest (List.contains_iff_mem.1 hp)
      obtain ⟨i, -, hat⟩ := exists_at_last hstep hid
      obtain ⟨e, he⟩ := hlinked.exists_find? hat
      rw [Table.contains, he]
      rfl
  rw [fault?, History.fault?, htime, ← hlatest]
  simp only [hheld]

section Updates

variable [Timed Q] [LT S] [DecidableLT S]

/-- An update is refused by both or by neither. -/
lemma Tracks.update_error_iff (h : Tracks n history w) (hlinked : Linked [] w)
    (hmeets : Meets history w) (vector : List (Candidate P T K S)) (sample : Q)
    (error : MemoryError) :
    w.update vector sample = .error error ↔ history.update vector sample = .error error := by
  rw [update, History.update, h.fault?_eq hlinked hmeets]
  cases Candidate.best? vector with
  | none => simp
  | some best => cases history.fault? vector sample <;> simp

/-- A memory fed distinct updates tracks the history of the same updates. -/
theorem feed_tracks (k t : Option Nat) {updates : List (Update P T Q K S)}
    (h : Update.Distinct updates) :
    ∃ n, Tracks n (History.empty.feed updates) ((bounded k t).feed updates) ∧
      Meets (History.empty.feed updates) ((bounded k t).feed updates) := by
  induction updates using List.reverseRecOn with
  | nil => exact ⟨0, tracks_bounded k t, rfl⟩
  | append_singleton updates u ih =>
    obtain ⟨n, htracks, hmeets⟩ := ih h.init
    have hkept := feed_kept k t h.init
    obtain ⟨hnodup, hfresh, hlen⟩ := h.last
    rw [feed_concat, History.feed_concat]
    set w := (bounded k t).feed updates with hw
    set history := History.empty.feed updates with hhistory
    rw [accept, History.accept]
    rcases update_cases w u.vector u.sample with
      ⟨hempty, heq⟩ | ⟨error, -, -, heq⟩ | ⟨best, hbest, hfault, heq⟩
    · have heq' : history.update u.vector u.sample = .ok { history with broken := true } := by
        rw [History.update, hempty]
        rfl
      rw [heq, heq']
      exact ⟨n, htracks.afterBreak _, hmeets⟩
    · have heq' := (htracks.update_error_iff hkept.linked hmeets _ _ _).1 heq
      rw [heq, heq']
      exact ⟨n, htracks, hmeets⟩
    · have heq' : history.update u.vector u.sample =
          .ok ⟨history.records ++ [⟨u.vector, u.sample, best⟩], false⟩ := by
        rw [History.update, hbest, ← htracks.fault?_eq hkept.linked hmeets, hfault]
      rw [heq, heq']
      obtain ⟨hlinked, -, htrimmed, hnew⟩ := hkept.ready hfault hfresh hlen
      have hmem := Candidate.mem_of_best? hbest
      have happended := (htracks.trimmed htrimmed).append u.sample hlinked hnodup hnew hmem
      have hlast (r : History.Record P T Q K S) : (history.records ++ [r]).getLast? = some r :=
        List.getLast?_concat
      refine (evict_induction (motive := fun v => Linked [] v ∧ ∃ n, Tracks n _ v ∧ Meets _ v)
        ⟨hlinked.append hnodup hnew (List.mem_map_of_mem hmem), n, happended, ?_⟩ ?_).2
      · rw [Meets, lastMembers_append, History.vector, hlast]
        rfl
      · rintro v hlen ⟨hlinked, m, hm, hmeets⟩
        refine ⟨hlinked.dropFront hlen, m + 1, hm.dropFront hlinked hlen, ?_⟩
        rw [Meets, lastMembers_dropFront hlen]
        exact hmeets

end Updates

/-! ### Reading -/

/-- A candidate of a vector is found by its identifier. -/
lemma find?_eq_some_of_nodup {vector : List (Candidate P T K S)}
    (hnodup : (vector.map Candidate.id).Nodup) {c : Candidate P T K S} (hc : c ∈ vector) :
    vector.find? (fun d => d.id = c.id) = some c := by
  obtain ⟨d, hd⟩ : ∃ d, vector.find? (fun d => d.id = c.id) = some d :=
    Option.isSome_iff_exists.1 (List.find?_isSome.2 ⟨c, hc, decide_eq_true rfl⟩)
  have hid : d.id = c.id := by simpa using List.find?_some hd
  rw [hd, List.inj_on_of_nodup_map hnodup (List.mem_of_find?_eq_some hd) hc hid]

namespace Tracks

/-- At each step the memory goes back to the candidate that the history goes back to. -/
lemma exists_chosen (h : Tracks n history w) (hlinked : Linked [] w) {i : Nat} {step : Step Q}
    (hstep : w.steps[i]? = some step) {next : Option CandidateId}
    (hnext : ∀ p, next = some p → w.At i p) :
    ∃ r c, history.records[n + i]? = some r ∧ c.id ∈ step.members ∧
      (next.bind fun id => r.vector.find? fun d => d.id = id).getD r.best = c ∧
      w.candidate? c.id = some (if i = 0 then c.forget else c) ∧
      (next.bind w.candidate?).or (w.candidate? step.estimate) = w.candidate? c.id := by
  obtain ⟨r, hr, -, hestimate, hmembers⟩ := h.steps i step hstep
  obtain ⟨hbest, hnodup⟩ := h.records r (List.mem_of_getElem? hr)
  cases next with
  | none =>
    have hmem := hlinked.estimates step (List.mem_of_getElem? hstep)
    obtain ⟨c, hc, hid, hfind⟩ := hmembers step.estimate hmem
    have heq : c = r.best := List.inj_on_of_nodup_map hnodup hc hbest (hid.trans hestimate)
    exact ⟨r, c, hr, hid ▸ hmem, heq.symm, hid ▸ hfind, by rw [hid]; rfl⟩
  | some p =>
    obtain ⟨step', hstep', hmem⟩ := hnext p rfl
    rw [hstep, Option.some.injEq] at hstep'
    subst hstep'
    obtain ⟨c, hc, rfl, hfind⟩ := hmembers p hmem
    refine ⟨r, c, hr, hmem, ?_, hfind, ?_⟩
    · rw [Option.bind_some, find?_eq_some_of_nodup hnodup hc, Option.getD_some]
    · rw [Option.bind_some, hfind, Option.some_or]

/-- The way back from a step is the way back from its record, as far as the steps go. -/
lemma walkBack_take (h : Tracks n history w) (hlinked : Linked [] w) {i : Nat}
    (hi : i ≤ w.steps.length) {next : Option CandidateId}
    (hnext : ∀ p, next = some p → ∃ j, i = j + 1 ∧ w.At j p) :
    (w.walkBack next (w.steps.take i).reverse).reverse =
      ((History.walkBack next (history.records.take (n + i)).reverse).reverse.drop n).modifyHead
        Candidate.forget := by
  induction i generalizing next with
  | zero =>
    have hlen :
        (History.walkBack next (history.records.take (n + 0)).reverse).reverse.length ≤ n := by
      rw [List.length_reverse, History.length_walkBack, List.length_reverse, List.length_take]
      omega
    rw [List.drop_eq_nil_of_le hlen]
    rfl
  | succ i ih =>
    have hstep := List.getElem?_eq_getElem hi
    have hhere : ∀ p, next = some p → w.At i p := by
      intro p hp
      obtain ⟨j, hj, hat⟩ := hnext p hp
      have hij : i = j := by omega
      exact hij ▸ hat
    obtain ⟨r, c, hr, hmem, hchosen, hfind, hor⟩ := h.exists_chosen hlinked hstep hhere
    have hsteps : (w.steps.take (i + 1)).reverse = w.steps[i] :: (w.steps.take i).reverse := by
      rw [List.take_add_one, hstep]
      simp
    have hrecords : (history.records.take (n + (i + 1))).reverse =
        r :: (history.records.take (n + i)).reverse := by
      rw [← Nat.add_assoc, List.take_add_one, hr]
      simp
    have hback : ∀ p, (if i = 0 then c.forget else c).predecessor = some p →
        ∃ j, i = j + 1 ∧ w.At j p := by
      intro p hp
      have hpointer : w.pointer? c.id = some p := by rw [pointer?_eq, hfind, Option.bind_some, hp]
      obtain ⟨j, hj, -, hat⟩ := hlinked.exists_before ⟨_, hstep, hmem⟩ hpointer
      exact ⟨j, hj, hat⟩
    rw [hsteps, hrecords, walkBack, History.walkBack, hchosen, hor, hfind]
    simp only [List.reverse_cons]
    -- the way back from the record before, of which `n` candidates are left out
    set before := (History.walkBack c.predecessor (history.records.take (n + i)).reverse).reverse
      with hbefore
    have hlen : before.length = n + i := by
      rw [hbefore, List.length_reverse, History.length_walkBack, List.length_reverse,
        List.length_take, h.length]
      omega
    rw [List.drop_append_of_le_length (by omega)]
    cases i with
    | zero =>
      rw [List.drop_eq_nil_of_le (by omega)]
      rfl
    | succ i =>
      rw [if_neg (Nat.succ_ne_zero i)] at hback ⊢
      rw [ih (by omega) hback, ← hbefore]
      cases hrest : before.drop n with
      | nil =>
        rw [List.drop_eq_nil_iff] at hrest
        omega
      | cons first rest => rfl

/-- A sequence read out is the end of that of the history, and its first candidate has forgotten its
predecessor. -/
lemma sequence_eq (h : Tracks n history w) (hlinked : Linked [] w) :
    w.sequence = (history.sequence.drop n).modifyHead Candidate.forget := by
  have hnone : ∀ p, (none : Option CandidateId) = some p →
      ∃ j, w.steps.length = j + 1 ∧ w.At j p := by
    intro p hp
    cases hp
  have key := h.walkBack_take hlinked le_rfl hnone
  rwa [List.take_length, ← h.length, List.take_length] at key

/-- The last vector is that of the history, as it was submitted. In a memory of one step it has
forgotten its predecessors. -/
lemma vector_eq (h : Tracks n history w) (hmeets : Meets history w) :
    w.vector =
      if w.steps.length = 1 then history.vector.map Candidate.forget else history.vector := by
  rcases h.last_cases with ⟨hnil, hrecords⟩ | ⟨i, step, r, hlen, hstep, hlast, hr, hlast'⟩
  · rw [vector, History.vector, hnil, hrecords]
    rfl
  · obtain ⟨r', hr', -, -, hmembers⟩ := h.steps i step hstep
    rw [hr, Option.some.injEq] at hr'
    subst hr'
    have hids : step.members = r.vector.map Candidate.id := by
      rw [Meets, lastMembers, History.vector, hlast, hlast'] at hmeets
      exact hmeets
    have hnodup := (h.records r (List.mem_of_getElem? hr)).2
    have hfind : ∀ c ∈ r.vector, w.candidate? c.id = some (if i = 0 then c.forget else c) := by
      intro c hc
      obtain ⟨d, hd, hid, hfind⟩ := hmembers c.id (hids ▸ List.mem_map_of_mem hc)
      rw [hfind, List.inj_on_of_nodup_map hnodup hd hc hid]
    have hvector : w.vector = step.members.filterMap w.candidate? := by
      rw [vector, hlast]
      rfl
    have hrecord : history.vector = r.vector := by
      rw [History.vector, hlast']
      rfl
    have hread : step.members.filterMap w.candidate? =
        r.vector.map fun c => if i = 0 then c.forget else c := by
      rw [hids, List.filterMap_map, ← List.filterMap_eq_map]
      exact List.filterMap_congr hfind
    have hone : w.steps.length = 1 ↔ i = 0 := by omega
    rw [hvector, hrecord, hread]
    simp only [hone]
    by_cases hi : i = 0 <;> simp [hi]

/-- The last vector is that of the history, but for predecessors that are forgotten. -/
lemma forget_vector_eq (h : Tracks n history w) (hmeets : Meets history w) :
    w.vector.map Candidate.forget = history.vector.map Candidate.forget := by
  rw [h.vector_eq hmeets]
  split
  · rw [List.map_map]
    rfl
  · rfl

end Tracks

/-- A candidate at the end takes over unless its belief is at most that of the most likely one. -/
lemma mostLikely?_concat [LE K] [DecidableLE K] (vector : List (Candidate P T K S))
    (c : Candidate P T K S) :
    Candidate.mostLikely? (vector ++ [c]) =
      match Candidate.mostLikely? vector with
      | some e => if c.belief ≤ e.belief then some e else some c
      | none => some c := by
  rw [Candidate.mostLikely?, Candidate.mostLikely?, List.foldl_append]
  rfl

/-- Forgetting predecessors changes no belief, so the same candidate is the most likely one. -/
lemma mostLikely?_map_forget [LE K] [DecidableLE K] (vector : List (Candidate P T K S)) :
    Candidate.mostLikely? (vector.map Candidate.forget) =
      (Candidate.mostLikely? vector).map Candidate.forget := by
  induction vector using List.reverseRecOn with
  | nil => rfl
  | append_singleton vector c ih =>
    rw [List.map_append, List.map_singleton, mostLikely?_concat, mostLikely?_concat, ih]
    cases Candidate.mostLikely? vector with
    | none => rfl
    | some e =>
      by_cases hle : c.belief ≤ e.belief <;> simp [Candidate.forget, hle]

/-- What a memory gives is what a history gives, as far back as its steps go; its oldest candidates
have forgotten their predecessors. -/
structure Readout [Timed Q] [LE K] [DecidableLE K] [LT S] [DecidableLT S]
    (history : History P T Q K S) (w : Window P T Q K S) : Prop where
  refusals : ∀ (u : Update P T Q K S) error, w.update u.vector u.sample = .error error ↔
    history.update u.vector u.sample = .error error
  sample : w.sample? = history.sample?
  time : w.time? = history.time?
  vector : w.vector.map Candidate.forget = history.vector.map Candidate.forget
  estimate : w.estimate?.map Candidate.forget = history.estimate?.map Candidate.forget
  length : w.sequence.length = w.steps.length
  sequence : w.sequence =
    (history.sequence.drop (history.sequence.length - w.steps.length)).modifyHead Candidate.forget

/-- **Pruning and eviction do not change what is read out**: after distinct updates, a memory of any
bounds refuses the updates that a history refuses, and has the same last sample, vector and
estimate, and the end of the same sequence, with one candidate for each step. -/
theorem feed_readout [Timed Q] [LE K] [DecidableLE K] [LT S] [DecidableLT S] (k t : Option Nat)
    {updates : List (Update P T Q K S)} (h : Update.Distinct updates) :
    Readout (History.empty.feed updates) ((bounded k t).feed updates) := by
  obtain ⟨n, htracks, hmeets⟩ := feed_tracks k t h
  have hlinked := (feed_kept k t h).linked
  have hlength := htracks.length
  have hdropped : (History.empty.feed updates).sequence.length -
      ((bounded k t).feed updates).steps.length = n := by
    rw [History.length_sequence]
    omega
  refine ⟨fun u error => htracks.update_error_iff hlinked hmeets _ _ _, htracks.sample?_eq, ?_,
    htracks.forget_vector_eq hmeets, ?_, ?_, ?_⟩
  · rw [time?, History.time?, htracks.sample?_eq]
  · rw [estimate?, History.estimate?, ← mostLikely?_map_forget, ← mostLikely?_map_forget,
      htracks.forget_vector_eq hmeets]
  · rw [htracks.sequence_eq hlinked, List.length_modifyHead, List.length_drop,
      History.length_sequence]
    omega
  · rw [hdropped, htracks.sequence_eq hlinked]

/-- On the fork, a memory of three steps gives the last three of the five candidates of the whole
sequence. -/
theorem feed_readout_fork :
    Update.Distinct Update.fork ∧
      (History.empty.feed Update.fork).sequence.map Candidate.id = ["a3", "b3", "c2", "d2", "e1"] ∧
      ((bounded (some 2) none).feed Update.fork).sequence.map Candidate.id = ["c2", "d2", "e1"] ∧
      Readout (History.empty.feed Update.fork) ((bounded (some 2) none).feed Update.fork) := by
  have h : Update.Distinct Update.fork := ⟨by decide, by decide⟩
  exact ⟨h, by decide +kernel, by decide +kernel, feed_readout (some 2) none h⟩

end Window

end RoadMatching
