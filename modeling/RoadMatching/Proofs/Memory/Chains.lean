import RoadMatching.Proofs.Memory.Appended

/-!
Candidates and their predecessors.

What a memory holds was in some vector, and what the filter says about a candidate and the one that
it comes from stays true however often the memory is pruned or its oldest steps are dropped. For this
neither may depend on anything but the payloads and the transition.

* `Consists`: each candidate held is as one property says, and so are each two of which one precedes
  the other, by another property.
* `Consists.trimmed`, `Consists.append`, `Consists.dropFront`: it is kept by what an update does.
  `Consists.accept` is the step lemma.
* `Consists.sequence`: the sequence read out starts with a candidate that nothing precedes, and each
  of its other candidates follows the predecessor that it names, if it names one.
-/

namespace RoadMatching

variable {P T Q K S : Type}

namespace Window

variable {w v : Window P T Q K S} {next seen : List CandidateId} {good : P → Option T → Prop}
  {joined : P → P → Option T → Prop}

/-- The payload and the transition of each candidate held are as `good` says. The predecessor that it
names is held too, and the payloads of both and the transition are as `joined` says. -/
structure Consists (good : P → Option T → Prop) (joined : P → P → Option T → Prop)
    (w : Window P T Q K S) : Prop where
  good : ∀ id c, w.candidate? id = some c → good c.payload c.transition
  joined : ∀ id c p, w.candidate? id = some c → c.predecessor = some p →
    ∃ d, w.candidate? p = some d ∧ joined d.payload c.payload c.transition

/-! ### Updates -/

section Updates

lemma consists_bounded (k t : Option Nat) :
    Consists good joined (bounded k t : Window P T Q K S) where
  good id c hc := by cases hc
  joined id c p hc := by cases hc

/-- The predecessor of a candidate found is in some step. -/
lemma Linked.exists_at_predecessor (h : Linked next w) {id p : CandidateId}
    {c : Candidate P T K S} (hc : w.candidate? id = some c) (hp : c.predecessor = some p) :
    ∃ i, w.At i p := by
  obtain ⟨i, hat⟩ := h.exists_at hc
  obtain ⟨j, -, -, hbefore⟩ := h.exists_before hat (by rw [pointer?_eq, hc, Option.bind_some, hp])
  exact ⟨j, hbefore⟩

/-- What a vector to come names is in the last step. -/
lemma Linked.exists_at_next (h : Linked next w) {p : CandidateId} (hp : p ∈ next) :
    ∃ i, w.At i p := by
  have hlen : w.steps.length ≠ 0 := by
    intro hzero
    have hnone := h.origin
    rw [← hzero, named_length] at hnone
    rw [hnone] at hp
    cases hp
  refine ⟨w.steps.length - 1, h.before _ (by omega) p ?_⟩
  rwa [show w.steps.length - 1 + 1 = w.steps.length by omega, named_length]

/-- A candidate in some step is found. -/
lemma Linked.exists_candidate? (h : Linked next w) {i : Nat} {id : CandidateId} (hat : w.At i id) :
    ∃ c, w.candidate? id = some c := by
  obtain ⟨e, he⟩ := h.exists_find? hat
  exact ⟨e.candidate, by rw [candidate?, he, Option.map_some]⟩

/-- A candidate of the last vector is found under its name. -/
lemma Kept.candidate?_of_mem_vector (h : Kept seen w) {c : Candidate P T K S} (hc : c ∈ w.vector) :
    w.candidate? c.id = some c := by
  rw [Window.vector] at hc
  cases hlast : w.steps.getLast? with
  | none =>
    rw [hlast] at hc
    cases hc
  | some step =>
    rw [hlast] at hc
    obtain ⟨id, -, hfind⟩ := List.mem_filterMap.1 hc
    obtain ⟨i, hat⟩ := h.linked.exists_at hfind
    rw [h.names i id c hat hfind]
    exact hfind

/-- Fewer candidates in the same steps make no difference. -/
lemma Consists.trimmed (h : Consists good joined w) (hv : Trimmed w v) (hlinked : Linked next v) :
    Consists good joined v := by
  have hold : ∀ id c, v.candidate? id = some c → w.candidate? id = some c := by
    intro id c hc
    obtain ⟨i, hat⟩ := hlinked.exists_at hc
    exact hv.candidates i id hat ▸ hc
  refine ⟨fun id c hc => h.good id c (hold id c hc), fun id c p hc hp => ?_⟩
  obtain ⟨j, hbefore⟩ := hlinked.exists_at_predecessor hc hp
  rw [hv.candidates j p hbefore]
  exact h.joined id c p (hold id c hc) hp

/-- A vector is appended whose candidates have the properties. -/
lemma Consists.append (h : Consists good joined w) {vector : List (Candidate P T K S)}
    (hlinked : Linked (Candidate.predecessors vector) w)
    (hnodup : (vector.map Candidate.id).Nodup)
    (hfresh : ∀ id ∈ vector.map Candidate.id, id ∉ w.held.keys)
    (hgood : ∀ c ∈ vector, good c.payload c.transition)
    (hjoined : ∀ c ∈ vector, ∀ p, c.predecessor = some p →
      ∃ d, w.candidate? p = some d ∧ joined d.payload c.payload c.transition)
    (sample : Q) (best : CandidateId) : Consists good joined (w.append vector sample best) := by
  have hold : ∀ {i id}, w.At i id → (w.append vector sample best).candidate? id =
      w.candidate? id := by
    intro i id hat
    rw [candidate?, find?_append_of_not_mem fun hid =>
      hfresh id hid ((hlinked.held id).2 ⟨i, hat⟩), candidate?]
  have hcases : ∀ id c, (w.append vector sample best).candidate? id = some c →
      w.candidate? id = some c ∨ c ∈ vector := by
    intro id c hc
    by_cases hid : id ∈ vector.map Candidate.id
    · obtain ⟨d, hd, rfl⟩ := List.mem_map.1 hid
      rw [candidate?, find?_append_of_mem hnodup hd, Option.map_some, Option.some.injEq] at hc
      exact .inr (hc ▸ hd)
    · rw [candidate?, find?_append_of_not_mem hid] at hc
      exact .inl hc
  refine ⟨fun id c hc => ?_, fun id c p hc hp => ?_⟩
  · rcases hcases id c hc with hc | hc
    · exact h.good id c hc
    · exact hgood c hc
  · rcases hcases id c hc with hc | hc
    · obtain ⟨j, hbefore⟩ := hlinked.exists_at_predecessor hc hp
      rw [hold hbefore]
      exact h.joined id c p hc hp
    · obtain ⟨j, hbefore⟩ := hlinked.exists_at_next (List.mem_filterMap.2 ⟨c, hc, hp⟩)
      rw [hold hbefore]
      exact hjoined c hc p hp

/-- The oldest step is dropped: the candidates that stay have their payloads and transitions. -/
lemma Consists.dropFront (h : Consists good joined w) (hlinked : Linked [] w)
    (hlen : 1 < w.steps.length) : Consists good joined w.dropFront := by
  refine ⟨fun id c hc => ?_, fun id c p hc hp => ?_⟩
  · obtain ⟨d, hd, rfl | rfl⟩ := candidate?_dropFront hlen hc
    · exact h.good id c hd
    · exact h.good id d hd
  · obtain ⟨j, hbefore⟩ := (hlinked.dropFront hlen).exists_at_predecessor hc hp
    obtain ⟨e, he⟩ := (hlinked.dropFront hlen).exists_candidate? hbefore
    obtain ⟨d, hd, hfrom⟩ := candidate?_dropFront hlen he
    obtain ⟨c', hc', rfl | rfl⟩ := candidate?_dropFront hlen hc
    · obtain ⟨d', hd', hjoined⟩ := h.joined id c p hc' hp
      obtain rfl : d = d' := Option.some.inj (hd.symm.trans hd')
      refine ⟨e, he, ?_⟩
      rcases hfrom with rfl | rfl
      · exact hjoined
      · exact hjoined
    · cases hp

variable [Timed Q] [LT S] [DecidableLT S]

/-- An update of new candidates that have the properties keeps them, whether or not it is refused. -/
lemma Consists.accept (h : Consists good joined w) (hkept : Kept seen w) {u : Update P T Q K S}
    (hnodup : u.ids.Nodup) (hfresh : ∀ id ∈ u.ids, id ∉ seen)
    (hlen : u.vector.length < 18446744073709551616)
    (hgood : ∀ c ∈ u.vector, good c.payload c.transition)
    (hjoined : ∀ c ∈ u.vector, ∀ p, c.predecessor = some p →
      ∃ d, w.candidate? p = some d ∧ joined d.payload c.payload c.transition) :
    Consists good joined (w.accept u) := by
  rw [Window.accept]
  rcases w.update_cases u.vector u.sample with
    ⟨-, heq⟩ | ⟨error, -, -, heq⟩ | ⟨best, hbest, hfault, heq⟩
  · rw [heq]
    exact ⟨h.good, h.joined⟩
  · rw [heq]
    exact h
  · rw [heq]
    obtain ⟨hlinked, -, htrimmed, hnew⟩ := hkept.ready hfault hfresh hlen
    have hnamed : ∀ c ∈ u.vector, ∀ p, c.predecessor = some p →
        ∃ d, (w.countReferences u.vector).pruneLast.candidate? p = some d ∧
          joined d.payload c.payload c.transition := by
      intro c hc p hp
      obtain ⟨j, hbefore⟩ := hlinked.exists_at_next (List.mem_filterMap.2 ⟨c, hc, hp⟩)
      rw [htrimmed.candidates j p hbefore]
      exact hjoined c hc p hp
    refine (evict_induction (motive := fun v => Linked [] v ∧ Consists good joined v)
      ⟨hlinked.append hnodup hnew (List.mem_map_of_mem (Candidate.mem_of_best? hbest)),
        (h.trimmed htrimmed hlinked).append hlinked hnodup hnew hgood hnamed u.sample best.id⟩
      fun v hlen hv => ⟨hv.1.dropFront hlen, hv.2.dropFront hv.1 hlen⟩).2

end Updates

/-! ### Reading sequences -/

/-- The way back from a candidate of the step before last of some: each candidate is followed by the
predecessor that it names, and the last one names none. -/
lemma Consists.walkBack_take (h : Consists good joined w) (hlinked : Linked [] w) {n : Nat}
    (hn : n ≤ w.steps.length) {from? : Option CandidateId}
    (hfrom : ∀ p ∈ from?, ∃ i, i + 1 = n ∧ w.At i p) :
    (∀ p ∈ from?, (w.walkBack from? (w.steps.take n).reverse).head? = w.candidate? p) ∧
      (∀ c ∈ (w.walkBack from? (w.steps.take n).reverse).getLast?, c.predecessor = none) ∧
      (w.walkBack from? (w.steps.take n).reverse).IsChain fun c d => ∀ p,
        c.predecessor = some p →
          w.candidate? p = some d ∧ joined d.payload c.payload c.transition := by
  induction n generalizing from? with
  | zero =>
    refine ⟨fun p hp => ?_, fun c hc => ?_, List.IsChain.nil⟩
    · obtain ⟨i, hi, -⟩ := hfrom p hp
      omega
    · cases hc
  | succ n ih =>
    have hstep : w.steps[n]? = some w.steps[n] := List.getElem?_eq_getElem hn
    -- the candidate of this step that the way takes
    obtain ⟨id, c, hid, hchosen, hnamed⟩ : ∃ id c, w.At n id ∧
        (from?.bind w.candidate?).or (w.candidate? w.steps[n].estimate) = some c ∧
        w.candidate? id = some c ∧ ∀ p ∈ from?, w.candidate? p = some c := by
      cases from? with
      | some p =>
        obtain ⟨i, hi, hat⟩ := hfrom p rfl
        obtain ⟨c, hc⟩ := hlinked.exists_candidate? hat
        obtain rfl : i = n := by omega
        refine ⟨p, c, hat, by rw [Option.bind_some, hc, Option.some_or], hc, ?_⟩
        rintro q ⟨⟩
        exact hc
      | none =>
        have hat : w.At n w.steps[n].estimate :=
          ⟨_, hstep, hlinked.estimates _ (List.getElem_mem hn)⟩
        obtain ⟨c, hc⟩ := hlinked.exists_candidate? hat
        exact ⟨_, c, hat, by rw [Option.bind_none, Option.none_or, hc], hc, fun p hp => by cases hp⟩
    obtain ⟨hc, hhead⟩ := hnamed
    obtain ⟨hfirst, hlast, hchain⟩ := ih (by omega) fun p hp => by
      obtain ⟨j, hj, -, hbefore⟩ :=
        hlinked.exists_before hid (by rw [pointer?_eq, hc, Option.bind_some]; exact hp)
      exact ⟨j, hj.symm, hbefore⟩
    have hback : w.walkBack from? (w.steps.take (n + 1)).reverse =
        c :: w.walkBack c.predecessor (w.steps.take n).reverse := by
      rw [List.take_add_one, hstep, Option.toList_some, List.reverse_append, List.reverse_singleton,
        List.singleton_append, walkBack, hchosen]
    rw [hback]
    refine ⟨fun p hp => (hhead p hp).symm, ?_, List.isChain_cons.2 ⟨fun d hd p hp => ?_, hchain⟩⟩
    · cases hrest : w.walkBack c.predecessor (w.steps.take n).reverse with
      | cons d rest =>
        rw [List.getLast?_cons_cons, ← hrest]
        exact hlast
      | nil =>
        rintro _ ⟨⟩
        rw [Option.eq_none_iff_forall_not_mem]
        intro p hp
        obtain ⟨d, hd, -⟩ := h.joined id c p hc hp
        have hempty := hfirst p hp
        rw [hrest, hd] at hempty
        cases hempty
    · obtain ⟨d', hd', hjoined⟩ := h.joined id c p hc hp
      have hheld : w.candidate? p = some d := (hfirst p hp).symm.trans hd
      obtain rfl : d = d' := Option.some.inj (hheld.symm.trans hd')
      exact ⟨hheld, hjoined⟩

/-- The sequence starts with a candidate that nothing precedes, and where another candidate names a
predecessor, then that is the one before it in the sequence. -/
lemma Consists.sequence (h : Consists good joined w) (hlinked : Linked [] w) :
    (∀ c ∈ w.sequence.head?, c.predecessor = none) ∧
      w.sequence.IsChain fun d c => ∀ p, c.predecessor = some p →
        w.candidate? p = some d ∧ joined d.payload c.payload c.transition := by
  have hnone : ∀ p ∈ (none : Option CandidateId), ∃ i, i + 1 = w.steps.length ∧ w.At i p :=
    fun p hp => by cases hp
  obtain ⟨-, hlast, hchain⟩ := h.walkBack_take hlinked le_rfl hnone
  rw [List.take_length] at hlast hchain
  refine ⟨?_, ?_⟩
  · rw [Window.sequence, List.head?_reverse]
    exact hlast
  · rw [Window.sequence, List.isChain_reverse]
    exact hchain

end Window

end RoadMatching
