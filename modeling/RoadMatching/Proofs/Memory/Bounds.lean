import RoadMatching.Proofs.Memory.Pruning

/-!
The samples within the bounds of a memory.

Eviction looks at the oldest step only, at each update, and what it has dropped is gone. Since no
sample is accepted that is older than the last one, nothing is missed by that: a suffix of the samples
that is within the bounds after an update was within them before.

* `IsLongestSuffix`: the longest suffix of a list that has a property. `IsLongestSuffix.concat`: it may
  be taken step by step, if the property is not gained by an element at the end.
* `Within`: the samples within the bounds; `Within.of_concat`: they were so before the last one.
* `isLongestSuffix_evictSteps`: eviction leaves the longest suffix within the bounds.
* `accepted`: the updates that a memory appends.
* `Sliding`: the invariant of a memory between updates; `Sliding.append` is the step lemma, and
  `feed_sliding` the run lemma.
* `feed_isLongestSuffix`: the samples of a memory are the longest suffix within its bounds of all
  that it has appended, and the last one is among them.
-/

namespace RoadMatching

variable {P T Q K S : Type}

/-! ### Longest suffixes -/

section Suffixes

variable {α : Type} {p : List α → Prop} {kept all : List α} {a : α}

/-- A list is the longest of the suffixes that have a property. -/
structure IsLongestSuffix (p : List α → Prop) (kept all : List α) : Prop where
  suffix : kept <:+ all
  holds : p kept
  longest : ∀ s, s <:+ all → p s → s <:+ kept

lemma IsLongestSuffix.refl (h : p all) : IsLongestSuffix p all all :=
  ⟨List.suffix_refl all, h, fun _ hs _ => hs⟩

/-- If the whole does not have the property, the first element is not in the suffix. -/
lemma IsLongestSuffix.cons (h : IsLongestSuffix p kept all) (hnot : ¬ p (a :: all)) :
    IsLongestSuffix p kept (a :: all) where
  suffix := h.suffix.trans (List.suffix_cons a all)
  holds := h.holds
  longest s hs hp := by
    rcases List.suffix_cons_iff.1 hs with rfl | hs
    · exact absurd hp hnot
    · exact h.longest s hs hp

/-- The suffix may be taken before and after an element comes to the end, if no suffix gains the
property by that. -/
lemma IsLongestSuffix.concat {kept' : List α} (h : IsLongestSuffix p kept all)
    (hp : ∀ s, s <:+ all → p (s ++ [a]) → p s) (h' : IsLongestSuffix p kept' (kept ++ [a])) :
    IsLongestSuffix p kept' (all ++ [a]) where
  suffix := h'.suffix.trans (List.suffix_append_self_iff.2 h.suffix)
  holds := h'.holds
  longest s hs hholds := by
    refine h'.longest s ?_ hholds
    rcases List.suffix_concat_iff.1 hs with rfl | ⟨t, rfl, ht⟩
    · exact List.nil_suffix
    · exact List.suffix_append_self_iff.2 (h.longest t ht (hp t ht hholds))

/-- The last element is in the suffix if it has the property alone. -/
lemma IsLongestSuffix.getLast?_eq (h : IsLongestSuffix p kept all) (hlast : ∀ a, p [a]) :
    kept.getLast? = all.getLast? := by
  cases hall : all.getLast? with
  | none =>
    obtain rfl := List.getLast?_eq_none_iff.1 hall
    obtain rfl := List.suffix_nil.1 h.suffix
    rfl
  | some a =>
    obtain ⟨before, rfl⟩ := List.getLast?_eq_some_iff.1 hall
    obtain ⟨front, hkept⟩ := h.longest [a] (List.suffix_append before [a]) (hlast a)
    rw [← hkept, List.getLast?_concat]

end Suffixes

namespace Window

/-! ### Samples within the bounds -/

section Within

variable [Timed Q] {k t : Option Nat} {samples : List Q}

/-- Samples within the bounds: there are at most `k` before the last one, and none is more than `t`
milliseconds older than that. An age of zero is no bound. -/
structure Within (k t : Option Nat) (samples : List Q) : Prop where
  steps : ∀ n ∈ k, samples.length ≤ n + 1
  age : ∀ n ∈ t, 0 < n → ∀ oldest ∈ samples.head?, ∀ newest ∈ samples.getLast?,
    Timed.time newest - Timed.time oldest ≤ n

/-- A single sample is within any bounds. -/
lemma within_singleton (k t : Option Nat) (sample : Q) : Within k t [sample] where
  steps n _ := by simp
  age n _ _ oldest hold newest hnew := by
    simp only [List.head?_cons, List.getLast?_singleton, Option.mem_some] at hold hnew
    subst hold hnew
    omega

/-- Samples that are within the bounds were so before the last of them, if it is not older than the
one before it. -/
lemma Within.of_concat {sample : Q} (h : Within k t (samples ++ [sample]))
    (hlast : ∀ last ∈ samples.getLast?, Timed.time last ≤ Timed.time sample) :
    Within k t samples where
  steps n hn := by
    have := h.steps n hn
    rw [List.length_append, List.length_singleton] at this
    omega
  age n hn hpos oldest hold newest hnew := by
    have hhead : oldest ∈ (samples ++ [sample]).head? := by
      rw [List.head?_append, Option.mem_def.1 hold]
      rfl
    have := h.age n hn hpos oldest hhead sample (by rw [List.getLast?_concat]; rfl)
    have := hlast newest hnew
    omega

end Within

/-! ### Eviction -/

section Eviction

variable [Timed Q] {w : Window P T Q K S} {k t : Option Nat}

/-- A step is not too old if the age that is the bound has not elapsed since. -/
lemma isExpired_eq_false_iff {time : Int} {step : Step Q} :
    w.isExpired time step = false ↔
      ∀ n ∈ w.maxAge, elapsed (Timed.time step.sample) time ≤ signed64 n := by
  rw [isExpired]
  cases w.maxAge <;> simp

/-- The steps are within the bounds unless the oldest one is to be dropped. -/
lemma within_iff (hk : ∀ n ∈ k, n < 9223372036854775808) (ht : ∀ n ∈ t, n < 9223372036854775808)
    (hsteps : w.maxSteps = k) (hage : w.maxAge = t.filter fun n => 0 < n) {front : Step Q}
    {rest : List (Step Q)} {last : Q}
    (hlast : ((front :: rest).map Step.sample).getLast? = some last)
    (hearlier : Timed.time front.sample ≤ Timed.time last)
    (hrange : Timed.time last - Timed.time front.sample < 9223372036854775808) :
    Within k t ((front :: rest).map Step.sample) ↔
      w.isExpired (Timed.time last) front = false ∧
        (w.maxSteps.any fun n => unsigned64 (n + 1) < rest.length + 1) = false := by
  have helapsed : elapsed (Timed.time front.sample) (Timed.time last) =
      Timed.time last - Timed.time front.sample := signed64_of_mem (by omega) hrange
  have hcount : ∀ n ∈ k, unsigned64 (n + 1) = n + 1 := fun n hn =>
    unsigned64_of_lt (by have := hk n hn; omega)
  have hsigned : ∀ n ∈ t, signed64 n = n := fun n hn =>
    signed64_of_mem (by omega) (by have := ht n hn; omega)
  rw [isExpired_eq_false_iff, hage, hsteps, helapsed, Option.any_eq_false]
  constructor
  · intro h
    refine ⟨fun n hn => ?_, fun n hn => ?_⟩
    · obtain ⟨hn, hpos⟩ := Option.filter_eq_some_iff.1 hn
      rw [hsigned n hn]
      exact h.age n hn (by simpa using hpos) front.sample rfl last hlast
    · have hlength := h.steps n hn
      rw [List.length_map, List.length_cons] at hlength
      rw [hcount n hn, decide_eq_false_iff_not]
      omega
  · rintro ⟨hexpired, hexceeded⟩
    refine ⟨fun n hn => ?_, fun n hn hpos oldest hold newest hnew => ?_⟩
    · have hlength := hexceeded n hn
      rw [hcount n hn, decide_eq_false_iff_not] at hlength
      rw [List.length_map, List.length_cons]
      omega
    · obtain rfl : front.sample = oldest := Option.some.inj hold
      obtain rfl : last = newest := Option.some.inj (hlast.symm.trans hnew)
      rw [← hsigned n hn]
      exact hexpired n (Option.filter_eq_some_iff.2 ⟨hn, by simpa using hpos⟩)

/-- Eviction leaves the longest suffix that is within the bounds. -/
lemma isLongestSuffix_evictSteps (hk : ∀ n ∈ k, n < 9223372036854775808)
    (ht : ∀ n ∈ t, n < 9223372036854775808) (hsteps : w.maxSteps = k)
    (hage : w.maxAge = t.filter fun n => 0 < n) {steps : List (Step Q)} {last : Q}
    (hlast : (steps.map Step.sample).getLast? = some last)
    (hearlier : ∀ q ∈ steps.map Step.sample, Timed.time q ≤ Timed.time last)
    (hrange : ∀ q ∈ steps.map Step.sample,
      Timed.time last - Timed.time q < 9223372036854775808)
    (held : Table CandidateId (Held P T K S)) :
    IsLongestSuffix (Within k t) ((w.evictSteps (Timed.time last) steps held).1.map Step.sample)
      (steps.map Step.sample) := by
  induction steps generalizing held with
  | nil => cases hlast
  | cons front steps ih =>
    cases steps with
    | nil => exact .refl (within_singleton k t front.sample)
    | cons next rest =>
      have hwithin := within_iff hk ht hsteps hage hlast (hearlier _ List.mem_cons_self)
        (hrange _ List.mem_cons_self)
      rw [List.length_cons] at hwithin
      rw [evictSteps]
      split
      · next hdropped =>
        refine (ih hlast (fun q hq => hearlier q (List.mem_cons_of_mem _ hq))
          (fun q hq => hrange q (List.mem_cons_of_mem _ hq)) _).cons fun h => ?_
        rw [Bool.or_eq_true, (hwithin.1 h).1, (hwithin.1 h).2] at hdropped
        simp at hdropped
      · next hkept => exact .refl (hwithin.2 (Bool.or_eq_false_iff.1 (Bool.eq_false_iff.2 hkept)))

end Eviction

/-! ### Prunings -/

/-- A memory with the same bounds and the same samples. -/
structure SameSamples (w v : Window P T Q K S) : Prop where
  maxSteps : v.maxSteps = w.maxSteps
  maxAge : v.maxAge = w.maxAge
  samples : v.samples = w.samples

lemma SameSamples.refl (w : Window P T Q K S) : SameSamples w w := ⟨rfl, rfl, rfl⟩

lemma SameSamples.trans {u v w : Window P T Q K S} (h : SameSamples u v) (h' : SameSamples v w) :
    SameSamples u w :=
  ⟨h'.maxSteps.trans h.maxSteps, h'.maxAge.trans h.maxAge, h'.samples.trans h.samples⟩

lemma sameSamples_discard (w : Window P T Q K S) (id : CandidateId) (index : Nat) :
    SameSamples w (w.discard id index) := by
  refine ⟨rfl, rfl, List.ext_getElem? fun j => ?_⟩
  rw [samples, samples, List.getElem?_map, List.getElem?_map, getElem?_steps_discard,
    Option.map_map]
  refine Option.map_congr fun step _ => ?_
  by_cases hj : index = j <;> simp [hj]

/-- Pruning takes candidates away, but no steps. -/
lemma sameSamples_prune (w : Window P T Q K S) (id : CandidateId) (index : Nat) :
    SameSamples w (w.prune id index) := by
  induction index using Nat.strong_induction_on generalizing w id with
  | _ index ih =>
    cases hstep : w.steps[index]? with
    | none =>
      rw [prune, hstep]
      exact .refl w
    | some step =>
      by_cases hestimate : step.estimate = id
      · rw [prune_of_eq hstep hestimate]
        exact .refl w
      · obtain ⟨p, before, -, -, hindex, -, -, heq⟩ | ⟨-, heq⟩ := prune_cases hstep hestimate
        · rw [heq]
          exact (sameSamples_discard w id index).trans (ih before (by omega) _ p)
        · rw [heq]
          exact sameSamples_discard w id index

lemma sameSamples_pruneLast (w : Window P T Q K S) : SameSamples w w.pruneLast := by
  rw [pruneLast]
  cases w.steps.getLast? with
  | none => exact .refl w
  | some last =>
    refine List.foldlRecOn _ _ (motive := SameSamples w) (.refl w) fun v hv id _ => ?_
    exact hv.trans (sameSamples_prune v id _)

/-! ### Runs -/

section Runs

variable [Timed Q] [LT S] [DecidableLT S]

/-- Whether a memory appends an update: it has candidates, and is not refused. -/
def appends (w : Window P T Q K S) (u : Update P T Q K S) : Bool :=
  match w.update u.vector u.sample with
  | .ok _ => !u.vector.isEmpty
  | .error _ => false

/-- The updates that a memory appends, of those submitted one after another. -/
def accepted (w : Window P T Q K S) : List (Update P T Q K S) → List (Update P T Q K S)
  | [] => []
  | u :: rest =>
    if w.appends u then u :: (w.accept u).accepted rest else (w.accept u).accepted rest

lemma accepted_concat (w : Window P T Q K S) (updates : List (Update P T Q K S))
    (u : Update P T Q K S) :
    w.accepted (updates ++ [u]) =
      w.accepted updates ++ if (w.feed updates).appends u then [u] else [] := by
  induction updates generalizing w with
  | nil =>
    rw [List.nil_append, accepted, accepted, accepted, List.nil_append]
    rfl
  | cons v updates ih =>
    rw [List.cons_append, accepted, accepted, ih]
    split
    · rfl
    · rfl

lemma accepted_sublist (w : Window P T Q K S) (updates : List (Update P T Q K S)) :
    (w.accepted updates).Sublist updates := by
  induction updates generalizing w with
  | nil => exact List.Sublist.refl []
  | cons u updates ih =>
    rw [accepted]
    split
    · exact (ih _).cons_cons u
    · exact (ih _).cons u

/-- A memory of bounds `k` and `t` between updates: it holds the longest suffix within its bounds of
the samples that it has appended, none of which is later than the last one. -/
structure Sliding (k t : Option Nat) (all : List Q) (w : Window P T Q K S) : Prop where
  maxSteps : w.maxSteps = k
  maxAge : w.maxAge = t.filter fun n => 0 < n
  samples : IsLongestSuffix (Within k t) w.samples all
  latest : ∀ q ∈ all, ∀ last ∈ all.getLast?, Timed.time q ≤ Timed.time last

variable {k t : Option Nat} {all : List Q} {w : Window P T Q K S}

omit [LT S] [DecidableLT S] in
lemma sliding_bounded (k t : Option Nat) : Sliding k t [] (bounded k t : Window P T Q K S) where
  maxSteps := rfl
  maxAge := rfl
  samples := .refl ⟨fun n _ => Nat.zero_le _, fun n _ _ oldest hold => by cases hold⟩
  latest q hq := by cases hq

omit [LT S] [DecidableLT S] in
/-- The last sample held is the last one that was appended. -/
lemma Sliding.getLast?_samples (h : Sliding k t all w) : w.samples.getLast? = all.getLast? :=
  h.samples.getLast?_eq (within_singleton k t)

omit [LT S] [DecidableLT S] in
/-- A sample that is in time is not older than any appended. -/
lemma Sliding.time_le (h : Sliding k t all w) {sample : Q}
    (hlate : ∀ last, w.time? = some last → ¬ Timed.time sample < last) :
    ∀ q ∈ all, Timed.time q ≤ Timed.time sample := by
  intro q hq
  obtain ⟨last, hlast⟩ : ∃ last, all.getLast? = some last :=
    ⟨_, List.getLast?_eq_some_getLast (List.ne_nil_of_mem hq)⟩
  have htime : w.time? = some (Timed.time last) := by
    rw [time?, sample?_eq, h.getLast?_samples, hlast]
    rfl
  have := h.latest q hq last hlast
  have := hlate _ htime
  omega

omit [LT S] [DecidableLT S] in
/-- When the vector of a sample is appended, the longest suffix within the bounds is left. -/
lemma Sliding.append (h : Sliding k t all w) (hk : ∀ n ∈ k, n < 9223372036854775808)
    (ht : ∀ n ∈ t, n < 9223372036854775808) {sample : Q}
    (hlate : ∀ last, w.time? = some last → ¬ Timed.time sample < last)
    (hrange : ∀ q ∈ all, Timed.time sample - Timed.time q < 9223372036854775808)
    (vector : List (Candidate P T K S)) (best : CandidateId) :
    Sliding k t (all ++ [sample])
      ((w.countReferences vector).pruneLast.append vector sample best).evict := by
  have hsame := sameSamples_pruneLast (w.countReferences vector)
  set v := (w.countReferences vector).pruneLast.append vector sample best with hv
  have hsteps : v.maxSteps = k := hsame.maxSteps.trans h.maxSteps
  have hage : v.maxAge = t.filter fun n => 0 < n := hsame.maxAge.trans h.maxAge
  have hsamples : v.steps.map Step.sample = w.samples ++ [sample] := by
    rw [hv, Window.append, List.map_append]
    exact congrArg (· ++ [sample]) hsame.samples
  have htime : v.time? = some (Timed.time sample) := by
    rw [time?, sample?_eq, Window.samples, hsamples, List.getLast?_concat]
    rfl
  have hle : ∀ q ∈ all ++ [sample], Timed.time q ≤ Timed.time sample := by
    intro q hq
    rcases List.mem_append.1 hq with hq | hq
    · exact h.time_le hlate q hq
    · rw [List.mem_singleton.1 hq]
  have hheld : ∀ q ∈ v.steps.map Step.sample, q ∈ all ++ [sample] := by
    rw [hsamples]
    exact (List.suffix_append_self_iff.2 h.samples.suffix).subset
  have hevicted : IsLongestSuffix (Within k t)
      ((v.evictSteps (Timed.time sample) v.steps v.held).1.map Step.sample)
      (v.steps.map Step.sample) := by
    refine isLongestSuffix_evictSteps hk ht hsteps hage (by rw [hsamples, List.getLast?_concat])
      (fun q hq => hle q (hheld q hq)) (fun q hq => ?_) v.held
    rcases List.mem_append.1 (hheld q hq) with hq | hq
    · exact hrange q hq
    · rw [List.mem_singleton.1 hq]
      omega
  rw [evict, htime]
  refine ⟨hsteps, hage, h.samples.concat (fun s hs hwithin => hwithin.of_concat fun last hlast => ?_)
    (hsamples ▸ hevicted), fun q hq last hlast => ?_⟩
  · exact hle last (List.mem_append_left _ (hs.subset (List.mem_of_getLast? hlast)))
  · rw [List.getLast?_concat, Option.mem_some] at hlast
    exact hlast ▸ hle q hq

/-- A memory fed updates slides over the samples that it appends. -/
lemma feed_sliding (hk : ∀ n ∈ k, n < 9223372036854775808)
    (ht : ∀ n ∈ t, n < 9223372036854775808) {updates : List (Update P T Q K S)}
    (hrange : updates.Pairwise fun u v =>
      Timed.time v.sample - Timed.time u.sample < 9223372036854775808) :
    Sliding k t (((bounded k t).accepted updates).map Update.sample)
      ((bounded k t : Window P T Q K S).feed updates) := by
  induction updates using List.reverseRecOn with
  | nil => exact sliding_bounded k t
  | append_singleton updates u ih =>
    obtain ⟨hbefore, -, hlast⟩ := List.pairwise_append.1 hrange
    have h := ih hbefore
    rw [accepted_concat, feed_concat, appends, accept, List.map_append]
    rcases update_cases ((bounded k t).feed updates) u.vector u.sample with
      ⟨hnil, heq⟩ | ⟨error, -, -, heq⟩ | ⟨best, hbest, hfault, heq⟩
    · have hempty : u.vector.isEmpty = true := List.isEmpty_iff.2 hnil
      simp only [heq, hempty, Bool.not_true, Bool.false_eq_true, if_false, List.map_nil,
        List.append_nil]
      exact ⟨h.maxSteps, h.maxAge, h.samples, h.latest⟩
    · simp only [heq, Bool.false_eq_true, if_false, List.map_nil, List.append_nil]
      exact h
    · have hne : u.vector.isEmpty = false :=
        List.isEmpty_eq_false_iff.2 (List.ne_nil_of_mem (Candidate.mem_of_best? hbest))
      simp only [heq, hne, Bool.not_false, if_true, List.map_singleton]
      refine h.append hk ht (fault?_eq_none_iff.1 hfault).1 (fun q hq => ?_) u.vector best.id
      obtain ⟨v, hv, rfl⟩ := List.mem_map.1 hq
      exact hlast v ((accepted_sublist _ _).subset hv) u List.mem_cons_self

/-- **Bounds drop no more than they must**: for bounds and differences of times that are numbers of
64 bits with a sign, whatever is refused and wherever there are breaks, the samples of a memory are
the longest suffix within its bounds of all samples that it has appended. The last of these is always
held. -/
theorem feed_isLongestSuffix (hk : ∀ n ∈ k, n < 9223372036854775808)
    (ht : ∀ n ∈ t, n < 9223372036854775808) {updates : List (Update P T Q K S)}
    (hrange : updates.Pairwise fun u v =>
      Timed.time v.sample - Timed.time u.sample < 9223372036854775808) :
    IsLongestSuffix (Within k t) ((bounded k t).feed updates).samples
        (((bounded k t).accepted updates).map Update.sample) ∧
      ((bounded k t).feed updates).samples.getLast? =
        (((bounded k t).accepted updates).map Update.sample).getLast? :=
  have h := feed_sliding hk ht hrange
  ⟨h.samples, h.getLast?_samples⟩

/-- Of the five samples that the fork has appended, a memory over four steps and three milliseconds
holds the last three: with the one before them, five milliseconds would have passed. -/
theorem feed_isLongestSuffix_fork :
    (∀ n ∈ some 3, n < 9223372036854775808) ∧
      Update.fork.Pairwise (fun u v =>
        Timed.time v.sample - Timed.time u.sample < 9223372036854775808) ∧
      ((bounded (some 3) (some 3)).accepted Update.fork).map Update.sample = [0, 1, 3, 5, 6] ∧
      IsLongestSuffix (Within (some 3) (some 3)) [(3 : Int), 5, 6] [0, 1, 3, 5, 6] := by
  have hbound : ∀ n ∈ some 3, n < 9223372036854775808 := by decide
  have hrange : Update.fork.Pairwise fun u v =>
      Timed.time v.sample - Timed.time u.sample < 9223372036854775808 := by decide
  have haccepted : ((bounded (some 3) (some 3)).accepted Update.fork).map Update.sample =
      [0, 1, 3, 5, 6] := by decide +kernel
  have hheld : ((bounded (some 3) (some 3)).feed Update.fork).samples = [3, 5, 6] := by
    decide +kernel
  have h := (feed_isLongestSuffix hbound hbound hrange).1
  rw [haccepted, hheld] at h
  exact ⟨hbound, hrange, haccepted, h⟩

end Runs

end Window

end RoadMatching
