import RoadMatching.Proofs.Filtering.Posterior

/-!
How a filter recovers from a break.

Where the predecessors pass no belief on, the candidates of a sample start anew, by their emissions
alone. What a candidate was given before that comes to light must not be left on it.

* `Layer.share`: what a predecessor passes on to a candidate; `Layer.inflow`: what all of them do.
  `Layer.exists_share_of_inflow`: what comes in comes from somebody; `Layer.inflow_ne_zero`: if
  nothing is negative, something comes in wherever somebody passes something on.
* `Layer.roots`: the candidates that start anew. `Layer.vector_of_inflow_eq_zero`,
  `Layer.exists_share_of_mem_vector`: what the vector is if nothing comes in, and if something does.
* `execute_recovery`: **break recovery**. Either all candidates start anew, just as without
  predecessors, or only those are left to which something is passed on.
* `execute_recovery_cancelled`: shares of different signs may cancel out, and then the candidates
  start anew although something was passed on.
-/

namespace RoadMatching

variable {P T Q K S ε : Type} [Field K]

namespace Layer

variable (layer : Layer P T K S)

/-! ### What comes in -/

/-- The part of its belief that a predecessor passes on to a candidate. -/
def share (p : Candidate P T K S) (c : Candidate P T K S × K) : K :=
  layer.probability p.id c.1.id * p.belief

/-- What all predecessors pass on to a candidate. -/
def inflow (c : Candidate P T K S × K) : K := (layer.predecessors.map fun p => layer.share p c).sum

/-- The candidates that have an emission, with nothing before them, the shares of their emissions as
beliefs and the scores of these. -/
def roots [BEq K] [Score K S] : List (Candidate P T K S) :=
  (layer.candidates.filter fun c => !(c.2 == 0)).map fun c =>
    { c.1 with
      predecessor := none
      transition := none
      belief := c.2 / (layer.candidates.map Prod.snd).sum
      score := Score.log10 c.2 }

variable {layer}

/-- A predecessor passes something on if it has a belief, and a transition that is not impossible. -/
lemma share_ne_zero_iff {p : Candidate P T K S} {c : Candidate P T K S × K} :
    layer.share p c ≠ 0 ↔
      ∃ t x, layer.transitions.between? p.id c.1.id = some (t, x) ∧ x ≠ 0 ∧ p.belief ≠ 0 := by
  rw [share, probability]
  cases layer.transitions.between? p.id c.1.id with
  | none => simp
  | some found =>
    obtain ⟨t, x⟩ := found
    simp

/-- What comes in comes from somebody. -/
lemma exists_share_of_inflow {c : Candidate P T K S × K} (h : layer.inflow c ≠ 0) :
    ∃ p ∈ layer.predecessors, layer.share p c ≠ 0 := by
  by_contra hnone
  refine h (List.sum_eq_zero fun x hx => ?_)
  obtain ⟨p, hp, rfl⟩ := List.mem_map.1 hx
  by_contra hne
  exact hnone ⟨p, hp, hne⟩

/-- If nothing is negative, what is passed on does come in. -/
lemma inflow_ne_zero [LinearOrder K] [IsStrictOrderedRing K]
    (hp : ∀ p ∈ layer.predecessors, 0 ≤ p.belief) (ht : Filter.Nonneg layer.transitions)
    {p : Candidate P T K S} (hmem : p ∈ layer.predecessors) {c : Candidate P T K S × K}
    (h : layer.share p c ≠ 0) : layer.inflow c ≠ 0 := by
  have hprobability : ∀ q d, 0 ≤ layer.probability q d := by
    intro q d
    rw [probability]
    cases hfound : layer.transitions.between? q d with
    | none => exact le_rfl
    | some found => exact ht q d found.1 found.2 hfound
  have hnonneg : ∀ x ∈ layer.predecessors.map fun q => layer.share q c, 0 ≤ x := by
    intro x hx
    obtain ⟨q, hq, rfl⟩ := List.mem_map.1 hx
    exact mul_nonneg (hprobability _ _) (hp q hq)
  intro hzero
  exact h (List.all_zero_of_le_zero_le_of_sum_eq_zero hnonneg hzero
    (List.mem_map_of_mem (f := fun q => layer.share q c) hmem))

/-! ### What becomes of the candidates -/

variable [BEq K] [LawfulBEq K]

/-- The emissions of the candidates that have one are all there are. -/
lemma sum_emissions (candidates : List (Candidate P T K S × K)) :
    ((candidates.filter fun c => !(c.2 == 0)).map Prod.snd).sum =
      (candidates.map Prod.snd).sum := by
  induction candidates with
  | nil => rfl
  | cons c candidates ih =>
    rw [List.map_cons, List.sum_cons, ← ih, List.filter_cons]
    by_cases hzero : c.2 = 0
    · simp [hzero]
    · simp [hzero]

variable [Score K S]

/-- The candidates by their emissions alone, as shares of all emissions. -/
lemma normalise_rooted : Filter.normalise (Filter.rooted layer.candidates) = layer.roots := by
  have hsum : ((Filter.rooted layer.candidates).map Candidate.belief).sum =
      (layer.candidates.map Prod.snd).sum := by
    rw [← sum_emissions, Filter.rooted, List.map_map]
    rfl
  rw [Filter.normalise, Filter.foldl_belief_eq_sum, hsum, Filter.rooted, List.map_map]
  rfl

variable [Add S] [LT S] [DecidableLT S]

/-- Its arrivals give a candidate the belief that comes in. -/
lemma belief_landed (c : Candidate P T K S × K) :
    (Filter.landed layer.predecessors layer.transitions c).belief = layer.inflow c := by
  rw [Filter.landed, Filter.belief_foldl_offer, zero_add, Filter.sum_arrivals]
  rfl

/-- Those go on to which something comes in. -/
lemma reached_eq (hnodup : (layer.predecessors.map Candidate.id).Nodup)
    (hdistinct : layer.ids.Nodup) :
    layer.reached = layer.candidates.filterMap fun c =>
      if layer.inflow c == 0 then none
      else some { Filter.landed layer.predecessors layer.transitions c with
        belief := layer.inflow c * c.2 } := by
  rw [reached, Filter.continued_eq hnodup hdistinct]
  simp only [belief_landed]

/-- If nothing comes in anywhere, the candidates start anew. -/
lemma vector_of_inflow_eq_zero (hnodup : (layer.predecessors.map Candidate.id).Nodup)
    (hdistinct : layer.ids.Nodup) (h : ∀ c ∈ layer.candidates, layer.inflow c = 0) :
    layer.vector = layer.roots := by
  have hnil : layer.reached = [] := by
    rw [reached_eq hnodup hdistinct, List.filterMap_eq_nil_iff]
    intro c hc
    rw [if_pos (beq_iff_eq.2 (h c hc))]
  rw [vector, hnil, List.isEmpty_nil, if_pos rfl, normalise_rooted]

/-- If something comes in somewhere, the vector has only candidates to which something does. -/
lemma exists_share_of_mem_vector (hnodup : (layer.predecessors.map Candidate.id).Nodup)
    (hdistinct : layer.ids.Nodup) (h : ∃ c ∈ layer.candidates, layer.inflow c ≠ 0) :
    ∀ d ∈ layer.vector, ∃ c ∈ layer.candidates, c.1.id = d.id ∧
      ∃ p ∈ layer.predecessors, layer.share p c ≠ 0 := by
  have hmem : ∀ d, d ∈ layer.reached ↔ ∃ c ∈ layer.candidates, layer.inflow c ≠ 0 ∧
      { Filter.landed layer.predecessors layer.transitions c with
        belief := layer.inflow c * c.2 } = d := by
    intro d
    rw [reached_eq hnodup hdistinct, List.mem_filterMap]
    refine exists_congr fun c => and_congr_right fun _ => ?_
    by_cases hzero : layer.inflow c = 0 <;> simp [hzero]
  have hne : layer.reached ≠ [] := by
    obtain ⟨c, hc, hinflow⟩ := h
    exact List.ne_nil_of_mem ((hmem _).2 ⟨c, hc, hinflow, rfl⟩)
  intro d hd
  rw [vector, if_neg (by simpa using hne)] at hd
  obtain ⟨e, he, rfl⟩ := Filter.mem_normalise.1 hd
  obtain ⟨c, hc, hinflow, rfl⟩ := (hmem e).1 he
  have hid : (Filter.landed layer.predecessors layer.transitions c).id = c.1.id :=
    Filter.id_foldl_offer ..
  exact ⟨c, hc, hid.symm, exists_share_of_inflow hinflow⟩

end Layer

/-! ### Steps of the filter -/

variable [BEq K] [LawfulBEq K] [Add S] [LT S] [DecidableLT S] [Score K S]

/-- Without predecessors the candidates start anew. -/
lemma Filter.execute_nil {filter : Filter P T Q ε K S} {sample : Q} {layer : Layer P T K S}
    (hcandidates : filter.candidates [] sample = .ok layer.candidates) (previous : Option Q) :
    filter.execute [] previous sample = .ok layer.roots := by
  rw [execute, hcandidates, ← Layer.normalise_rooted]
  cases previous <;> rfl

/-- **Break recovery**: if each transition is missing, or has probability zero, or comes from a
predecessor without a belief, then the candidates start anew, those with an emission as roots with
their shares of the emissions and the scores of these; and any filter that has the same candidates
without predecessors gives just that. Conversely, if something comes in for some candidate, then
only candidates are left to which some predecessor passes something on. If nothing is negative,
something comes in wherever anything is passed on. -/
theorem execute_recovery [LinearOrder K] [IsStrictOrderedRing K] {filter : Filter P T Q ε K S}
    {predecessors : List (Candidate P T K S)} {previous : Option Q} {sample : Q}
    {layer : Layer P T K S} (hlayer : filter.layer? predecessors previous sample = .ok layer)
    (hnodup : (predecessors.map Candidate.id).Nodup) (hdistinct : layer.ids.Nodup) :
    ((∀ p ∈ predecessors, ∀ c ∈ layer.candidates, ∀ t x,
        layer.transitions.between? p.id c.1.id = some (t, x) → x = 0 ∨ p.belief = 0) →
      filter.execute predecessors previous sample = .ok layer.roots ∧
      ∀ (other : Filter P T Q ε K S) (before : Option Q) (q : Q),
        other.candidates [] q = .ok layer.candidates →
          other.execute [] before q = filter.execute predecessors previous sample) ∧
    ((∃ c ∈ layer.candidates, layer.inflow c ≠ 0) →
      ∃ vector, filter.execute predecessors previous sample = .ok vector ∧
        ∀ d ∈ vector, ∃ c ∈ layer.candidates, c.1.id = d.id ∧ ∃ p ∈ predecessors, ∃ t x,
          layer.transitions.between? p.id c.1.id = some (t, x) ∧ x ≠ 0 ∧ p.belief ≠ 0) ∧
    ((∀ p ∈ predecessors, 0 ≤ p.belief) → Filter.Nonneg layer.transitions →
      ∀ p ∈ predecessors, ∀ c ∈ layer.candidates, ∀ t x,
        layer.transitions.between? p.id c.1.id = some (t, x) → x ≠ 0 → p.belief ≠ 0 →
          layer.inflow c ≠ 0) := by
  obtain rfl : layer.predecessors = predecessors := Filter.predecessors_of_layer? hlayer
  have hexecute : filter.execute layer.predecessors previous sample = .ok layer.vector := by
    rw [Filter.execute_eq, hlayer]
    rfl
  refine ⟨fun hdead => ?_, fun hinflow => ⟨layer.vector, hexecute, fun d hd => ?_⟩,
    fun hp ht p hmem c _ t x hfound hx hbelief => ?_⟩
  · have hzero : ∀ c ∈ layer.candidates, layer.inflow c = 0 := by
      intro c hc
      by_contra hne
      obtain ⟨p, hp, hshare⟩ := Layer.exists_share_of_inflow hne
      obtain ⟨t, x, hfound, hx, hbelief⟩ := Layer.share_ne_zero_iff.1 hshare
      exact (hdead p hp c hc t x hfound).elim hx hbelief
    have hroots := hexecute.trans
      (congrArg Except.ok (Layer.vector_of_inflow_eq_zero hnodup hdistinct hzero))
    exact ⟨hroots, fun other before q hother => (Filter.execute_nil hother before).trans hroots.symm⟩
  · obtain ⟨c, hc, hid, p, hp, hshare⟩ :=
      Layer.exists_share_of_mem_vector hnodup hdistinct hinflow d hd
    exact ⟨c, hc, hid, p, hp, Layer.share_ne_zero_iff.1 hshare⟩
  · exact Layer.inflow_ne_zero hp ht hmem (Layer.share_ne_zero_iff.2 ⟨t, x, hfound, hx, hbelief⟩)

namespace Detour

/-- A predecessor with another name and the belief given. -/
def other (belief : ℚ) : Candidate Unit Unit ℚ (WithBot ℝ) := ⟨"a2", (), none, none, belief, 0⟩

/-- The believed predecessor has an impossible transition only. -/
def idle : Transitions Unit ℚ :=
  ⟨[("a1", ⟨[("b1", (), 0)]⟩), ("a2", ⟨[("b1", (), 1 / 2), ("b2", (), 1)]⟩)]⟩

/-- Both predecessors lead to the same candidate alike. -/
def even : Transitions Unit ℚ :=
  ⟨[("a1", ⟨[("b1", (), 1 / 2)]⟩), ("a2", ⟨[("b1", (), 1 / 2)]⟩)]⟩

/-- A filter that has the candidates and the transitions given. -/
def given (candidates : List (Candidate Unit Unit ℚ (WithBot ℝ) × ℚ))
    (transitions : Transitions Unit ℚ) : Filter Unit Unit Int Empty ℚ (WithBot ℝ) where
  candidates _ _ := .ok candidates
  transitions _ _ := .ok transitions

end Detour

open Detour in
/-- After a predecessor without a belief and one without a possible transition, all candidates start
anew. If the latter has a transition to `b1`, then `b1` alone is left: nobody leads to `b3`, and
nobody who is believed in leads to `b2`. -/
theorem execute_recovery_idle :
    (given ends idle).execute [believed, other 0] (some 0) 1 =
        (given ends .empty).execute [] none 1 ∧
      ∃ vector, (given ends forks).execute [believed, other 0] (some 0) 1 = .ok vector ∧
        ∀ d ∈ vector, d.id = "b1" := by
  have hdistinct : (ends.map fun c => c.1.id).Nodup := by decide +kernel
  constructor
  · have hlayer : (given ends idle).layer? [believed, other 0] (some 0) 1 =
        .ok ⟨[believed, other 0], ends, idle⟩ := rfl
    obtain ⟨hrecovered, -⟩ := execute_recovery hlayer (by decide) hdistinct
    refine ((hrecovered fun p hp c hc t x hfound => ?_).2 (given ends .empty) none 1 rfl).symm
    rcases List.mem_cons.1 hp with rfl | hp
    · have hidle : ∀ entry ∈ idle.entries, entry.1 = "a1" → ∀ way ∈ entry.2.entries,
          way.2.2 = 0 := by decide +kernel
      obtain ⟨row, hrow, hway⟩ := Option.bind_eq_some_iff.1 hfound
      exact .inl (hidle _ (Table.mem_entries_of_find? hrow) rfl _ (Table.mem_entries_of_find? hway))
    · rw [List.mem_singleton.1 hp]
      exact .inr rfl
  · have hlayer : (given ends forks).layer? [believed, other 0] (some 0) 1 =
        .ok ⟨[believed, other 0], ends, forks⟩ := rfl
    obtain ⟨-, hleft, hinflow⟩ := execute_recovery hlayer (by decide) hdistinct
    have hnonneg : ∀ p ∈ [believed, other 0], 0 ≤ p.belief := by simp [believed, other]
    have hsome := hinflow hnonneg nonneg_forks believed (by simp) (candidate "b1" (1 / 2))
      List.mem_cons_self () (1 / 8) rfl (by norm_num) one_ne_zero
    obtain ⟨vector, hvector, hshares⟩ := hleft ⟨_, List.mem_cons_self, hsome⟩
    refine ⟨vector, hvector, fun d hd => ?_⟩
    obtain ⟨c, hc, hid, p, hp, t, x, hfound, -, hbelief⟩ := hshares d hd
    rcases List.mem_cons.1 hp with rfl | hp
    · rw [← hid]
      simp only [ends, List.mem_cons, List.not_mem_nil, or_false] at hc
      rcases hc with rfl | rfl | rfl
      · rfl
      · cases hfound
      · cases hfound
    · rw [List.mem_singleton.1 hp] at hbelief
      exact absurd rfl hbelief

open Detour in
/-- Two predecessors pass on shares to `b1` that cancel out. So `b2` starts anew, to which nobody
leads, although no emission is negative and something was passed on to `b1`. -/
theorem execute_recovery_cancelled :
    let predecessors : List (Candidate Unit Unit ℚ (WithBot ℝ)) :=
      [⟨"a1", (), none, none, 1 / 2, 0⟩, other (-1 / 2)]
    let candidates := [candidate "b1" 0, candidate "b2" (1 / 2)]
    (predecessors.map Candidate.id).Nodup ∧ (candidates.map fun c => c.1.id).Nodup ∧
      (∀ c ∈ candidates, 0 ≤ c.2) ∧
      (∃ p ∈ predecessors, ∃ c ∈ candidates, ∃ t x,
        even.between? p.id c.1.id = some (t, x) ∧ x ≠ 0 ∧ p.belief ≠ 0) ∧
      ∃ vector, (given candidates even).execute predecessors (some 0) 1 = .ok vector ∧
        ∃ d ∈ vector, d.id = "b2" ∧ ∀ p ∈ predecessors, even.between? p.id d.id = none := by
  intro predecessors candidates
  let layer : Layer Unit Unit ℚ (WithBot ℝ) := ⟨predecessors, candidates, even⟩
  have hlayer : (given candidates even).layer? predecessors (some 0) 1 = .ok layer := rfl
  have hnodup : (layer.predecessors.map Candidate.id).Nodup := by decide
  have hdistinct : layer.ids.Nodup := by decide +kernel
  have hzero : ∀ c ∈ layer.candidates, layer.inflow c = 0 := by decide +kernel
  have hroots : (given candidates even).execute predecessors (some 0) 1 = .ok layer.roots := by
    rw [Filter.execute_eq, hlayer, ← Layer.vector_of_inflow_eq_zero hnodup hdistinct hzero]
    rfl
  have hpassed : ∃ p ∈ predecessors, ∃ c ∈ candidates, ∃ t x,
      even.between? p.id c.1.id = some (t, x) ∧ x ≠ 0 ∧ p.belief ≠ 0 :=
    ⟨_, List.mem_cons_self, _, List.mem_cons_self, (), 1 / 2, rfl, by norm_num, by norm_num⟩
  have hmem : candidate "b2" (1 / 2) ∈ layer.candidates.filter fun c => !(c.2 == 0) :=
    List.mem_filter.2 ⟨List.mem_cons_of_mem _ List.mem_cons_self, by decide +kernel⟩
  exact ⟨hnodup, hdistinct, by decide +kernel, hpassed, layer.roots, hroots, _,
    List.mem_map_of_mem hmem, rfl, by decide⟩

end RoadMatching
