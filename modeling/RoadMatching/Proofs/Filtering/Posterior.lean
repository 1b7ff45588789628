import RoadMatching.Proofs.Filtering.Normalisation

/-!
Beliefs as posterior probabilities.

The belief of a candidate is found step by step, from vectors that have been normalised and have
lost the candidates without a belief. It is what it would be if all sequences of candidates were
summed up at the end.

* `Forward`: the runs in which a filter goes on from its own last vector; `Steady`: the layers of
  those in which some candidate goes on at every step.
* `lineages`: the sequences of one candidate of each layer, and `weight`, the product of their
  emissions and transitions. `mass`: the weights of those that end in a candidate; `evidence`: the
  weights of all.
* `mass_next`: the recurrence of the masses, over all candidates of the layer before.
* `Proportional`: the beliefs of a vector are in proportion to the masses, and only candidates
  without a mass are missing. `Proportional.first` and `Proportional.next` are the two cases of a
  layer, and `Proportional.normalise` makes the evidence the factor.
* `Forward.posterior`: in a steady run the belief of a candidate is its share of the evidence.
  `Forward.posterior_fork`: two candidates at seven to four.
-/

namespace RoadMatching

variable {P T Q K S ε : Type} [Field K]

/-! ### Runs -/

section Runs

variable [BEq K] [Add S] [LT S] [DecidableLT S] [Score K S]

/-- The runs of a filter on its own last vector, with the sample that it is for. The layers are
latest first. -/
inductive Forward (filter : Filter P T Q ε K S) :
    List (Layer P T K S) → List (Candidate P T K S) → Option Q → Prop
  | start : Forward filter [] [] none
  | step {layers : List (Layer P T K S)} {vector after : List (Candidate P T K S)}
      {previous : Option Q} {sample : Q} {layer : Layer P T K S}
      (h : Forward filter layers vector previous)
      (hlayer : filter.layer? vector previous sample = .ok layer)
      (hafter : filter.execute vector previous sample = .ok after) :
      Forward filter (layer :: layers) after (some sample)

/-- The layers of a steady run: the candidates of each are distinct and have an emission, no
transition has a negative probability, and some candidate of each layer but the first goes on from
the one before. -/
structure Steady [LinearOrder K] (layers : List (Layer P T K S)) : Prop where
  distinct : ∀ layer ∈ layers, layer.ids.Nodup
  emissions : ∀ layer ∈ layers, ∀ c ∈ layer.candidates, 0 < c.2
  transitions : ∀ layer ∈ layers, Filter.Nonneg layer.transitions
  reached : ∀ layer ∈ layers.dropLast, layer.reached ≠ []

/-- The layers before the last one are those of a steady run too. -/
lemma Steady.tail [LinearOrder K] {layer : Layer P T K S} {layers : List (Layer P T K S)}
    (h : Steady (layer :: layers)) : Steady layers := by
  refine ⟨fun l hl => h.distinct l (List.mem_cons_of_mem _ hl),
    fun l hl => h.emissions l (List.mem_cons_of_mem _ hl),
    fun l hl => h.transitions l (List.mem_cons_of_mem _ hl), fun l hl => h.reached l ?_⟩
  cases layers with
  | nil => cases hl
  | cons prev rest => exact List.mem_cons_of_mem _ hl

end Runs

/-! ### Lineages -/

/-- The probability of the transition between two candidates, zero if there is none. -/
def Layer.probability (layer : Layer P T K S) (p c : CandidateId) : K :=
  ((layer.transitions.between? p c).map Prod.snd).getD 0

/-- The sequences of one candidate of each layer, latest first. -/
def lineages : List (Layer P T K S) → List (List (Candidate P T K S × K))
  | [] => [[]]
  | layer :: layers => layer.candidates.flatMap fun c => (lineages layers).map (c :: ·)

/-- The product of the emissions of a lineage and of the transitions between its candidates. -/
def weight : List (Layer P T K S) → List (Candidate P T K S × K) → K
  | layer :: layers, c :: p :: path =>
    weight layers (p :: path) * layer.probability p.1.id c.1.id * c.2
  | _, [c] => c.2
  | _, _ => 1

/-- The weights of all lineages that end in a candidate. -/
def mass (layers : List (Layer P T K S)) (id : CandidateId) : K :=
  (((lineages layers).filter fun path => path.head?.any fun c => c.1.id == id).map
    (weight layers)).sum

/-- The weights of all lineages. -/
def evidence (layers : List (Layer P T K S)) : K := ((lineages layers).map (weight layers)).sum

variable {layer prev : Layer P T K S} {layers rest : List (Layer P T K S)}

omit [Field K] in
/-- A lineage has a candidate of each layer. -/
lemma mem_lineages {path : List (Candidate P T K S × K)} :
    path ∈ lineages layers ↔ List.Forall₂ (fun c layer => c ∈ layer.candidates) path layers := by
  induction layers generalizing path with
  | nil => simp [lineages]
  | cons layer layers ih =>
    simp only [lineages, List.mem_flatMap, List.mem_map, ih, List.forall₂_cons_right_iff]
    constructor
    · rintro ⟨c, hc, path, hpath, rfl⟩
      exact ⟨c, path, hc, hpath, rfl⟩
    · rintro ⟨c, path, hc, hpath, rfl⟩
      exact ⟨c, hc, path, hpath, rfl⟩

/-- A sum over the lineages is one over the last candidates and the lineages before them. -/
lemma sum_lineages (f : List (Candidate P T K S × K) → K) :
    ((lineages (layer :: layers)).map f).sum =
      (layer.candidates.map fun c =>
        ((lineages layers).map fun path => f (c :: path)).sum).sum := by
  rw [lineages, List.map_flatMap, List.flatMap, List.sum_flatten, List.map_map]
  congr 2
  funext c
  rw [Function.comp_apply, List.map_map]
  rfl

/-- The lineages that end in a candidate are those before it, with the candidate. -/
lemma mass_of_mem (hdistinct : layer.ids.Nodup) {c : Candidate P T K S × K}
    (hc : c ∈ layer.candidates) :
    mass (layer :: layers) c.1.id =
      ((lineages layers).map fun path => weight (layer :: layers) (c :: path)).sum := by
  obtain ⟨before, after, hsplit⟩ := List.append_of_mem hc
  rw [Layer.ids, hsplit, List.map_append, List.map_cons, List.nodup_middle, List.nodup_cons,
    ← List.map_append] at hdistinct
  have hother : ∀ d ∈ before ++ after, (d.1.id == c.1.id) = false := by
    intro d hd
    rw [beq_eq_false_iff_ne]
    exact fun heq => hdistinct.1 (List.mem_map.2 ⟨d, hd, heq⟩)
  have hnone : ∀ others : List (Candidate P T K S × K), (∀ d ∈ others, (d.1.id == c.1.id) = false) →
      (others.flatMap fun d => (lineages layers).map (d :: ·)).filter
        (fun path => path.head?.any fun d => d.1.id == c.1.id) = [] := by
    intro others hothers
    rw [List.filter_eq_nil_iff]
    intro path hpath
    obtain ⟨d, hd, hpath⟩ := List.mem_flatMap.1 hpath
    obtain ⟨path, -, rfl⟩ := List.mem_map.1 hpath
    simp [hothers d hd]
  have hall : ((lineages layers).map (c :: ·)).filter
      (fun path => path.head?.any fun d => d.1.id == c.1.id) = (lineages layers).map (c :: ·) := by
    rw [List.filter_eq_self]
    intro path hpath
    obtain ⟨path, -, rfl⟩ := List.mem_map.1 hpath
    simp
  rw [mass, lineages, hsplit, List.flatMap_append, List.flatMap_cons, List.filter_append,
    List.filter_append, hall, hnone before fun d hd => hother d (List.mem_append_left _ hd),
    hnone after fun d hd => hother d (List.mem_append_right _ hd), List.nil_append,
    List.append_nil, List.map_map]
  rfl

/-- Every lineage ends in one of the candidates. -/
lemma evidence_eq_sum (hdistinct : layer.ids.Nodup) :
    evidence (layer :: layers) = (layer.ids.map (mass (layer :: layers))).sum := by
  rw [evidence, sum_lineages, Layer.ids, List.map_map]
  exact congrArg List.sum (List.map_congr_left fun c hc => (mass_of_mem hdistinct hc).symm)

/-- The mass of a candidate of a first layer is its emission. -/
lemma mass_first (hdistinct : layer.ids.Nodup) {c : Candidate P T K S × K}
    (hc : c ∈ layer.candidates) : mass [layer] c.1.id = c.2 := by
  rw [mass_of_mem hdistinct hc]
  simp [lineages, weight]

/-- The mass of a later candidate comes from all candidates before, by the transitions. -/
lemma mass_next (hdistinct : layer.ids.Nodup) (hbefore : prev.ids.Nodup)
    {c : Candidate P T K S × K} (hc : c ∈ layer.candidates) :
    mass (layer :: prev :: rest) c.1.id =
      (prev.ids.map fun id => layer.probability id c.1.id * mass (prev :: rest) id).sum * c.2 := by
  rw [mass_of_mem hdistinct hc, sum_lineages, Layer.ids, List.map_map, ← List.sum_map_mul_right]
  refine congrArg List.sum (List.map_congr_left fun p hp => ?_)
  rw [Function.comp_apply, mass_of_mem hbefore hp, mul_comm (layer.probability _ _),
    ← List.sum_map_mul_right, ← List.sum_map_mul_right]
  rfl

/-! ### Beliefs in proportion to masses -/

namespace Filter

variable [BEq K] [LawfulBEq K]

/-- A sum over the transitions that are not impossible is one over all predecessors. -/
lemma sum_arrivals (predecessors : List (Candidate P T K S)) (id : CandidateId) :
    ((arrivals predecessors layer.transitions id).map fun a => a.2.2 * a.1.belief).sum =
      (predecessors.map fun p => layer.probability p.id id * p.belief).sum := by
  induction predecessors with
  | nil => rfl
  | cons p predecessors ih =>
    rw [List.map_cons, List.sum_cons, ← ih, arrivals, List.filterMap_cons, Layer.probability]
    cases layer.transitions.between? p.id id with
    | none => simp [arrivals]
    | some found =>
      by_cases hzero : found.2 = 0
      · simp [arrivals, hzero]
      · simp [arrivals, hzero]

variable [Add S] [LT S] [DecidableLT S] [Score K S]

/-- Without predecessors no candidate goes on. -/
lemma continued_nil (candidates : List (Candidate P T K S × K)) (transitions : Transitions T K) :
    continued [] candidates transitions = [] := by
  induction candidates generalizing transitions with
  | nil => rfl
  | cons c rest ih => simp [continued, reach, ih]

end Filter

variable [LinearOrder K] [IsStrictOrderedRing K]

/-- The beliefs of a vector are positive and in proportion to the masses of its candidates, and the
candidates of the layer that are not in it have no mass. -/
structure Proportional (layer : Layer P T K S) (layers : List (Layer P T K S))
    (vector : List (Candidate P T K S)) (factor : K) : Prop where
  sublist : (vector.map Candidate.id).Sublist layer.ids
  pos : 0 < factor
  beliefs : ∀ c ∈ vector, 0 < c.belief ∧ c.belief * factor = mass (layer :: layers) c.id
  others : ∀ id ∈ layer.ids, id ∉ vector.map Candidate.id → mass (layer :: layers) id = 0

variable {vector : List (Candidate P T K S)} {factor : K}

omit [IsStrictOrderedRing K] in
/-- The candidates that are missing make no difference to sums of masses. -/
lemma Proportional.sum_eq (h : Proportional layer layers vector factor)
    (hdistinct : layer.ids.Nodup) (f : CandidateId → K) :
    (layer.ids.map fun id => f id * mass (layer :: layers) id).sum =
      (vector.map fun c => f c.id * c.belief).sum * factor := by
  have hvector : (vector.map fun c => f c.id * c.belief).sum * factor =
      ((vector.map Candidate.id).map fun id => f id * mass (layer :: layers) id).sum := by
    rw [← List.sum_map_mul_right, List.map_map]
    refine congrArg List.sum (List.map_congr_left fun c hc => ?_)
    rw [Function.comp_apply, ← (h.beliefs c hc).2, mul_assoc]
  rw [hvector, ← List.sum_toFinset _ hdistinct, ← List.sum_toFinset _ (hdistinct.sublist h.sublist)]
  refine (Finset.sum_subset (fun id hid => ?_) fun id hid hnot => ?_).symm
  · exact List.mem_toFinset.2 (h.sublist.subset (List.mem_toFinset.1 hid))
  · rw [h.others id (List.mem_toFinset.1 hid) fun hmem => hnot (List.mem_toFinset.2 hmem), mul_zero]

/-- Shares of the sum are in proportion too, and the factor is the evidence. -/
lemma Proportional.normalise (h : Proportional layer layers vector factor)
    (hdistinct : layer.ids.Nodup) (hne : vector ≠ []) :
    Proportional layer layers (Filter.normalise vector) (evidence (layer :: layers)) := by
  have hpos := Filter.sum_belief_pos (fun c hc => (h.beliefs c hc).1) hne
  have hevidence : evidence (layer :: layers) =
      vector.foldl (fun sum c => sum + c.belief) 0 * factor := by
    have hsum := h.sum_eq hdistinct fun _ => 1
    simp only [one_mul] at hsum
    rw [evidence_eq_sum hdistinct, Filter.foldl_belief_eq_sum]
    exact hsum
  refine ⟨?_, ?_, fun c hc => ?_, ?_⟩
  · rw [Filter.map_id_normalise]
    exact h.sublist
  · rw [hevidence]
    exact mul_pos hpos h.pos
  · obtain ⟨d, hd, rfl⟩ := Filter.mem_normalise.1 hc
    obtain ⟨hbelief, hmass⟩ := h.beliefs d hd
    refine ⟨div_pos hbelief hpos, ?_⟩
    rw [hevidence, ← hmass, ← mul_assoc, div_mul_cancel₀ _ hpos.ne']
  · rw [Filter.map_id_normalise]
    exact h.others

variable [BEq K] [LawfulBEq K] [Add S] [LT S] [DecidableLT S] [Score K S]

omit [IsStrictOrderedRing K] [Add S] [LT S] [DecidableLT S] in
/-- With emissions all candidates start. -/
lemma map_id_rooted (hemissions : ∀ c ∈ layer.candidates, 0 < c.2) :
    (Filter.rooted layer.candidates).map Candidate.id = layer.ids := by
  have hall : (layer.candidates.filter fun c => !(c.2 == 0)) = layer.candidates :=
    List.filter_eq_self.2 fun c hc => by simpa using (hemissions c hc).ne'
  rw [Filter.rooted, hall, List.map_map]
  rfl

/-- The candidates of a first layer, before they are normalised. -/
lemma Proportional.first (h : Steady [layer]) :
    Proportional layer [] (Filter.rooted layer.candidates) 1 := by
  have hdistinct := h.distinct layer List.mem_cons_self
  have hemissions := h.emissions layer List.mem_cons_self
  have hids := map_id_rooted hemissions
  refine ⟨hids ▸ .refl _, one_pos, fun c hc => ?_, fun id hid hnot => absurd (hids ▸ hid) hnot⟩
  obtain ⟨d, hd, rfl⟩ := List.mem_map.1 hc
  have hd := List.mem_of_mem_filter hd
  refine ⟨hemissions d hd, ?_⟩
  show d.2 * 1 = mass [layer] d.1.id
  rw [mass_first hdistinct hd, mul_one]

/-- The candidates that go on from a vector in proportion, before they are normalised. -/
lemma Proportional.next (h : Proportional prev rest layer.predecessors factor)
    (hsteady : Steady (layer :: prev :: rest)) :
    Proportional layer (prev :: rest) layer.reached factor := by
  have hdistinct := hsteady.distinct layer List.mem_cons_self
  have hbefore := hsteady.distinct prev (List.mem_cons_of_mem _ List.mem_cons_self)
  have hemissions := hsteady.emissions layer List.mem_cons_self
  have hnodup := hbefore.sublist h.sublist
  -- what comes to a candidate, times the factor, is its mass
  have hmass : ∀ c ∈ layer.candidates,
      (Filter.landed layer.predecessors layer.transitions c).belief * c.2 * factor =
        mass (layer :: prev :: rest) c.1.id := by
    intro c hc
    rw [mass_next hdistinct hbefore hc, h.sum_eq hbefore fun id => layer.probability id c.1.id,
      Filter.landed, Filter.belief_foldl_offer, zero_add, Filter.sum_arrivals, mul_right_comm]
  have hreached : layer.reached = layer.candidates.filterMap fun c =>
      if (Filter.landed layer.predecessors layer.transitions c).belief == 0 then none
      else some { Filter.landed layer.predecessors layer.transitions c with
        belief := (Filter.landed layer.predecessors layer.transitions c).belief * c.2 } :=
    Filter.continued_eq hnodup hdistinct layer.transitions
  refine ⟨Filter.sublist_ids_continued .., h.pos, fun d hd => ?_, fun id hid hnot => ?_⟩
  · rw [hreached] at hd
    obtain ⟨c, hc, hd⟩ := List.mem_filterMap.1 hd
    have hnonneg := (Filter.reach_nonneg (fun p hp => (h.beliefs p hp).1.le) c.1 c.2
      (hsteady.transitions layer List.mem_cons_self)).1
    rw [(Filter.reach_eq hnodup c.1 c.2 layer.transitions).1] at hnonneg
    split at hd
    · cases hd
    · next hne =>
      rw [Option.some.injEq] at hd
      have hid : d.id = c.1.id := by
        rw [← hd]
        exact Filter.id_foldl_offer ..
      have hpos := lt_of_le_of_ne hnonneg fun hzero => hne (beq_iff_eq.2 hzero.symm)
      rw [hid, ← hmass c hc, ← hd]
      exact ⟨mul_pos hpos (hemissions c hc), rfl⟩
  · obtain ⟨c, hc, rfl⟩ := List.mem_map.1 hid
    have hzero : (Filter.landed layer.predecessors layer.transitions c).belief = 0 := by
      by_contra hne
      refine hnot (List.mem_map.2 ⟨{ Filter.landed layer.predecessors layer.transitions c with
        belief := (Filter.landed layer.predecessors layer.transitions c).belief * c.2 }, ?_,
        Filter.id_foldl_offer ..⟩)
      rw [hreached]
      exact List.mem_filterMap.2 ⟨c, hc, if_neg fun heq => hne (beq_iff_eq.1 heq)⟩
    rw [← hmass c hc, hzero, zero_mul, zero_mul]

/-! ### Steady runs -/

variable {filter : Filter P T Q ε K S} {previous : Option Q}

omit [LinearOrder K] [IsStrictOrderedRing K] in
/-- The vector after a run is that of its last layer, which comes after the vector before. -/
lemma Forward.exists_before (h : Forward filter (layer :: layers) vector previous) :
    ∃ before, Forward filter layers layer.predecessors before ∧ vector = layer.vector := by
  cases h with
  | step h hlayer hafter =>
    rw [Filter.execute_eq, hlayer, Except.map, Except.ok.injEq] at hafter
    rw [← Filter.predecessors_of_layer? hlayer] at h
    exact ⟨_, h, hafter.symm⟩

/-- The vector after a steady run is in proportion, with the evidence as the factor. -/
theorem Forward.proportional (h : Forward filter (layer :: layers) vector previous)
    (hsteady : Steady (layer :: layers)) (hne : layer.candidates ≠ []) :
    Proportional layer layers vector (evidence (layer :: layers)) := by
  induction layers generalizing layer vector previous with
  | nil =>
    obtain ⟨before, hbefore, rfl⟩ := h.exists_before
    generalize hpredecessors : layer.predecessors = predecessors at hbefore
    cases hbefore
    have hnil : layer.reached = [] := by
      rw [Layer.reached, hpredecessors, Filter.continued_nil]
    have hids := map_id_rooted (hsteady.emissions layer List.mem_cons_self)
    rw [Layer.vector, hnil, List.isEmpty_nil, if_pos rfl]
    refine (Proportional.first hsteady).normalise (hsteady.distinct layer List.mem_cons_self) ?_
    rintro hroot
    rw [hroot, Layer.ids, List.map_nil, eq_comm, List.map_eq_nil_iff] at hids
    exact hne hids
  | cons prev rest ih =>
    obtain ⟨before, hbefore, rfl⟩ := h.exists_before
    have hreached : layer.reached ≠ [] := hsteady.reached layer List.mem_cons_self
    -- somebody goes on, so there were candidates before
    have hcandidates : prev.candidates ≠ [] := by
      intro hnil
      obtain ⟨-, -, hvector⟩ := hbefore.exists_before
      have hsublist := Layer.sublist_ids prev
      rw [← hvector, Layer.ids, hnil, List.map_nil, List.sublist_nil, List.map_eq_nil_iff]
        at hsublist
      rw [Layer.reached, hsublist, Filter.continued_nil] at hreached
      exact hreached rfl
    have hproportional := ih hbefore hsteady.tail hcandidates
    rw [Layer.vector, if_neg (by simpa using hreached)]
    exact (hproportional.next hsteady).normalise (hsteady.distinct layer List.mem_cons_self)
      hreached

/-- **Beliefs are posterior probabilities**: after a steady run of any length, the belief of a
candidate is the weight of all sequences of candidates that end in it, divided by that of all
sequences, and no sequence that ends in a candidate without a belief has a weight. -/
theorem Forward.posterior (h : Forward filter layers vector previous) (hsteady : Steady layers) :
    (∀ c ∈ vector, 0 < evidence layers ∧ c.belief = mass layers c.id / evidence layers) ∧
      ∀ layer ∈ layers.head?, ∀ c ∈ layer.candidates, c.1.id ∉ vector.map Candidate.id →
        mass layers c.1.id = 0 := by
  cases layers with
  | nil =>
    cases h
    exact ⟨fun c hc => absurd hc List.not_mem_nil, fun layer hlayer => by cases hlayer⟩
  | cons layer rest =>
    by_cases hne : layer.candidates = []
    · obtain ⟨-, -, rfl⟩ := h.exists_before
      have hsublist := Layer.sublist_ids layer
      rw [Layer.ids, hne, List.map_nil, List.sublist_nil, List.map_eq_nil_iff] at hsublist
      rw [hsublist]
      refine ⟨fun c hc => absurd hc List.not_mem_nil, ?_⟩
      rintro _ ⟨⟩ c hc
      rw [hne] at hc
      cases hc
    · have hproportional := h.proportional hsteady hne
      refine ⟨fun c hc => ⟨hproportional.pos, ?_⟩, ?_⟩
      · rw [← (hproportional.beliefs c hc).2, mul_div_cancel_right₀ _ hproportional.pos.ne']
      · rintro _ ⟨⟩ c hc
        exact hproportional.others c.1.id (List.mem_map_of_mem hc)

/-! ### A fork -/

namespace Detour

/-- The transitions to two candidates, to one of which only the less likely start leads. -/
def forks : Transitions Unit ℚ :=
  ⟨[("a1", ⟨[("b1", (), 1 / 8)]⟩), ("a2", ⟨[("b1", (), 1 / 2), ("b2", (), 1)]⟩)]⟩

/-- The candidates after the two starts; nobody leads to the last one. -/
noncomputable def ends : List (Candidate Unit Unit ℚ (WithBot ℝ) × ℚ) :=
  [candidate "b1" (1 / 2), candidate "b2" (1 / 4), candidate "b3" 1]

/-- The filter of two samples, at the times zero and one, with a fork between them. -/
noncomputable def forking : Filter Unit Unit Int Empty ℚ (WithBot ℝ) where
  candidates _ time :=
    .ok (if time = 0 then [candidate "a1" (3 / 4), candidate "a2" (1 / 4)] else ends)
  transitions _ _ := .ok forks

/-- What that filter says about the second sample. -/
noncomputable def fork : Layer Unit Unit ℚ (WithBot ℝ) := ⟨first.vector, ends, forks⟩

lemma nonneg_forks : Filter.Nonneg forks := by
  have hall : ∀ entry ∈ forks.entries, ∀ way ∈ entry.2.entries, 0 ≤ way.2.2 := by decide +kernel
  intro p c t x h
  obtain ⟨row, hrow, hway⟩ := Option.bind_eq_some_iff.1 h
  exact hall _ (Table.mem_entries_of_find? hrow) _ (Table.mem_entries_of_find? hway)

lemma steady_first : Steady [first] where
  distinct := by decide +kernel
  emissions := by decide +kernel
  transitions layer hlayer p c t x h := by
    rw [List.mem_singleton.1 hlayer] at h
    cases h
  reached layer h := by cases h

lemma forward_first : Forward forking [first] first.vector (some 0) :=
  .step .start rfl (by rw [Filter.execute_eq]; rfl)

/-- The second start is believed in. -/
lemma exists_second_start : ∃ p ∈ first.vector, p.id = "a2" ∧ 0 < p.belief := by
  have hproportional := forward_first.proportional steady_first (List.cons_ne_nil _ _)
  have hids : first.vector.map Candidate.id = ["a1", "a2"] := by decide +kernel
  obtain ⟨p, hp, hid⟩ : ∃ p ∈ first.vector, p.id = "a2" :=
    List.mem_map.1 (hids ▸ List.mem_cons_of_mem _ List.mem_cons_self)
  exact ⟨p, hp, hid, (hproportional.beliefs p hp).1⟩

lemma steady_fork : Steady [fork, first] where
  distinct := by decide +kernel
  emissions := by decide +kernel
  transitions layer hlayer := by
    rcases List.mem_cons.1 hlayer with rfl | hlayer
    · exact nonneg_forks
    · exact steady_first.transitions layer hlayer
  reached layer hlayer := by
    rw [List.mem_singleton.1 hlayer]
    obtain ⟨p, hp, hid, hpos⟩ := exists_second_start
    have hway : forks.between? p.id "b1" = some ((), 1 / 2) := hid ▸ rfl
    have hnonneg : ∀ p ∈ first.vector, 0 ≤ p.belief := fun p hp =>
      ((forward_first.proportional steady_first (List.cons_ne_nil _ _)).beliefs p hp).1.le
    have hgoing : (Filter.landed fork.predecessors fork.transitions (candidate "b1" (1 / 2)),
        (candidate "b1" (1 / 2)).2) ∈ fork.going :=
      (Layer.mem_going_iff (by decide +kernel) (by decide +kernel) hnonneg nonneg_forks).2
        ⟨candidate "b1" (1 / 2), List.mem_cons_self, rfl, p, hp, (), 1 / 2, hway, by norm_num,
          hpos.ne'⟩
    rw [Layer.reached, Filter.continued_eq_map_going]
    exact List.ne_nil_of_mem (List.mem_map_of_mem hgoing)

lemma forward_fork : Forward forking [fork, first] fork.vector (some 1) := by
  have hlayer : forking.layer? first.vector (some 0) 1 = .ok fork := by
    obtain ⟨p, hp, -⟩ := exists_second_start
    rw [fork]
    cases hfirst : first.vector with
    | nil =>
      rw [hfirst] at hp
      cases hp
    | cons p rest => rfl
  exact forward_first.step hlayer (by rw [Filter.execute_eq, hlayer]; rfl)

end Detour

open Detour in
/-- Of the two candidates that somebody leads to, one has seven and the other four of eleven shares.
-/
theorem Forward.posterior_fork :
    ∃ vector, Forward forking [fork, first] vector (some 1) ∧ Steady [fork, first] ∧
      (∃ c ∈ vector, c.id = "b1" ∧ c.belief = 7 / 11) ∧
      (∃ c ∈ vector, c.id = "b2" ∧ c.belief = 4 / 11) := by
  obtain ⟨hshares, hmissing⟩ := forward_fork.posterior steady_fork
  have hevidence : evidence [fork, first] = 11 / 64 := by decide +kernel
  have hshare : ∀ c ∈ ends, ∀ x, mass [fork, first] c.1.id = x → x ≠ 0 →
      ∃ d ∈ fork.vector, d.id = c.1.id ∧ d.belief = x / (11 / 64) := by
    intro c hc x hx hne
    by_cases hid : c.1.id ∈ fork.vector.map Candidate.id
    · obtain ⟨d, hd, hid⟩ := List.mem_map.1 hid
      exact ⟨d, hd, hid, by rw [(hshares d hd).2, hid, hx, hevidence]⟩
    · exact absurd (hx.symm.trans (hmissing fork rfl c hc hid)) hne
  obtain ⟨d, hd, hid, hbelief⟩ := hshare (candidate "b1" (1 / 2)) List.mem_cons_self (7 / 64)
    (by decide +kernel) (by norm_num)
  obtain ⟨e, he, hid', hbelief'⟩ := hshare (candidate "b2" (1 / 4))
    (List.mem_cons_of_mem _ List.mem_cons_self) (4 / 64) (by decide +kernel) (by norm_num)
  refine ⟨fork.vector, forward_fork, steady_fork, ⟨d, hd, hid, ?_⟩, ⟨e, he, hid', ?_⟩⟩
  · rw [hbelief]
    norm_num
  · rw [hbelief']
    norm_num

end RoadMatching
