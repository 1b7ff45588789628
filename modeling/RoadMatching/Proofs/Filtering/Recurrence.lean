import RoadMatching.Proofs.Filtering.Layers

/-!
The recurrence of the filter over the layers of a regular run.

* `Live`: the vectors that the filter goes on from, with beliefs that are positive and scores that
  are logarithms. `Layer.live_vector`: the vector of a layer is one.
* `Layer.exists_of_mem_reached`, `Layer.exists_mem_reached`: a candidate that goes on comes from a
  predecessor, and its score is the greatest that any predecessor offers.
* `Layer.exists_of_mem_rooted`, `Layer.exists_mem_rooted`: the candidates of a first layer have the
  scores of their emissions.
* `Dominates`: no chain that ends in a candidate of a vector has a score greater than that of the
  candidate. `Dominates.first` and `Dominates.next` are the two cases of the recurrence.
-/

namespace RoadMatching

variable {P T K S : Type} [Field K] [LinearOrder K] [IsStrictOrderedRing K]

namespace Filter

/-! ### Shares of positive beliefs -/

omit [LinearOrder K] [IsStrictOrderedRing K] in
lemma foldl_belief_eq_sum (vector : List (Candidate P T K S)) :
    vector.foldl (fun sum c => sum + c.belief) 0 = (vector.map Candidate.belief).sum := by
  rw [List.sum_eq_foldl, List.foldl_map]

/-- Positive beliefs have a positive sum. -/
lemma sum_belief_pos {vector : List (Candidate P T K S)} (hpos : ∀ c ∈ vector, 0 < c.belief)
    (hne : vector ≠ []) : 0 < vector.foldl (fun sum c => sum + c.belief) 0 := by
  rw [foldl_belief_eq_sum]
  refine List.sum_pos _ (fun x hx => ?_) (by simpa using hne)
  obtain ⟨c, hc, rfl⟩ := List.mem_map.1 hx
  exact hpos c hc

/-- Positive beliefs have positive shares. -/
lemma exists_of_mem_normalise {vector : List (Candidate P T K S)}
    (hpos : ∀ c ∈ vector, 0 < c.belief) {c : Candidate P T K S} (hc : c ∈ normalise vector) :
    ∃ d ∈ vector, ∃ share, 0 < share ∧ c = { d with belief := share } := by
  obtain ⟨d, hd, rfl⟩ := mem_normalise.1 hc
  exact ⟨d, hd, _, div_pos (hpos d hd) (sum_belief_pos hpos (List.ne_nil_of_mem hd)), rfl⟩

omit [LinearOrder K] [IsStrictOrderedRing K] in
/-- Each candidate has a share. -/
lemma exists_mem_normalise {vector : List (Candidate P T K S)} {d : Candidate P T K S}
    (hd : d ∈ vector) : ∃ share, { d with belief := share } ∈ normalise vector :=
  ⟨_, mem_normalise.2 ⟨d, hd, rfl⟩⟩

end Filter

variable [BEq K] [LawfulBEq K] [Add S] [LinearOrder S] [Score K S]

/-- The vectors that the filter goes on from: their candidates are distinct, with positive beliefs
and the scores of probabilities that are not impossible. -/
structure Live (vector : List (Candidate P T K S)) : Prop where
  nodup : (vector.map Candidate.id).Nodup
  beliefs : ∀ c ∈ vector, 0 < c.belief
  scores : ∀ c ∈ vector, ∃ x : K, 0 < x ∧ c.score = Score.log10 x

namespace Layer

variable {layer : Layer P T K S} {layers : List (Layer P T K S)}

omit [IsStrictOrderedRing K] [LawfulBEq K] in
/-- The candidates of a layer of a regular run are distinct. -/
lemma nodup_ids (hreg : Regular (layer :: layers)) : layer.ids.Nodup := by
  have hdistinct := hreg.distinct
  rw [List.flatMap_cons] at hdistinct
  exact hdistinct.of_append_left

/-! ### Candidates that go on -/

/-- With arrivals, a candidate has a positive belief, the greatest score that they offer and the
predecessor that offers it; without, it has no belief. -/
lemma landed_cases (hlog : Score.IsLogarithm K S) (hreg : Regular (layer :: layers))
    (hlive : Live layer.predecessors) {c : Candidate P T K S × K} (hc : c ∈ layer.candidates) :
    (Filter.arrivals layer.predecessors layer.transitions c.1.id = [] ∧
      (Filter.landed layer.predecessors layer.transitions c).belief = 0) ∨
    (0 < (Filter.landed layer.predecessors layer.transitions c).belief ∧
      (∀ a ∈ Filter.arrivals layer.predecessors layer.transitions c.1.id,
        Filter.arrivalScore c.2 a ≤ (Filter.landed layer.predecessors layer.transitions c).score) ∧
      ∃ a ∈ Filter.arrivals layer.predecessors layer.transitions c.1.id,
        (Filter.landed layer.predecessors layer.transitions c).predecessor = some a.1.id ∧
        (Filter.landed layer.predecessors layer.transitions c).score =
          Filter.arrivalScore c.2 a) := by
  set arrivals := Filter.arrivals layer.predecessors layer.transitions c.1.id with harrivals
  have hlanded : Filter.landed layer.predecessors layer.transitions c =
      arrivals.foldl (Filter.offer c.2) { c.1 with belief := 0, score := Score.impossible K } := rfl
  have hpos : ∀ a ∈ arrivals, 0 < a.2.2 := by
    intro a ha
    obtain ⟨-, hbetween, hne⟩ := Filter.mem_arrivals.1 ha
    exact hreg.transition_pos hbetween hne
  have hemission := hreg.emission_pos hc
  have hbelief : (Filter.landed layer.predecessors layer.transitions c).belief =
      (arrivals.map fun a => a.2.2 * a.1.belief).sum := by
    rw [hlanded, Filter.belief_foldl_offer, zero_add]
  by_cases hnil : arrivals = []
  · refine .inl ⟨hnil, ?_⟩
    rw [hbelief, hnil, List.map_nil, List.sum_nil]
  · obtain ⟨-, hall, hsource⟩ := Filter.score_foldl_offer c.2 arrivals
      { c.1 with belief := 0, score := Score.impossible K }
    rw [← hlanded] at hall hsource
    refine .inr ⟨?_, hall, ?_⟩
    · rw [hbelief]
      refine List.sum_pos _ (fun x hx => ?_) (by simpa using hnil)
      obtain ⟨a, ha, rfl⟩ := List.mem_map.1 hx
      exact mul_pos (hpos a ha) (hlive.beliefs a.1 (Filter.mem_arrivals.1 ha).1)
    · rcases hsource with ⟨-, himpossible⟩ | hsource
      · -- an arrival offers more than what is impossible
        obtain ⟨a, ha⟩ := List.exists_mem_of_ne_nil _ hnil
        obtain ⟨x, hx, hscore⟩ := hlive.scores a.1 (Filter.mem_arrivals.1 ha).1
        have hoffer := hall a ha
        rw [himpossible, Filter.arrivalScore, hscore,
          ← hlog.mul_mul hx (hpos a ha) hemission] at hoffer
        exact absurd hoffer (not_le.2
          (hlog.impossible (mul_pos (mul_pos hx (hpos a ha)) hemission)))
      · exact hsource

/-- The candidates that go on are those with arrivals. -/
lemma mem_reached (hlog : Score.IsLogarithm K S) (hreg : Regular (layer :: layers))
    (hlive : Live layer.predecessors) {d : Candidate P T K S} :
    d ∈ layer.reached ↔ ∃ c ∈ layer.candidates,
      Filter.arrivals layer.predecessors layer.transitions c.1.id ≠ [] ∧
      d = { Filter.landed layer.predecessors layer.transitions c with
        belief := (Filter.landed layer.predecessors layer.transitions c).belief * c.2 } := by
  rw [reached, Filter.continued_eq hlive.nodup (nodup_ids hreg), List.mem_filterMap]
  refine exists_congr fun c => and_congr_right fun hc => ?_
  rcases landed_cases hlog hreg hlive hc with ⟨hnil, hzero⟩ | ⟨hpos, -, a, ha, -⟩
  · simp [hnil, hzero]
  · have hne : ¬ ((Filter.landed layer.predecessors layer.transitions c).belief == 0) = true := by
      simpa using hpos.ne'
    rw [if_neg hne, Option.some.injEq, eq_comm]
    exact (and_iff_right (List.ne_nil_of_mem ha)).symm

/-- A candidate that goes on comes from a predecessor. -/
lemma exists_of_mem_reached (hlog : Score.IsLogarithm K S) (hreg : Regular (layer :: layers))
    (hlive : Live layer.predecessors) {d : Candidate P T K S} (hd : d ∈ layer.reached) :
    0 < d.belief ∧ ∃ c ∈ layer.candidates, ∃ p ∈ layer.predecessors, ∃ t x,
      layer.transitions.between? p.id c.1.id = some (t, x) ∧ x ≠ 0 ∧ d.id = c.1.id ∧
      d.predecessor = some p.id ∧ d.score = p.score + Score.log10 x + Score.log10 c.2 := by
  obtain ⟨c, hc, hne, rfl⟩ := (mem_reached hlog hreg hlive).1 hd
  have hemission := hreg.emission_pos hc
  rcases landed_cases hlog hreg hlive hc with ⟨hnil, -⟩ | ⟨hpos, -, a, ha, hpredecessor, hscore⟩
  · exact absurd hnil hne
  · obtain ⟨hp, hbetween, hx⟩ := Filter.mem_arrivals.1 ha
    exact ⟨mul_pos hpos hemission, c, hc, a.1, hp, a.2.1, a.2.2, hbetween, hx,
      Filter.id_foldl_offer _ _ _, hpredecessor, hscore⟩

/-- A candidate goes on with at least the score that a predecessor offers. -/
lemma exists_mem_reached (hlog : Score.IsLogarithm K S) (hreg : Regular (layer :: layers))
    (hlive : Live layer.predecessors) {c : Candidate P T K S × K} (hc : c ∈ layer.candidates)
    {p : Candidate P T K S} (hp : p ∈ layer.predecessors) {t : T} {x : K}
    (hbetween : layer.transitions.between? p.id c.1.id = some (t, x)) (hx : x ≠ 0) :
    ∃ d ∈ layer.reached,
      d.id = c.1.id ∧ p.score + Score.log10 x + Score.log10 c.2 ≤ d.score := by
  have ha : (p, t, x) ∈ Filter.arrivals layer.predecessors layer.transitions c.1.id :=
    Filter.mem_arrivals.2 ⟨hp, hbetween, hx⟩
  have hne := List.ne_nil_of_mem ha
  rcases landed_cases hlog hreg hlive hc with ⟨hnil, -⟩ | ⟨-, hall, -⟩
  · exact absurd hnil hne
  · exact ⟨_, (mem_reached hlog hreg hlive).2 ⟨c, hc, hne, rfl⟩, Filter.id_foldl_offer _ _ _,
      hall _ ha⟩

/-! ### Candidates of a first layer -/

omit [IsStrictOrderedRing K] [LawfulBEq K] in
/-- A candidate by its emission alone has no predecessor. -/
lemma exists_of_mem_rooted (hreg : Regular (layer :: layers)) {d : Candidate P T K S}
    (hd : d ∈ Filter.rooted layer.candidates) :
    0 < d.belief ∧ ∃ c ∈ layer.candidates, d.id = c.1.id ∧ d.predecessor = none ∧
      d.score = Score.log10 c.2 := by
  obtain ⟨c, hc, rfl⟩ := List.mem_map.1 hd
  have hc := List.mem_of_mem_filter hc
  exact ⟨hreg.emission_pos hc, c, hc, rfl, rfl, rfl⟩

omit [IsStrictOrderedRing K] in
/-- All candidates start by their emissions. -/
lemma exists_mem_rooted (hreg : Regular (layer :: layers)) {c : Candidate P T K S × K}
    (hc : c ∈ layer.candidates) :
    ∃ d ∈ Filter.rooted layer.candidates, d.id = c.1.id ∧ d.score = Score.log10 c.2 := by
  have hemission := hreg.emission_pos hc
  refine ⟨Filter.root c.1 c.2, List.mem_map.2 ⟨c, List.mem_filter.2 ⟨hc, ?_⟩, rfl⟩, rfl, rfl⟩
  simpa using hemission.ne'

/-! ### The vector of a layer -/

omit [LinearOrder K] [IsStrictOrderedRing K] [LawfulBEq K] in
/-- If a candidate goes on, the vector is not empty. -/
lemma vector_ne_nil (hne : layer.reached ≠ []) : layer.vector ≠ [] := by
  rw [vector, if_neg (by simpa using hne), ← List.length_pos_iff, Filter.length_normalise]
  exact List.length_pos_iff.2 hne

/-- The filter can go on from the vector of a layer. -/
lemma live_vector (hlog : Score.IsLogarithm K S) (hreg : Regular (layer :: layers))
    (hlive : Live layer.predecessors) : Live layer.vector := by
  have hlayer : ∀ d ∈
      if layer.reached.isEmpty then Filter.rooted layer.candidates else layer.reached,
      0 < d.belief ∧ ∃ x : K, 0 < x ∧ d.score = Score.log10 x := by
    intro d hd
    split at hd
    · obtain ⟨hpos, c, hc, -, -, hscore⟩ := exists_of_mem_rooted hreg hd
      exact ⟨hpos, c.2, hreg.emission_pos hc, hscore⟩
    · obtain ⟨hpos, c, hc, p, hp, t, x, hbetween, hx, -, -, hscore⟩ :=
        exists_of_mem_reached hlog hreg hlive hd
      obtain ⟨y, hy, hp⟩ := hlive.scores p hp
      have hemission := hreg.emission_pos hc
      have hx := hreg.transition_pos hbetween hx
      refine ⟨hpos, y * x * c.2, mul_pos (mul_pos hy hx) hemission, ?_⟩
      rw [hscore, hp, hlog.mul_mul hy hx hemission]
  refine ⟨(nodup_ids hreg).sublist (sublist_ids layer), fun c hc => ?_, fun c hc => ?_⟩
  · obtain ⟨d, -, share, hshare, rfl⟩ :=
      Filter.exists_of_mem_normalise (fun d hd => (hlayer d hd).1) hc
    exact hshare
  · obtain ⟨d, hd, share, -, rfl⟩ :=
      Filter.exists_of_mem_normalise (fun d hd => (hlayer d hd).1) hc
    exact (hlayer d hd).2

omit [LawfulBEq K] in
/-- The candidates of a first layer start chains. -/
lemma chain_of_first (hreg : Regular [layer]) (hnil : layer.reached = []) {c : Candidate P T K S}
    (hc : c ∈ layer.vector) : c.predecessor = none ∧ Chain [layer] [c.id] c.score := by
  rw [vector, hnil, List.isEmpty_nil, if_pos rfl] at hc
  obtain ⟨d, hd, share, -, rfl⟩ :=
    Filter.exists_of_mem_normalise (fun d hd => (exists_of_mem_rooted hreg hd).1) hc
  obtain ⟨-, e, he, hid, hpredecessor, hscore⟩ := exists_of_mem_rooted hreg hd
  refine ⟨hpredecessor, ?_⟩
  rw [hid, hscore]
  exact .start he

/-- The candidates of a later layer continue the chains of their predecessors. -/
lemma chain_of_next (hlog : Score.IsLogarithm K S) (hreg : Regular (layer :: layers))
    (hlive : Live layer.predecessors) (hne : layer.reached ≠ []) {c : Candidate P T K S}
    (hc : c ∈ layer.vector) :
    ∃ p ∈ layer.predecessors, c.predecessor = some p.id ∧
      ∀ path, Chain layers (p.id :: path) p.score →
        Chain (layer :: layers) (c.id :: p.id :: path) c.score := by
  rw [vector, if_neg (by simpa using hne)] at hc
  obtain ⟨d, hd, share, -, rfl⟩ := Filter.exists_of_mem_normalise
    (fun d hd => (exists_of_mem_reached hlog hreg hlive hd).1) hc
  obtain ⟨-, e, he, p, hp, t, x, hbetween, hx, hid, hpredecessor, hscore⟩ :=
    exists_of_mem_reached hlog hreg hlive hd
  refine ⟨p, hp, hpredecessor, fun path hpath => ?_⟩
  rw [hid, hscore]
  exact .next hpath he hbetween hx

end Layer

/-! ### Greatest scores -/

/-- Each chain ends in a candidate of the vector, and has no greater score. -/
def Dominates (vector : List (Candidate P T K S)) (layers : List (Layer P T K S)) : Prop :=
  ∀ path score, Chain layers path score → ∃ c ∈ vector, path.head? = some c.id ∧ score ≤ c.score

variable {layer : Layer P T K S} {layers : List (Layer P T K S)}

omit [IsStrictOrderedRing K] in
/-- The vector of a first layer has all chains of one candidate. -/
lemma Dominates.first (hreg : Regular [layer]) (hnil : layer.reached = []) :
    Dominates layer.vector [layer] := by
  intro path score hchain
  cases hchain with
  | start hc =>
    obtain ⟨d, hd, hid, hscore⟩ := Layer.exists_mem_rooted hreg hc
    obtain ⟨share, hshare⟩ := Filter.exists_mem_normalise hd
    refine ⟨{ d with belief := share }, ?_, by rw [List.head?_cons, hid], hscore.ge⟩
    rw [Layer.vector, hnil, List.isEmpty_nil, if_pos rfl]
    exact hshare
  | next h => cases h

/-- If the predecessors of a layer have the greatest scores of all chains so far, so has its
vector. -/
lemma Dominates.next (hlog : Score.IsLogarithm K S) (hreg : Regular (layer :: layers))
    (hlive : Live layer.predecessors) (hne : layers ≠ [])
    (h : Dominates layer.predecessors layers) : Dominates layer.vector (layer :: layers) := by
  intro path score hchain
  cases hchain with
  | start => exact absurd rfl hne
  | @next _ _ c p path score t x hprevious hc hbetween hx =>
    obtain ⟨q, hq, hp, hle⟩ := h _ _ hprevious
    rw [List.head?_cons, Option.some.injEq] at hp
    subst hp
    obtain ⟨d, hd, hid, hoffer⟩ := Layer.exists_mem_reached hlog hreg hlive hc hq hbetween hx
    obtain ⟨share, hshare⟩ := Filter.exists_mem_normalise hd
    refine ⟨{ d with belief := share }, ?_, by rw [List.head?_cons, hid], le_trans ?_ hoffer⟩
    · rw [Layer.vector, if_neg (by simpa using List.ne_nil_of_mem hd)]
      exact hshare
    · obtain ⟨y, hy, rfl⟩ := hprevious.exists_log hlog hreg.tail
      obtain ⟨z, hz, hscore⟩ := hlive.scores q hq
      have hx' := hreg.transition_pos hbetween hx
      rw [hscore] at hle ⊢
      exact hlog.add_le_add hy hz hx' (hreg.emission_pos hc) hle

end RoadMatching
