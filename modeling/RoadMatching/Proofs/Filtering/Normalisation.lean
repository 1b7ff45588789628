import RoadMatching.Proofs.Filtering.Viterbi

/-!
When the vectors of a filter are probability distributions.

Beliefs are divided by their sum, which must not be zero. A candidate goes on if predecessors give it
a belief; only then does its emission count. So where all candidates that go on have no emission,
their beliefs are zero, and so is the sum.

* `IsDistribution`: the beliefs of a vector are probabilities that add up to one.
  `Filter.normalise_isDistribution_iff`: shares do so exactly if one of the beliefs is not zero.
* `Filter.arrive_nonneg`, `Filter.pos_of_mem_going`: nothing makes a belief negative, so that
  candidates go on with positive ones.
* `Layer.mem_going_iff`: if names are distinct, those go on to which a predecessor leads.
* `Layer.vector_isDistribution_iff`: which vectors are distributions, if they are not empty.
* `execute_isDistribution`: a filter yields an empty vector or a distribution, unless candidates go
  on but none of them has an emission; `execute_isDistribution_emitting`: one that has.
* `execute_without_emission`: if none has one, the vector is neither empty nor a distribution.
-/

namespace RoadMatching

variable {P T Q K S ε : Type} [Field K] [LinearOrder K] [IsStrictOrderedRing K]

/-! ### Distributions -/

/-- The beliefs are the probabilities of different possibilities, one of which is true. -/
structure IsDistribution (vector : List (Candidate P T K S)) : Prop where
  nonneg : ∀ c ∈ vector, 0 ≤ c.belief
  le_one : ∀ c ∈ vector, c.belief ≤ 1
  sum_eq_one : (vector.map Candidate.belief).sum = 1

namespace Filter

omit [LinearOrder K] [IsStrictOrderedRing K] in
/-- Each share is a belief divided by the sum of all. -/
lemma map_belief_normalise (vector : List (Candidate P T K S)) :
    (normalise vector).map Candidate.belief =
      (vector.map Candidate.belief).map (· / (vector.map Candidate.belief).sum) := by
  rw [normalise, List.map_map, foldl_belief_eq_sum, List.map_map]
  rfl

/-- The shares of beliefs that are not negative make a distribution, unless all are zero. -/
theorem normalise_isDistribution_iff {vector : List (Candidate P T K S)}
    (hnonneg : ∀ c ∈ vector, 0 ≤ c.belief) :
    IsDistribution (normalise vector) ↔ ∃ c ∈ vector, c.belief ≠ 0 := by
  have hshares := map_belief_normalise vector
  set beliefs := vector.map Candidate.belief with hbeliefs
  have hle : ∀ x ∈ beliefs, 0 ≤ x := by
    intro x hx
    obtain ⟨c, hc, rfl⟩ := List.mem_map.1 hx
    exact hnonneg c hc
  have hsum : ((normalise vector).map Candidate.belief).sum = beliefs.sum / beliefs.sum := by
    rw [hshares]
    simp only [div_eq_mul_inv, List.sum_map_mul_right, List.map_id']
  constructor
  · intro h
    by_contra hzero
    have hall : beliefs.sum = 0 := by
      refine List.sum_eq_zero fun x hx => ?_
      obtain ⟨c, hc, rfl⟩ := List.mem_map.1 hx
      by_contra hne
      exact hzero ⟨c, hc, hne⟩
    have hone := h.sum_eq_one
    rw [hsum, hall, div_zero] at hone
    exact zero_ne_one hone
  · rintro ⟨c, hc, hne⟩
    have hmem : c.belief ∈ beliefs := List.mem_map_of_mem hc
    have hpos : 0 < beliefs.sum :=
      (lt_of_le_of_ne (hnonneg c hc) hne.symm).trans_le (List.single_le_sum hle _ hmem)
    have hshare : ∀ d ∈ normalise vector, ∃ x ∈ beliefs, d.belief = x / beliefs.sum := by
      intro d hd
      have hd' : d.belief ∈ (normalise vector).map Candidate.belief := List.mem_map_of_mem hd
      rw [hshares, List.mem_map] at hd'
      obtain ⟨x, hx, heq⟩ := hd'
      exact ⟨x, hx, heq.symm⟩
    refine ⟨fun d hd => ?_, fun d hd => ?_, by rw [hsum, div_self hpos.ne']⟩
    · obtain ⟨x, hx, heq⟩ := hshare d hd
      rw [heq]
      exact div_nonneg (hle x hx) hpos.le
    · obtain ⟨x, hx, heq⟩ := hshare d hd
      rw [heq, div_le_one hpos]
      exact List.single_le_sum hle x hx

/-! ### Candidates that go on -/

variable [BEq K] [LawfulBEq K] [Add S] [LT S] [DecidableLT S] [Score K S]

/-- No transition has a negative probability. -/
def Nonneg (transitions : Transitions T K) : Prop :=
  ∀ p c t x, transitions.between? p c = some (t, x) → 0 ≤ x

omit [LawfulBEq K] in
/-- A predecessor keeps the belief of a candidate and the transitions from being negative. -/
lemma arrive_nonneg {emission : K} {c : Candidate P T K S} {transitions : Transitions T K}
    {p : Candidate P T K S} (hp : 0 ≤ p.belief) (hc : 0 ≤ c.belief) (ht : Nonneg transitions) :
    0 ≤ (arrive emission (c, transitions) p).1.belief ∧
      Nonneg (arrive emission (c, transitions) p).2 := by
  have hleft : Nonneg (transitions.without p.id c.id) := by
    intro q d t x h
    rw [Transitions.between?_without] at h
    split at h
    · cases h
    · exact ht q d t x h
  rw [arrive]
  cases hb : transitions.between? p.id c.id with
  | none => exact ⟨hc, ht⟩
  | some found =>
    obtain ⟨t, x⟩ := found
    have hgrown : 0 ≤ c.belief + x * p.belief :=
      add_nonneg hc (mul_nonneg (ht p.id c.id t x hb) hp)
    simp only
    split
    · exact ⟨hc, hleft⟩
    · split
      · exact ⟨hgrown, hleft⟩
      · exact ⟨hgrown, hleft⟩

omit [LawfulBEq K] in
/-- All predecessors do. -/
lemma reach_nonneg {predecessors : List (Candidate P T K S)} (hp : ∀ p ∈ predecessors, 0 ≤ p.belief)
    (c : Candidate P T K S) (emission : K) {transitions : Transitions T K}
    (ht : Nonneg transitions) :
    0 ≤ (reach predecessors c emission transitions).1.belief ∧
      Nonneg (reach predecessors c emission transitions).2 :=
  List.foldlRecOn predecessors (arrive emission)
    (motive := fun state => 0 ≤ state.1.belief ∧ Nonneg state.2) ⟨le_rfl, ht⟩
    fun _ h p hmem => arrive_nonneg (hp p hmem) h.1 h.2

/-- Candidates go on with positive beliefs. -/
lemma pos_of_mem_going {predecessors : List (Candidate P T K S)}
    (hp : ∀ p ∈ predecessors, 0 ≤ p.belief) {candidates : List (Candidate P T K S × K)}
    {transitions : Transitions T K} (ht : Nonneg transitions) :
    ∀ c ∈ going predecessors candidates transitions, 0 < c.1.belief := by
  induction candidates generalizing transitions with
  | nil => exact fun c hc => absurd hc List.not_mem_nil
  | cons d rest ih =>
    obtain ⟨hnonneg, hleft⟩ := reach_nonneg hp d.1 d.2 ht
    rw [going]
    simp only
    split
    · exact ih hleft
    · next hne =>
      intro c hc
      rcases List.mem_cons.1 hc with rfl | hc
      · exact lt_of_le_of_ne hnonneg fun hzero => hne (beq_iff_eq.2 hzero.symm)
      · exact ih hleft c hc

omit [LinearOrder K] [IsStrictOrderedRing K] [LawfulBEq K] in
/-- What goes on has the emission of a candidate. -/
lemma exists_of_mem_going {predecessors : List (Candidate P T K S)}
    {candidates : List (Candidate P T K S × K)} {transitions : Transitions T K} :
    ∀ c ∈ going predecessors candidates transitions, ∃ d ∈ candidates, c.2 = d.2 := by
  induction candidates generalizing transitions with
  | nil => exact fun c hc => absurd hc List.not_mem_nil
  | cons d rest ih =>
    have hrest : ∀ left : Transitions T K, ∀ c ∈ going predecessors rest left,
        ∃ e ∈ d :: rest, c.2 = e.2 := by
      intro left c hc
      obtain ⟨e, he, heq⟩ := ih c hc
      exact ⟨e, List.mem_cons_of_mem d he, heq⟩
    rw [going]
    simp only
    split
    · exact hrest _
    · intro c hc
      rcases List.mem_cons.1 hc with rfl | hc
      · exact ⟨d, List.mem_cons_self, rfl⟩
      · exact hrest _ c hc

omit [IsStrictOrderedRing K] [LT S] [DecidableLT S] [Add S] in
/-- By their emissions alone, candidates have positive beliefs. -/
lemma pos_of_mem_rooted {candidates : List (Candidate P T K S × K)}
    (hc : ∀ c ∈ candidates, 0 ≤ c.2) : ∀ c ∈ rooted candidates, 0 < c.belief := by
  intro c hmem
  obtain ⟨d, hd, rfl⟩ := List.mem_map.1 hmem
  obtain ⟨hd, hne⟩ := List.mem_filter.1 hd
  have hne' : d.2 ≠ 0 := by simpa using hne
  exact lt_of_le_of_ne (hc d hd) hne'.symm

end Filter

/-! ### Vectors -/

variable [BEq K] [LawfulBEq K] [Add S] [LT S] [DecidableLT S] [Score K S]

namespace Layer

variable {layer : Layer P T K S}

/-- The candidates that go on, before their emissions count, each with its emission. -/
def going (layer : Layer P T K S) : List (Candidate P T K S × K) :=
  Filter.going layer.predecessors layer.candidates layer.transitions

/-- The vector of a layer is empty or a distribution, unless candidates go on but none of them has an
emission. -/
theorem vector_isDistribution_iff (hp : ∀ p ∈ layer.predecessors, 0 ≤ p.belief)
    (hc : ∀ c ∈ layer.candidates, 0 ≤ c.2) (ht : Filter.Nonneg layer.transitions) :
    (layer.vector = [] ∨ IsDistribution layer.vector) ↔
      (layer.going = [] ∨ ∃ c ∈ layer.going, c.2 ≠ 0) := by
  have hreached : layer.reached =
      layer.going.map fun c => { c.1 with belief := c.1.belief * c.2 } :=
    Filter.continued_eq_map_going ..
  have hgoing : ∀ c ∈ layer.going, 0 < c.1.belief := Filter.pos_of_mem_going hp ht
  by_cases hnil : layer.going = []
  · -- nobody goes on, and the emissions alone count
    have hroots := Filter.pos_of_mem_rooted hc
    rw [vector, hreached, hnil, List.map_nil, List.isEmpty_nil, if_pos rfl]
    refine iff_of_true ?_ (.inl rfl)
    rcases List.eq_nil_or_concat (Filter.rooted layer.candidates) with hroot | ⟨_, c, hroot⟩
    · exact .inl (by rw [hroot]; rfl)
    · refine .inr ((Filter.normalise_isDistribution_iff fun c hc => (hroots c hc).le).2 ?_)
      have hc : c ∈ Filter.rooted layer.candidates := by simp [hroot]
      exact ⟨c, hc, (hroots c hc).ne'⟩
  · have hnonneg : ∀ d ∈ layer.reached, 0 ≤ d.belief := by
      rw [hreached]
      intro d hd
      obtain ⟨c, hmem, rfl⟩ := List.mem_map.1 hd
      obtain ⟨e, he, heq⟩ := Filter.exists_of_mem_going c hmem
      exact mul_nonneg (hgoing c hmem).le (heq ▸ hc e he)
    have hne : layer.reached ≠ [] := by simpa [hreached] using hnil
    have hvector : layer.vector = Filter.normalise layer.reached := by
      rw [vector, if_neg (by simpa using hne)]
    have hfull : layer.vector ≠ [] := by
      rw [hvector]
      exact fun h => hne (List.map_eq_nil_iff.1 h)
    rw [or_iff_right hfull, or_iff_right hnil, hvector,
      Filter.normalise_isDistribution_iff hnonneg, hreached]
    constructor
    · rintro ⟨d, hd, hbelief⟩
      obtain ⟨c, hmem, rfl⟩ := List.mem_map.1 hd
      exact ⟨c, hmem, right_ne_zero_of_mul hbelief⟩
    · rintro ⟨c, hmem, hemission⟩
      exact ⟨_, List.mem_map_of_mem hmem, mul_ne_zero (hgoing c hmem).ne' hemission⟩

/-- If names are distinct, the candidates go on to which a predecessor that has a belief leads, by a
transition that is not impossible. -/
lemma mem_going_iff (hnodup : (layer.predecessors.map Candidate.id).Nodup)
    (hdistinct : layer.ids.Nodup) (hp : ∀ p ∈ layer.predecessors, 0 ≤ p.belief)
    (ht : Filter.Nonneg layer.transitions) {d : Candidate P T K S × K} :
    d ∈ layer.going ↔ ∃ c ∈ layer.candidates,
      d = (Filter.landed layer.predecessors layer.transitions c, c.2) ∧
        ∃ p ∈ layer.predecessors, ∃ t x,
          layer.transitions.between? p.id c.1.id = some (t, x) ∧ x ≠ 0 ∧ p.belief ≠ 0 := by
  have hbelief : ∀ c : Candidate P T K S × K,
      (Filter.landed layer.predecessors layer.transitions c).belief ≠ 0 ↔
        ∃ p ∈ layer.predecessors, ∃ t x,
          layer.transitions.between? p.id c.1.id = some (t, x) ∧ x ≠ 0 ∧ p.belief ≠ 0 := by
    intro c
    set arrivals := Filter.arrivals layer.predecessors layer.transitions c.1.id with harrivals
    have hsum : (Filter.landed layer.predecessors layer.transitions c).belief =
        (arrivals.map fun a => a.2.2 * a.1.belief).sum := by
      rw [Filter.landed, Filter.belief_foldl_offer, zero_add]
    have hnonneg : ∀ y ∈ arrivals.map fun a => a.2.2 * a.1.belief, 0 ≤ y := by
      intro y hy
      obtain ⟨a, ha, rfl⟩ := List.mem_map.1 hy
      obtain ⟨hmem, hbetween, -⟩ := Filter.mem_arrivals.1 ha
      exact mul_nonneg (ht _ _ _ _ hbetween) (hp a.1 hmem)
    rw [hsum]
    constructor
    · intro hne
      by_contra hnone
      refine hne (List.sum_eq_zero fun y hy => ?_)
      obtain ⟨a, ha, rfl⟩ := List.mem_map.1 hy
      obtain ⟨hmem, hbetween, hx⟩ := Filter.mem_arrivals.1 ha
      by_contra hproduct
      exact hnone ⟨a.1, hmem, a.2.1, a.2.2, hbetween, hx, right_ne_zero_of_mul hproduct⟩
    · rintro ⟨p, hmem, t, x, hbetween, hx, hne⟩ hzero
      have ha : (p, t, x) ∈ arrivals := Filter.mem_arrivals.2 ⟨hmem, hbetween, hx⟩
      exact mul_ne_zero hx hne (List.all_zero_of_le_zero_le_of_sum_eq_zero hnonneg hzero
        (List.mem_map_of_mem (f := fun a => a.2.2 * a.1.belief) ha))
  rw [going, Filter.going_eq hnodup hdistinct, List.mem_filterMap]
  refine exists_congr fun c => and_congr_right fun _ => ?_
  rw [← hbelief c]
  by_cases hzero : (Filter.landed layer.predecessors layer.transitions c).belief = 0
  · simp [hzero]
  · rw [if_neg (by simpa using hzero), Option.some.injEq, eq_comm]
    exact (and_iff_left hzero).symm

end Layer

/-! ### Steps of the filter -/

/-- **Vectors are distributions**: for emissions, beliefs and transitions that are not negative, a
filter yields an empty vector or a probability distribution, unless candidates go on but none of
them has an emission. Those go on to which the predecessors give a belief. -/
theorem execute_isDistribution {filter : Filter P T Q ε K S}
    {predecessors : List (Candidate P T K S)} {previous : Option Q} {sample : Q}
    {layer : Layer P T K S} (hlayer : filter.layer? predecessors previous sample = .ok layer)
    (hp : ∀ p ∈ predecessors, 0 ≤ p.belief) (hc : ∀ c ∈ layer.candidates, 0 ≤ c.2)
    (ht : Filter.Nonneg layer.transitions) :
    ∃ vector, filter.execute predecessors previous sample = .ok vector ∧
      ((vector = [] ∨ IsDistribution vector) ↔
        (layer.going = [] ∨ ∃ c ∈ layer.going, c.2 ≠ 0)) := by
  have hsame : layer.predecessors = predecessors := Filter.predecessors_of_layer? hlayer
  refine ⟨layer.vector, by rw [Filter.execute_eq, hlayer]; rfl, ?_⟩
  exact layer.vector_isDistribution_iff (hsame ▸ hp) hc ht

namespace Detour

/-- A predecessor that is believed in. -/
def believed : Candidate Unit Unit ℚ (WithBot ℝ) := ⟨"a1", (), none, none, 1, 0⟩

/-- The filter of a sample whose one candidate has the emission given. -/
noncomputable def emitting (emission : ℚ) : Filter Unit Unit Int Empty ℚ (WithBot ℝ) where
  candidates _ _ := .ok [candidate "b1" emission]
  transitions _ _ := .ok ways

/-- What that filter says after the predecessor. -/
noncomputable def layer (emission : ℚ) : Layer Unit Unit ℚ (WithBot ℝ) :=
  ⟨[believed], [candidate "b1" emission], ways⟩

lemma nonneg_believed : ∀ p ∈ [believed], 0 ≤ p.belief := by
  rw [List.forall_mem_singleton]
  exact zero_le_one

lemma nonneg_ways : Filter.Nonneg ways := by
  intro p c t x h
  rcases (between?_ways h).2 with ⟨-, rfl⟩ | ⟨-, rfl⟩ <;> norm_num

lemma exists_mem_going (emission : ℚ) : ∃ c ∈ (layer emission).going, c.2 = emission := by
  have hway : ways.between? "a1" "b1" = some ((), 1 / 8) := rfl
  refine ⟨_, (Layer.mem_going_iff (by simp [layer]) (by simp [layer, Layer.ids]) nonneg_believed
    nonneg_ways).2 ⟨candidate "b1" emission, List.mem_singleton_self _, rfl, ?_⟩, rfl⟩
  exact ⟨believed, List.mem_singleton_self _, (), 1 / 8, hway, by norm_num, one_ne_zero⟩

end Detour

open Detour in
/-- A candidate that goes on with an emission makes a distribution. -/
theorem execute_isDistribution_emitting :
    ∃ vector, (emitting (1 / 2)).execute [believed] (some 0) 1 = .ok vector ∧
      (vector = [] ∨ IsDistribution vector) := by
  have hlayer : (emitting (1 / 2)).layer? [believed] (some 0) 1 = .ok (layer (1 / 2)) := rfl
  have hc : ∀ c ∈ (layer (1 / 2)).candidates, 0 ≤ c.2 := by
    rw [layer, List.forall_mem_singleton]
    norm_num [candidate]
  obtain ⟨vector, hvector, hiff⟩ := execute_isDistribution hlayer nonneg_believed hc nonneg_ways
  obtain ⟨c, hmem, hemission⟩ := exists_mem_going (1 / 2)
  exact ⟨vector, hvector, hiff.2 (.inr ⟨c, hmem, by rw [hemission]; norm_num⟩)⟩

open Detour in
/-- Without an emission the candidate goes on all the same, and the vector is neither empty nor a
distribution. -/
theorem execute_without_emission :
    (∀ p ∈ [believed], 0 ≤ p.belief) ∧ Filter.Nonneg ways ∧
      (emitting 0).candidates [believed] 1 = .ok [candidate "b1" 0] ∧
      ∃ vector, (emitting 0).execute [believed] (some 0) 1 = .ok vector ∧
        vector ≠ [] ∧ ¬ IsDistribution vector := by
  have hlayer : (emitting 0).layer? [believed] (some 0) 1 = .ok (layer 0) := rfl
  have hc : ∀ c ∈ (layer 0).candidates, 0 ≤ c.2 := by
    rw [layer, List.forall_mem_singleton, candidate]
  have hnone : ∀ c ∈ (layer 0).going, c.2 = 0 := by
    intro c hmem
    obtain ⟨d, hd, heq⟩ := Filter.exists_of_mem_going c hmem
    rw [heq, List.mem_singleton.1 hd, candidate]
  have hneither : ¬ ((layer 0).vector = [] ∨ IsDistribution (layer 0).vector) := by
    rw [Layer.vector_isDistribution_iff nonneg_believed hc nonneg_ways]
    rintro (hnil | ⟨c, hmem, hemission⟩)
    · obtain ⟨c, hmem, -⟩ := exists_mem_going 0
      rw [hnil] at hmem
      cases hmem
    · exact hemission (hnone c hmem)
  exact ⟨nonneg_believed, nonneg_ways, rfl, (layer 0).vector,
    by rw [Filter.execute_eq, hlayer]; rfl, not_or.1 hneither⟩

end RoadMatching
