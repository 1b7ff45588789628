import Mathlib.Analysis.SpecialFunctions.Log.Base
import RoadMatching.Proofs.Filtering.Recurrence
import RoadMatching.Proofs.Memory.Pointers

/-!
Most likely sequences.

* `Decoded`: the invariant of a run. The last vector has the greatest scores of the chains through
  the layers, and the predecessors in the memory spell chains that have them. `Decoded.update` is
  the step lemma, and `Run.decoded` the run lemma.
* `Run.exists_next`: no regular run ends in a refusal while the samples are in time.
* `MostLikely`: each candidate of the last vector has the greatest score of all chains that end in
  it, and the sequence read out is a chain of greatest score. `run_viterbi`: so it is in a regular
  run.
-/

namespace RoadMatching

variable {P T Q K S ε : Type} [Field K] [LinearOrder K] [IsStrictOrderedRing K] [BEq K]
  [LawfulBEq K] [Add S] [LinearOrder S] [Score K S]

/-! ### The invariant -/

/-- The memory of a run without bounds: of the chains through the layers, its last vector has those
of greatest score, and its predecessors spell them. -/
structure Decoded (layers : List (Layer P T K S)) (w : Window P T Q K S) : Prop where
  kept : Window.Kept (layers.flatMap Layer.ids) w
  unbounded : w.maxSteps = none ∧ w.maxAge = none
  length : w.steps = [] ∨ w.steps.length = layers.length
  going : w.steps ≠ [] → w.broken = false
  live : Live w.vector
  spelled : ∀ c ∈ w.vector, ∃ path, w.Spells (c.id :: path) ∧ Chain layers (c.id :: path) c.score
  dominates : Dominates w.vector layers
  estimate : ∀ step, w.steps.getLast? = some step →
    ∃ b ∈ w.vector, b.id = step.estimate ∧ ∀ c ∈ w.vector, c.score ≤ b.score

variable {layer : Layer P T K S} {layers : List (Layer P T K S)} {w after : Window P T Q K S}
  {sample : Q}

omit [Field K] [LinearOrder K] [IsStrictOrderedRing K] [BEq K] [LawfulBEq K] [Add S] [LinearOrder S]
  [Score K S] in
/-- Without steps there are no candidates. -/
lemma Window.vector_of_steps_eq_nil (h : w.steps = []) : w.vector = [] := by
  rw [Window.vector, h]
  rfl

omit [IsStrictOrderedRing K] [BEq K] [LawfulBEq K] in
lemma decoded_start : Decoded [] (.bounded none none : Window P T Q K S) where
  kept := Window.kept_bounded none none
  unbounded := ⟨rfl, rfl⟩
  length := .inl rfl
  going h := absurd rfl h
  live := ⟨List.nodup_nil, fun c hc => (by cases hc), fun c hc => (by cases hc)⟩
  spelled c hc := by cases hc
  dominates path score h := by cases h
  estimate step h := by cases h

/-- Before the first layer there are no steps, and later ones come after the vector of a step. -/
lemma Decoded.layer_cases (h : Decoded layers w) (hreg : Regular (layer :: layers))
    (hlog : Score.IsLogarithm K S) (hpredecessors : layer.predecessors = w.vector) :
    (layers = [] ∧ w.steps = [] ∧ layer.reached = []) ∨
      (layers ≠ [] ∧ w.steps.length = layers.length ∧ layer.reached ≠ []) := by
  have hlive : Live layer.predecessors := hpredecessors ▸ h.live
  have hnone : w.steps = [] → layer.reached = [] := by
    intro hnil
    have hvector := Window.vector_of_steps_eq_nil hnil
    refine List.eq_nil_iff_forall_not_mem.2 fun d hd => ?_
    obtain ⟨-, c, -, p, hp, -⟩ := Layer.exists_of_mem_reached hlog hreg hlive hd
    rw [hpredecessors, hvector] at hp
    cases hp
  cases layers with
  | nil =>
    have hnil : w.steps = [] := h.length.elim id List.eq_nil_of_length_eq_zero
    exact .inl ⟨rfl, hnil, hnone hnil⟩
  | cons last rest =>
    have hne : layer.reached ≠ [] := hreg.reached layer List.mem_cons_self
    exact .inr ⟨List.cons_ne_nil _ _, h.length.resolve_left fun hnil => hne (hnone hnil), hne⟩

/-- The candidates of a layer continue paths that are in the memory. -/
lemma Decoded.exists_path (h : Decoded layers w) (hreg : Regular (layer :: layers))
    (hlog : Score.IsLogarithm K S) (hpredecessors : layer.predecessors = w.vector)
    {c : Candidate P T K S} (hc : c ∈ layer.vector) :
    ∃ path, c.predecessor = path.head? ∧ (path ≠ [] → w.Spells path) ∧
      Chain (layer :: layers) (c.id :: path) c.score := by
  rcases h.layer_cases hreg hlog hpredecessors with ⟨rfl, -, hnil⟩ | ⟨-, -, hne⟩
  · obtain ⟨hpredecessor, hchain⟩ := Layer.chain_of_first hreg hnil hc
    exact ⟨[], hpredecessor, fun hne => absurd rfl hne, hchain⟩
  · have hlive : Live layer.predecessors := hpredecessors ▸ h.live
    obtain ⟨p, hp, hpredecessor, hnext⟩ := Layer.chain_of_next hlog hreg hlive hne hc
    obtain ⟨path, hspells, hchain⟩ := h.spelled p (hpredecessors ▸ hp)
    exact ⟨p.id :: path, hpredecessor, fun _ => hspells, hnext path hchain⟩

/-- The vector of a layer has the greatest scores, if the one before has. -/
lemma Decoded.dominates_next (h : Decoded layers w) (hreg : Regular (layer :: layers))
    (hlog : Score.IsLogarithm K S) (hpredecessors : layer.predecessors = w.vector) :
    Dominates layer.vector (layer :: layers) := by
  rcases h.layer_cases hreg hlog hpredecessors with ⟨rfl, -, hnil⟩ | ⟨hne, -, -⟩
  · exact .first hreg hnil
  · exact .next hlog hreg (hpredecessors ▸ h.live) hne (hpredecessors ▸ h.dominates)

/-! ### The step lemma -/

omit [IsStrictOrderedRing K] [LawfulBEq K] in
/-- The identifiers of a layer are new. -/
lemma Regular.fresh (hreg : Regular (layer :: layers)) :
    ∀ id ∈ layer.vector.map Candidate.id, id ∉ layers.flatMap Layer.ids := by
  intro id hid hseen
  have hdistinct := hreg.distinct
  rw [List.flatMap_cons, List.nodup_append] at hdistinct
  exact hdistinct.2.2 id ((Layer.sublist_ids layer).subset hid) id hseen rfl

omit [IsStrictOrderedRing K] [LawfulBEq K] in
/-- The length of a vector is a number of 64 bits. -/
lemma Regular.length_vector_lt (hreg : Regular (layer :: layers)) :
    layer.vector.length < 18446744073709551616 := by
  have hle := (Layer.sublist_ids layer).length_le
  have hlt := hreg.length layer List.mem_cons_self
  rw [List.length_map, Layer.ids, List.length_map] at hle
  omega

/-- Only a first layer may have no candidates, and then the memory stays without steps. -/
lemma Decoded.afterBreak (h : Decoded layers w) (hreg : Regular (layer :: layers))
    (hlog : Score.IsLogarithm K S) (hpredecessors : layer.predecessors = w.vector)
    (hempty : layer.vector = []) (breaks : Nat) :
    Decoded (layer :: layers) { w with breaks := breaks, broken := true } := by
  have hdominates := h.dominates_next hreg hlog hpredecessors
  rcases h.layer_cases hreg hlog hpredecessors with ⟨rfl, hnil, -⟩ | ⟨-, -, hne⟩
  · have hvector := Window.vector_of_steps_eq_nil hnil
    refine ⟨h.kept.mono rfl rfl (List.nil_subset _), h.unbounded, .inl hnil,
      fun hne => absurd hnil hne, h.live, fun c hc => ?_, fun path score hchain => ?_,
      fun step hstep => ?_⟩
    · have hc : c ∈ w.vector := hc
      rw [hvector] at hc
      cases hc
    · obtain ⟨c, hc, -⟩ := hdominates path score hchain
      rw [hempty] at hc
      cases hc
    · have hstep : w.steps.getLast? = some step := hstep
      rw [hnil] at hstep
      cases hstep
  · exact absurd hempty (Layer.vector_ne_nil hne)

variable [Timed Q]

omit [IsStrictOrderedRing K] [BEq K] [LawfulBEq K] in
/-- No step is dropped when a vector is appended. -/
lemma Decoded.evict_append (h : Decoded layers w) {pruned : Window P T Q K S}
    (htrimmed : Window.Trimmed w pruned) (vector : List (Candidate P T K S)) (sample : Q)
    (best : CandidateId) :
    (pruned.append vector sample best).evict = pruned.append vector sample best :=
  Window.evict_of_unbounded (htrimmed.maxSteps.trans h.unbounded.1)
    (htrimmed.maxAge.trans h.unbounded.2)

/-- The vector of the next layer is appended. -/
lemma Decoded.append (h : Decoded layers w) (hreg : Regular (layer :: layers))
    (hlog : Score.IsLogarithm K S) (hpredecessors : layer.predecessors = w.vector)
    {best : Candidate P T K S} (hbest : Candidate.best? layer.vector = some best)
    (hfault : w.fault? layer.vector sample = none) :
    Decoded (layer :: layers)
      ((w.countReferences layer.vector).pruneLast.append layer.vector sample best.id).evict := by
  have hlive : Live layer.vector := Layer.live_vector hlog hreg (hpredecessors ▸ h.live)
  have hmem := Candidate.mem_of_best? hbest
  have hkept := h.kept.update hfault hmem hlive.nodup hreg.fresh hreg.length_vector_lt
  obtain ⟨-, -, htrimmed, -⟩ := h.kept.ready hfault hreg.fresh hreg.length_vector_lt
  have hpaths := fun {c} => h.kept.spells_append (c := c) hfault hlive.nodup hreg.fresh
    hreg.length_vector_lt best.id
  set pruned := (w.countReferences layer.vector).pruneLast
  have hvector : (pruned.append layer.vector sample best.id).vector = layer.vector :=
    Window.vector_append hlive.nodup
  rw [h.evict_append htrimmed] at hkept ⊢
  refine ⟨hkept.mono rfl rfl ?_, ⟨htrimmed.maxSteps.trans h.unbounded.1,
    htrimmed.maxAge.trans h.unbounded.2⟩, .inr ?_, fun _ => rfl, ?_, ?_, ?_, ?_⟩
  · rw [List.flatMap_cons]
    refine List.append_subset.2 ⟨List.subset_append_right _ _, fun id hid => ?_⟩
    exact List.mem_append_left _ ((Layer.sublist_ids layer).subset hid)
  · have hlength := htrimmed.length_eq
    rw [Window.append, List.length_append, List.length_singleton, List.length_cons, hlength]
    rcases h.layer_cases hreg hlog hpredecessors with ⟨rfl, hnil, -⟩ | ⟨-, heq, -⟩
    · rw [hnil]
      rfl
    · rw [heq]
  · rw [hvector]
    exact hlive
  · rw [hvector]
    intro c hc
    obtain ⟨path, hhead, hspells, hchain⟩ := h.exists_path hreg hlog hpredecessors hc
    exact ⟨path, hpaths hc hhead hspells, hchain⟩
  · rw [hvector]
    exact h.dominates_next hreg hlog hpredecessors
  · rw [hvector]
    intro step hstep
    rw [Window.append, List.getLast?_concat, Option.some.injEq] at hstep
    obtain ⟨before, later, heq, hbefore, hlater⟩ := Candidate.best?_eq_some hbest
    refine ⟨best, hmem, hstep ▸ rfl, fun c hc => ?_⟩
    rw [heq, List.mem_append, List.mem_cons] at hc
    rcases hc with hc | rfl | hc
    · exact (hbefore c hc).le
    · exact le_rfl
    · exact hlater c hc

/-- An update by the vector of the next layer keeps the invariant. -/
lemma Decoded.update (h : Decoded layers w) (hreg : Regular (layer :: layers))
    (hlog : Score.IsLogarithm K S) (hpredecessors : layer.predecessors = w.vector)
    (hupdate : w.update layer.vector sample = .ok after) : Decoded (layer :: layers) after := by
  rcases w.update_cases layer.vector sample with
    ⟨hempty, heq⟩ | ⟨error, -, -, heq⟩ | ⟨best, hbest, hfault, heq⟩
  · rw [hupdate, Except.ok.injEq] at heq
    exact heq ▸ h.afterBreak hreg hlog hpredecessors hempty _
  · rw [hupdate] at heq
    cases heq
  · rw [hupdate, Except.ok.injEq] at heq
    exact heq ▸ h.append hreg hlog hpredecessors hbest hfault

/-! ### Runs -/

omit [Field K] [LinearOrder K] [IsStrictOrderedRing K] [BEq K] [LawfulBEq K] [Add S] [LinearOrder S]
  [Score K S] [Timed Q] in
/-- A layer comes after the predecessors that the filter is given. -/
lemma Filter.predecessors_of_layer? {filter : Filter P T Q ε K S}
    {predecessors : List (Candidate P T K S)} {previous : Option Q}
    (h : filter.layer? predecessors previous sample = .ok layer) :
    layer.predecessors = predecessors := by
  rw [layer?] at h
  cases hc : filter.candidates predecessors sample with
  | error e =>
    rw [hc] at h
    cases h
  | ok candidates =>
    rw [hc] at h
    simp only [bind, Except.bind] at h
    split at h
    · split at h
      · cases h
      · cases h
        rfl
    · cases h
      rfl

/-- A regular run keeps the invariant. -/
lemma Run.decoded {filter : Filter P T Q ε K S} (hlog : Score.IsLogarithm K S)
    (hrun : Run filter layers w) (hreg : Regular layers) : Decoded layers w := by
  induction hrun with
  | start => exact decoded_start
  | @step layers w after sample layer vector hrun hlayer hvector hupdate ih =>
    rw [Filter.execute_eq, hlayer, Except.map, Except.ok.injEq] at hvector
    subst hvector
    exact (ih hreg.tail).update hreg hlog (Filter.predecessors_of_layer? hlayer) hupdate

/-- The predecessors of the candidates of a layer may be named. -/
lemma Decoded.fault?_eq_none (h : Decoded layers w) (hreg : Regular (layer :: layers))
    (hlog : Score.IsLogarithm K S) (hpredecessors : layer.predecessors = w.vector)
    (htime : ∀ last, w.time? = some last → last ≤ Timed.time sample) :
    w.fault? layer.vector sample = none := by
  refine Window.fault?_eq_none_iff.2 ⟨fun last hlast => (htime last hlast).not_gt, ?_⟩
  intro c hc id hid
  rcases h.layer_cases hreg hlog hpredecessors with ⟨rfl, -, hnil⟩ | ⟨-, -, hne⟩
  · rw [(Layer.chain_of_first hreg hnil hc).1] at hid
    cases hid
  · have hlive : Live layer.predecessors := hpredecessors ▸ h.live
    obtain ⟨p, hp, hpredecessor, -⟩ := Layer.chain_of_next hlog hreg hlive hne hc
    rw [hpredecessor, Option.some.injEq] at hid
    subst hid
    have hp : p ∈ w.vector := hpredecessors ▸ hp
    have hsteps : w.steps ≠ [] := by
      intro hnil
      rw [Window.vector_of_steps_eq_nil hnil] at hp
      cases hp
    obtain ⟨hmem, hheld⟩ := h.kept.mem_of_mem_vector hp
    refine ⟨?_, hheld⟩
    rw [Window.latest, h.going hsteps, if_neg Bool.false_ne_true]
    exact hmem

/-- No regular run ends in a refusal while the samples are in time: it goes on with the vector of
the next layer. -/
theorem Run.exists_next {filter : Filter P T Q ε K S} (hlog : Score.IsLogarithm K S)
    (hrun : Run filter layers w) (hreg : Regular (layer :: layers))
    (hlayer : filter.layer? w.vector w.sample? sample = .ok layer)
    (htime : ∀ last, w.time? = some last → last ≤ Timed.time sample) :
    ∃ after, Run filter (layer :: layers) after ∧ after.vector = layer.vector ∧
      (layer.vector ≠ [] → after.sample? = some sample) := by
  have h := hrun.decoded hlog hreg.tail
  have hpredecessors := Filter.predecessors_of_layer? hlayer
  have hfault := h.fault?_eq_none hreg hlog hpredecessors htime
  have hvector : filter.execute w.vector w.sample? sample = .ok layer.vector := by
    rw [Filter.execute_eq, hlayer]
    rfl
  rcases w.update_cases layer.vector sample with
    ⟨hempty, heq⟩ | ⟨error, -, herror, -⟩ | ⟨best, hbest, -, heq⟩
  · refine ⟨_, .step hrun hlayer hvector heq, ?_, fun hne => absurd hempty hne⟩
    rcases h.layer_cases hreg hlog hpredecessors with ⟨-, hnil, -⟩ | ⟨-, -, hne⟩
    · rw [hempty]
      exact Window.vector_of_steps_eq_nil hnil
    · exact absurd hempty (Layer.vector_ne_nil hne)
  · rw [hfault] at herror
    cases herror
  · have hlive : Live layer.vector := Layer.live_vector hlog hreg (hpredecessors ▸ h.live)
    obtain ⟨-, -, htrimmed, -⟩ := h.kept.ready hfault hreg.fresh hreg.length_vector_lt
    refine ⟨_, .step hrun hlayer hvector heq, ?_, fun _ => ?_⟩
    · rw [h.evict_append htrimmed]
      exact Window.vector_append hlive.nodup
    · rw [h.evict_append htrimmed, Window.sample?, Window.append, List.getLast?_concat]
      rfl

/-- What a memory says of the chains through the layers of its run: the candidates of the last
vector are those in which chains end, with the greatest scores, and the sequence is a chain of
greatest score. -/
structure MostLikely (layers : List (Layer P T K S)) (w : Window P T Q K S) : Prop where
  /-- Predecessors spell a chain with the score of the candidate, -/
  attained : ∀ c ∈ w.vector, ∃ path, w.Spells (c.id :: path) ∧ Chain layers (c.id :: path) c.score
  /-- and no chain that ends in it has a greater one. -/
  greatest : ∀ c ∈ w.vector, ∀ path score, Chain layers (c.id :: path) score → score ≤ c.score
  complete : ∀ path score, Chain layers path score → ∃ c ∈ w.vector, path.head? = some c.id
  sequence : w.vector ≠ [] → ∃ score, Chain layers (w.sequence.map Candidate.id).reverse score ∧
    ∀ path other, Chain layers path other → other ≤ score

omit [IsStrictOrderedRing K] [BEq K] [LawfulBEq K] [Timed Q] in
/-- The sequence is the chain of the best candidate of the last vector. -/
lemma Decoded.sequence (h : Decoded layers w) (hne : w.vector ≠ []) :
    ∃ b ∈ w.vector, Chain layers (w.sequence.map Candidate.id).reverse b.score ∧
      ∀ c ∈ w.vector, c.score ≤ b.score := by
  have hsteps : w.steps ≠ [] := fun hnil => hne (Window.vector_of_steps_eq_nil hnil)
  obtain ⟨step, hlast⟩ := Option.ne_none_iff_exists'.1
    fun hnone => hsteps (List.getLast?_eq_none_iff.1 hnone)
  obtain ⟨b, hb, hid, hgreatest⟩ := h.estimate step hlast
  obtain ⟨path, hspells, hchain⟩ := h.spelled b hb
  have hlength := h.length.resolve_left hsteps
  have hpath := hchain.length_eq
  rw [List.length_cons] at hpath
  have hnames : ∀ id c, w.candidate? id = some c → c.id = id := by
    intro id c hc
    obtain ⟨i, hat⟩ := h.kept.linked.exists_at hc
    exact h.kept.names i id c hat hc
  refine ⟨b, hb, ?_, hgreatest⟩
  rw [Window.Spells.map_id_sequence hnames hlast (hid ▸ hspells) (by omega), List.reverse_reverse]
  exact hid ▸ hchain

/-- **Viterbi optimality**: in a regular run of any length, each candidate of the last vector has
the greatest score of all chains that end in it, and its predecessors spell a chain with that score.
The sequence read out is a chain of greatest score. -/
theorem run_viterbi {filter : Filter P T Q ε K S} (hlog : Score.IsLogarithm K S)
    (hrun : Run filter layers w) (hreg : Regular layers) : MostLikely layers w := by
  have h := hrun.decoded hlog hreg
  refine ⟨h.spelled, fun c hc path score hchain => ?_, fun path score hchain => ?_, fun hne => ?_⟩
  · obtain ⟨d, hd, hid, hle⟩ := h.dominates _ _ hchain
    rw [List.head?_cons, Option.some.injEq] at hid
    rwa [List.inj_on_of_nodup_map h.live.nodup hc hd hid]
  · obtain ⟨c, hc, hid, -⟩ := h.dominates path score hchain
    exact ⟨c, hc, hid⟩
  · obtain ⟨b, -, hchain, hgreatest⟩ := h.sequence hne
    refine ⟨b.score, hchain, fun path other hother => ?_⟩
    obtain ⟨c, hc, -, hle⟩ := h.dominates path other hother
    exact hle.trans (hgreatest c hc)

/-! ### A run with real logarithms -/

/-- The real logarithm of a rational probability; what is impossible has the least score. -/
noncomputable instance : Score ℚ (WithBot ℝ) where
  log10 x := if 0 < x then (Real.logb 10 (x : ℝ) : ℝ) else ⊥
  impossible := ⊥

/-- Real logarithms obey the laws of scores. -/
lemma Score.isLogarithm_real : Score.IsLogarithm ℚ (WithBot ℝ) where
  lt {x y} hx hxy := by
    have hx' : (0 : ℝ) < x := Rat.cast_pos.2 hx
    have hxy' : (x : ℝ) < y := Rat.cast_lt.2 hxy
    simp only [Score.log10, hx, hx.trans hxy, if_true, WithBot.coe_lt_coe]
    exact Real.logb_lt_logb (by norm_num) hx' hxy'
  mul {x y} hx hy := by
    have hx' : (x : ℝ) ≠ 0 := (Rat.cast_pos.2 hx).ne'
    have hy' : (y : ℝ) ≠ 0 := (Rat.cast_pos.2 hy).ne'
    simp only [Score.log10, hx, hy, mul_pos hx hy, if_true, Rat.cast_mul, Real.logb_mul hx' hy',
      WithBot.coe_add]
  impossible {x} hx := by
    simp only [Score.log10, Score.impossible, hx, if_true]
    exact WithBot.bot_lt_coe _

namespace Detour

/-- A candidate that nothing is known of, and its emission. -/
noncomputable def candidate (id : CandidateId) (emission : ℚ) :
    Candidate Unit Unit ℚ (WithBot ℝ) × ℚ :=
  (⟨id, (), none, none, 0, ⊥⟩, emission)

/-- The less likely start has the more likely way on. -/
def ways : Transitions Unit ℚ :=
  ⟨[("a1", ⟨[("b1", (), 1 / 8)]⟩), ("a2", ⟨[("b1", (), 1 / 2)]⟩)]⟩

/-- The filter of two samples, at the times zero and one. -/
noncomputable def filter : Filter Unit Unit Int Empty ℚ (WithBot ℝ) where
  candidates _ time :=
    .ok (if time = 0 then [candidate "a1" (3 / 4), candidate "a2" (1 / 4)] else [candidate "b1" 1])
  transitions _ _ := .ok ways

/-- Two candidates for the first sample, -/
noncomputable def first : Layer Unit Unit ℚ (WithBot ℝ) :=
  ⟨[], [candidate "a1" (3 / 4), candidate "a2" (1 / 4)], .empty⟩

/-- and one for the second. -/
noncomputable def second : Layer Unit Unit ℚ (WithBot ℝ) :=
  ⟨first.vector, [candidate "b1" 1], ways⟩

lemma between?_ways {p c : CandidateId} {t : Unit} {x : ℚ} (h : ways.between? p c = some (t, x)) :
    c = "b1" ∧ (p = "a1" ∧ x = 1 / 8 ∨ p = "a2" ∧ x = 1 / 2) := by
  by_cases hc : c = "b1"
  · refine ⟨hc, ?_⟩
    subst hc
    by_cases h₁ : p = "a1"
    · subst h₁
      exact .inl ⟨rfl, (congrArg Prod.snd (Option.some.inj h)).symm⟩
    · by_cases h₂ : p = "a2"
      · subst h₂
        exact .inr ⟨rfl, (congrArg Prod.snd (Option.some.inj h)).symm⟩
      · simp [ways, Transitions.between?, Table.find?, Ne.symm h₁, Ne.symm h₂] at h
  · by_cases h₁ : p = "a1"
    · simp [ways, Transitions.between?, Table.find?, Ne.symm hc, h₁] at h
    · by_cases h₂ : p = "a2"
      · simp [ways, Transitions.between?, Table.find?, Ne.symm hc, h₂] at h
      · simp [ways, Transitions.between?, Table.find?, Ne.symm h₁, Ne.symm h₂] at h

lemma regular_first : Regular [first] where
  distinct := by decide +kernel
  length := by decide +kernel
  emissions := by decide +kernel
  transitions layer hlayer p c t x h := by
    rw [List.mem_singleton.1 hlayer] at h
    cases h
  reached layer h := by cases h

lemma live_first : Live first.vector :=
  Layer.live_vector Score.isLogarithm_real regular_first
    ⟨List.nodup_nil, fun c hc => (by cases hc), fun c hc => (by cases hc)⟩

lemma regular_second : Regular [second] where
  distinct := by decide +kernel
  length := by decide +kernel
  emissions := by decide +kernel
  transitions layer hlayer p c t x h := by
    rw [List.mem_singleton.1 hlayer] at h
    rcases (between?_ways h).2 with ⟨-, rfl⟩ | ⟨-, rfl⟩ <;> norm_num
  reached layer h := by cases h

lemma regular : Regular [second, first] where
  distinct := by decide +kernel
  length := by decide +kernel
  emissions := by decide +kernel
  transitions layer hlayer := by
    rcases List.mem_cons.1 hlayer with rfl | hlayer
    · exact regular_second.transitions _ List.mem_cons_self
    · exact regular_first.transitions layer hlayer
  reached layer hlayer := by
    rw [List.mem_singleton.1 hlayer]
    obtain ⟨p, hp, hid, -⟩ := Dominates.first regular_first rfl _ _ (.start List.mem_cons_self)
    rw [List.head?_cons, Option.some.injEq] at hid
    have hway : ways.between? p.id "b1" = some ((), 1 / 8) := hid ▸ rfl
    obtain ⟨d, hd, -⟩ := Layer.exists_mem_reached Score.isLogarithm_real regular_second live_first
      List.mem_cons_self hp hway (by norm_num)
    exact List.ne_nil_of_mem hd

/-- The run through both layers. -/
lemma exists_run : ∃ w, Run filter [second, first] w ∧ w.vector ≠ [] := by
  have hlog := Score.isLogarithm_real
  have hstart : Run filter [] (.bounded none none) := .start
  have hfirst : filter.layer? [] none 0 = .ok first := rfl
  obtain ⟨v, hv, hvector, hsample⟩ :=
    hstart.exists_next hlog regular_first hfirst fun last h => by cases h
  have hne : first.vector ≠ [] := by
    obtain ⟨p, hp, -⟩ := Dominates.first regular_first rfl _ _ (.start List.mem_cons_self)
    exact List.ne_nil_of_mem hp
  have hlayer : filter.layer? v.vector v.sample? 1 = .ok second := by
    rw [hvector, hsample hne, second]
    cases hfirst : first.vector with
    | nil => exact absurd hfirst hne
    | cons p rest => rfl
  have htime : ∀ last, v.time? = some last → last ≤ Timed.time (1 : Int) := by
    intro last h
    rw [Window.time?, hsample hne] at h
    cases h
    decide
  obtain ⟨w, hw, hvector, -⟩ := hv.exists_next hlog regular hlayer htime
  exact ⟨w, hw, hvector ▸ Layer.vector_ne_nil (regular.reached _ List.mem_cons_self)⟩

/-- Of the two starts the sequence has the one that is less likely by itself. -/
theorem run_viterbi_detour : ∃ w, Run filter [second, first] w ∧ Regular [second, first] ∧
    MostLikely [second, first] w ∧ w.sequence.map Candidate.id = ["a2", "b1"] := by
  have hlog := Score.isLogarithm_real
  obtain ⟨w, hw, hne⟩ := exists_run
  have hmost := run_viterbi hlog hw regular
  refine ⟨w, hw, regular, hmost, ?_⟩
  obtain ⟨score, hchain, hgreatest⟩ := hmost.sequence hne
  have hstart : Chain [first] ["a2"] (Score.log10 (1 / 4 : ℚ)) :=
    .start (c := candidate "a2" (1 / 4)) (List.mem_cons_of_mem _ List.mem_cons_self)
  have hbest : Chain [second, first] ["b1", "a2"]
      (Score.log10 (1 / 4 : ℚ) + Score.log10 (1 / 2 : ℚ) + Score.log10 (1 : ℚ)) :=
    .next (c := candidate "b1" 1) (t := ()) hstart List.mem_cons_self rfl (by norm_num)
  have hle := hgreatest _ _ hbest
  rw [← List.reverse_inj]
  generalize (w.sequence.map Candidate.id).reverse = path at hchain ⊢
  cases hchain with
  | @next _ _ c _ _ _ _ _ h hc hway =>
    cases h with
    | next h => cases h
    | @start _ d hd =>
      obtain ⟨hid, hways⟩ := between?_ways hway
      rcases hways with ⟨hstart, rfl⟩ | ⟨hstart, -⟩
      · -- the score of this chain is not the greatest
        have hemission : c.2 = 1 := by
          rw [List.mem_singleton.1 hc]
          rfl
        have hemission' : d.2 = 3 / 4 := by
          rcases List.mem_cons.1 hd with rfl | hd
          · rfl
          · rw [List.mem_singleton.1 hd] at hstart
            exact absurd hstart (by simp [candidate])
        rw [hemission, hemission', ← hlog.mul_mul (by norm_num) (by norm_num) (by norm_num),
          ← hlog.mul_mul (by norm_num) (by norm_num) (by norm_num),
          hlog.le_iff (by norm_num) (by norm_num)] at hle
        norm_num at hle
      · rw [hid, hstart]
        rfl

end Detour

end RoadMatching
