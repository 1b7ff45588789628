import RoadMatching.Markov.Window
import RoadMatching.Proofs.Filtering.Arrivals

/-!
Runs of a filter with a memory, and the chains through them.

* `Layer`: what a filter says about one sample, and the vector that comes of it. `Filter.execute_eq`
  splits a step of the filter into the layer and its vector.
* `Run`: an unbounded memory, updated again and again with the vector after its own last one.
* `Chain`: one candidate of each layer, with transitions that are not impossible, and its score.
* `Regular`: the layers of a run whose candidates are distinct, whose probabilities are none, and of
  which each has a candidate that goes on from the one before.
* `Score.IsLogarithm`: the laws of scores. `Chain.exists_log`: by them the score of a chain is the
  logarithm of a probability.
-/

namespace RoadMatching

variable {P T Q K S ε : Type}

/-! ### Layers -/

/-- What a filter says about a sample: the candidates with their emission probabilities, and the
transitions to them from the predecessors. -/
structure Layer (P T K S : Type) where
  predecessors : List (Candidate P T K S)
  candidates : List (Candidate P T K S × K)
  transitions : Transitions T K

namespace Layer

/-- The identifiers of the candidates. -/
def ids (layer : Layer P T K S) : List CandidateId := layer.candidates.map fun c => c.1.id

variable [Zero K] [Add K] [Mul K] [Div K] [BEq K] [Add S] [LT S] [DecidableLT S] [Score K S]

/-- The candidates that a predecessor leads to. -/
def reached (layer : Layer P T K S) : List (Candidate P T K S) :=
  Filter.continued layer.predecessors layer.candidates layer.transitions

/-- The vector that comes of a layer. -/
def vector (layer : Layer P T K S) : List (Candidate P T K S) :=
  Filter.normalise
    (if layer.reached.isEmpty then Filter.rooted layer.candidates else layer.reached)

/-- The candidates of the vector are candidates of the layer, in their order. -/
lemma sublist_ids (layer : Layer P T K S) :
    (layer.vector.map Candidate.id).Sublist layer.ids :=
  Filter.sublist_ids_normalise (Filter.sublist_ids_continued ..)

end Layer

namespace Filter

/-- What the filter says about a sample, after the predecessors. It is not asked for transitions if
there are none. -/
def layer? (filter : Filter P T Q ε K S) (predecessors : List (Candidate P T K S))
    (previous : Option Q) (sample : Q) : Except ε (Layer P T K S) := do
  let candidates ← filter.candidates predecessors sample
  match previous, predecessors with
  | some previous, _ :: _ => do
    let transitions ←
      filter.transitions (previous, predecessors) (sample, candidates.map Prod.fst)
    return ⟨predecessors, candidates, transitions⟩
  | _, _ => return ⟨predecessors, candidates, .empty⟩

variable [Zero K] [Add K] [Mul K] [Div K] [BEq K] [ReflBEq K] [Add S] [LT S] [DecidableLT S]
  [Score K S]

omit [Div K] in
/-- Without transitions no candidate goes on. -/
lemma continued_empty (predecessors : List (Candidate P T K S))
    (candidates : List (Candidate P T K S × K)) :
    continued predecessors candidates .empty = [] := by
  have hreach : ∀ (c : Candidate P T K S) (emission : K),
      reach predecessors c emission .empty =
        ({ c with belief := 0, score := Score.impossible K }, .empty) := by
    intro c emission
    have key : ∀ d : Candidate P T K S,
        predecessors.foldl (arrive emission) (d, .empty) = (d, .empty) := by
      intro d
      induction predecessors with
      | nil => rfl
      | cons p rest ih => exact ih
    exact key _
  induction candidates with
  | nil => rfl
  | cons c rest ih =>
    obtain ⟨c, emission⟩ := c
    rw [continued]
    simp [hreach, ih]

/-- A step of the filter gives the vector of its layer. -/
lemma execute_eq (filter : Filter P T Q ε K S) (predecessors : List (Candidate P T K S))
    (previous : Option Q) (sample : Q) :
    filter.execute predecessors previous sample =
      (filter.layer? predecessors previous sample).map Layer.vector := by
  have hempty : ∀ candidates : List (Candidate P T K S × K),
      normalise (rooted candidates) = Layer.vector ⟨predecessors, candidates, .empty⟩ := by
    intro candidates
    rw [Layer.vector, Layer.reached, continued_empty]
    rfl
  rw [execute, layer?]
  cases hc : filter.candidates predecessors sample with
  | error e => rfl
  | ok candidates =>
    cases previous with
    | none => exact congrArg Except.ok (hempty candidates)
    | some previous =>
      cases predecessors with
      | nil => exact congrArg Except.ok (hempty candidates)
      | cons p rest =>
        simp only [bind, Except.bind]
        cases filter.transitions (previous, p :: rest) (sample, candidates.map Prod.fst) with
        | error e => rfl
        | ok transitions => rfl

end Filter

/-! ### Runs -/

section Runs

variable [Zero K] [Add K] [Mul K] [Div K] [BEq K] [Add S] [LT S] [DecidableLT S] [Score K S]
  [Timed Q]

/-- The runs of a filter that start with an empty memory without bounds: for each sample the filter
is executed on the last vector, and the memory is updated with what comes of it. The layers are
latest first. -/
inductive Run (filter : Filter P T Q ε K S) : List (Layer P T K S) → Window P T Q K S → Prop
  | start : Run filter [] (.bounded none none)
  | step {layers : List (Layer P T K S)} {w after : Window P T Q K S} {sample : Q}
      {layer : Layer P T K S} {vector : List (Candidate P T K S)} (h : Run filter layers w)
      (hlayer : filter.layer? w.vector w.sample? sample = .ok layer)
      (hvector : filter.execute w.vector w.sample? sample = .ok vector)
      (hupdate : w.update vector sample = .ok after) : Run filter (layer :: layers) after

end Runs

/-! ### Scores -/

section Chains

variable [Field K] [LinearOrder K] [Add S] [LinearOrder S] [Score K S]

/-- The laws of scores: they grow with the probability, turn products into sums, and are all greater
than that of what is impossible. -/
structure Score.IsLogarithm (K : Type) (S : Type) [Field K] [LinearOrder K] [Add S] [LinearOrder S]
    [Score K S] : Prop where
  lt : ∀ {x y : K}, 0 < x → x < y → (Score.log10 x : S) < Score.log10 y
  mul : ∀ {x y : K}, 0 < x → 0 < y → (Score.log10 (x * y) : S) = Score.log10 x + Score.log10 y
  impossible : ∀ {x : K}, 0 < x → (Score.impossible K : S) < Score.log10 x

/-- Scores are in the order of their probabilities. -/
lemma Score.IsLogarithm.le_iff (h : Score.IsLogarithm K S) {x y : K} (hx : 0 < x) (hy : 0 < y) :
    (Score.log10 x : S) ≤ Score.log10 y ↔ x ≤ y := by
  constructor
  · intro hle
    by_contra hlt
    exact absurd hle (not_le.2 (h.lt hy (not_le.1 hlt)))
  · intro hle
    rcases hle.lt_or_eq with hlt | rfl
    · exact (h.lt hx hlt).le
    · exact le_rfl

/-- The score of a product of three probabilities. -/
lemma Score.IsLogarithm.mul_mul [IsStrictOrderedRing K] (h : Score.IsLogarithm K S) {x y z : K}
    (hx : 0 < x) (hy : 0 < y) (hz : 0 < z) :
    (Score.log10 (x * y * z) : S) = Score.log10 x + Score.log10 y + Score.log10 z := by
  rw [h.mul (mul_pos hx hy) hz, h.mul hx hy]

/-- A better start stays the better one when both go on in the same way. -/
lemma Score.IsLogarithm.add_le_add [IsStrictOrderedRing K] (h : Score.IsLogarithm K S)
    {x y t e : K} (hx : 0 < x) (hy : 0 < y) (ht : 0 < t) (he : 0 < e)
    (hle : (Score.log10 x : S) ≤ Score.log10 y) :
    (Score.log10 x + Score.log10 t + Score.log10 e : S) ≤
      Score.log10 y + Score.log10 t + Score.log10 e := by
  have hxy : x ≤ y := (h.le_iff hx hy).1 hle
  have hprod : x * t * e ≤ y * t * e :=
    mul_le_mul_of_nonneg_right (mul_le_mul_of_nonneg_right hxy ht.le) he.le
  rw [← h.mul_mul hx ht he, ← h.mul_mul hy ht he]
  exact (h.le_iff (mul_pos (mul_pos hx ht) he) (mul_pos (mul_pos hy ht) he)).2 hprod

/-! ### Chains -/

variable [BEq K]

/-- The layers of a regular run: no two candidates have the same identifier, their number is one of
64 bits, each has an emission that is not impossible, no transition has a negative probability, and
some candidate of each layer but the first goes on from the one before. -/
structure Regular (layers : List (Layer P T K S)) : Prop where
  distinct : (layers.flatMap Layer.ids).Nodup
  length : ∀ layer ∈ layers, layer.candidates.length < 18446744073709551616
  emissions : ∀ layer ∈ layers, ∀ c ∈ layer.candidates, 0 < c.2
  transitions : ∀ layer ∈ layers, ∀ p c t x, layer.transitions.between? p c = some (t, x) → 0 ≤ x
  reached : ∀ layer ∈ layers.dropLast, layer.reached ≠ []

/-- One candidate of each layer, latest first, each with a transition from the one before that is
not impossible, and the sum of the scores of emissions and transitions. -/
inductive Chain : List (Layer P T K S) → List CandidateId → S → Prop
  | start {layer : Layer P T K S} {c : Candidate P T K S × K} (hc : c ∈ layer.candidates) :
      Chain [layer] [c.1.id] (Score.log10 c.2)
  | next {layer : Layer P T K S} {layers : List (Layer P T K S)} {c : Candidate P T K S × K}
      {p : CandidateId} {path : List CandidateId} {score : S} {t : T} {x : K}
      (h : Chain layers (p :: path) score) (hc : c ∈ layer.candidates)
      (ht : layer.transitions.between? p c.1.id = some (t, x)) (hx : x ≠ 0) :
      Chain (layer :: layers) (c.1.id :: p :: path) (score + Score.log10 x + Score.log10 c.2)

/-- The layers before the last one are regular too. -/
lemma Regular.tail {layer : Layer P T K S} {layers : List (Layer P T K S)}
    (h : Regular (layer :: layers)) : Regular layers := by
  refine ⟨?_, fun l hl => h.length l (List.mem_cons_of_mem _ hl),
    fun l hl => h.emissions l (List.mem_cons_of_mem _ hl),
    fun l hl => h.transitions l (List.mem_cons_of_mem _ hl), fun l hl => h.reached l ?_⟩
  · have hdistinct := h.distinct
    rw [List.flatMap_cons] at hdistinct
    exact hdistinct.of_append_right
  · cases layers with
    | nil => cases hl
    | cons other rest => exact List.mem_cons_of_mem _ hl

omit [LinearOrder K] [LinearOrder S] [BEq K] in
/-- A chain has one candidate of each layer. -/
lemma Chain.length_eq {layers : List (Layer P T K S)} {path : List CandidateId} {score : S}
    (h : Chain layers path score) : path.length = layers.length := by
  induction h with
  | start _ => rfl
  | next _ _ _ _ ih => exact congrArg Nat.succ ih

/-- Emissions are positive. -/
lemma Regular.emission_pos {layer : Layer P T K S} {layers : List (Layer P T K S)}
    (h : Regular (layer :: layers)) {c : Candidate P T K S × K} (hc : c ∈ layer.candidates) :
    0 < c.2 :=
  h.emissions layer List.mem_cons_self c hc

/-- Transitions that are not impossible are positive. -/
lemma Regular.transition_pos {layer : Layer P T K S} {layers : List (Layer P T K S)}
    (h : Regular (layer :: layers)) {p c : CandidateId} {t : T} {x : K}
    (hbetween : layer.transitions.between? p c = some (t, x)) (hx : x ≠ 0) : 0 < x :=
  lt_of_le_of_ne (h.transitions layer List.mem_cons_self p c t x hbetween) (Ne.symm hx)

/-- The score of a chain is the logarithm of a probability. -/
lemma Chain.exists_log [IsStrictOrderedRing K] (hlog : Score.IsLogarithm K S)
    {layers : List (Layer P T K S)} (hreg : Regular layers) {path : List CandidateId} {score : S}
    (h : Chain layers path score) : ∃ x : K, 0 < x ∧ score = Score.log10 x := by
  induction h with
  | start hc => exact ⟨_, hreg.emissions _ List.mem_cons_self _ hc, rfl⟩
  | @next layer layers c p path score t x h hc ht hx ih =>
    obtain ⟨y, hy, rfl⟩ := ih hreg.tail
    have hx' := hreg.transition_pos ht hx
    have hc' := hreg.emission_pos hc
    exact ⟨y * x * c.2, mul_pos (mul_pos hy hx') hc', (hlog.mul_mul hy hx' hc').symm⟩

end Chains

end RoadMatching
