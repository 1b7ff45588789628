import RoadMatching.Markov.Candidate
import RoadMatching.Table

/-!
The filter step of a hidden Markov model.

From the candidates at one time and a sample of the next, `Filter.execute` finds the candidates at
that next time, each with its belief, by the forward recursion, and with its score and predecessor,
by the recursion for the most likely sequence.

* `Transitions`: for each predecessor the transitions to the candidates that it leads to, with their
  probabilities; `Transitions.pairwise` asks for each pair in turn.
* `arrive`: what one predecessor adds to a candidate. A transition counts once.
* `continued`: the candidates that some predecessor leads to.
* `rooted`: the candidates by their emission alone, as at the start and wherever no predecessor
  leads to any candidate.
* `normalise`: beliefs as shares of their sum.
-/

namespace RoadMatching

variable {P T Q K S ε : Type}

/-- The transitions from each predecessor to each candidate, with their probabilities. -/
abbrev Transitions (T K : Type) : Type := Table CandidateId (Table CandidateId (T × K))

namespace Transitions

/-- The transition between two candidates. -/
def between? (transitions : Transitions T K) (predecessor candidate : CandidateId) :
    Option (T × K) :=
  (transitions.find? predecessor).bind fun row => row.find? candidate

/-- The transitions without the one between two candidates. -/
def without (transitions : Transitions T K) (predecessor candidate : CandidateId) :
    Transitions T K :=
  transitions.modify predecessor fun row => row.erase candidate

/-- The transitions of one predecessor. -/
def row (transition : Candidate P T K S → Except ε (Option (T × K)))
    (candidates : List (Candidate P T K S)) : Except ε (Table CandidateId (T × K)) :=
  candidates.foldlM
    (fun found candidate => do
      match ← transition candidate with
      | some reached => return found.insert candidate.id reached
      | none => return found)
    .empty

/-- The transitions of all pairs, asked for one by one. -/
def pairwise (transition : Candidate P T K S → Candidate P T K S → Except ε (Option (T × K)))
    (predecessors candidates : List (Candidate P T K S)) : Except ε (Transitions T K) :=
  predecessors.foldlM
    (fun found predecessor => do
      return found.insert predecessor.id (← row (transition predecessor) candidates))
    .empty

end Transitions

/-- A hidden Markov model: the candidates of a sample with their emission probabilities, given the
candidates before, and the transitions between the candidates of two samples. -/
structure Filter (P T Q ε K S : Type) where
  candidates : List (Candidate P T K S) → Q → Except ε (List (Candidate P T K S × K))
  transitions : Q × List (Candidate P T K S) → Q × List (Candidate P T K S) →
    Except ε (Transitions T K)

namespace Filter

variable [Zero K] [Add K] [Mul K] [Div K] [BEq K] [Add S] [LT S] [DecidableLT S] [Score K S]

/-- The candidate after the transition from one predecessor, and the transitions left. Its belief
grows by the predecessor's share, and the predecessor becomes its own if its score is greater. -/
def arrive (emission : K) (state : Candidate P T K S × Transitions T K)
    (predecessor : Candidate P T K S) : Candidate P T K S × Transitions T K :=
  let (candidate, transitions) := state
  match transitions.between? predecessor.id candidate.id with
  | none => state
  | some (transition, probability) =>
    let left := transitions.without predecessor.id candidate.id
    if probability == 0 then (candidate, left)
    else
      let belief := candidate.belief + probability * predecessor.belief
      let score := predecessor.score + Score.log10 probability + Score.log10 emission
      if candidate.score < score then
        ({ candidate with
            predecessor := some predecessor.id
            transition := some transition
            belief := belief
            score := score }, left)
      else ({ candidate with belief := belief }, left)

/-- The candidate after the transitions from all predecessors, and the transitions left. -/
def reach (predecessors : List (Candidate P T K S)) (candidate : Candidate P T K S) (emission : K)
    (transitions : Transitions T K) : Candidate P T K S × Transitions T K :=
  predecessors.foldl (arrive emission)
    ({ candidate with belief := 0, score := Score.impossible K }, transitions)

/-- The candidates that a predecessor leads to, with their beliefs. -/
def continued (predecessors : List (Candidate P T K S)) :
    List (Candidate P T K S × K) → Transitions T K → List (Candidate P T K S)
  | [], _ => []
  | (candidate, emission) :: rest, transitions =>
    let (reached, left) := reach predecessors candidate emission transitions
    if reached.belief == 0 then continued predecessors rest left
    else
      { reached with belief := reached.belief * emission } :: continued predecessors rest left

/-- A candidate by its emission alone. -/
def root (candidate : Candidate P T K S) (emission : K) : Candidate P T K S :=
  { candidate with
    predecessor := none
    transition := none
    belief := emission
    score := Score.log10 emission }

/-- The candidates with an emission, by that alone. -/
def rooted (candidates : List (Candidate P T K S × K)) : List (Candidate P T K S) :=
  (candidates.filter fun c => !(c.2 == 0)).map fun c => root c.1 c.2

/-- The candidates with their beliefs as shares of the sum. -/
def normalise (vector : List (Candidate P T K S)) : List (Candidate P T K S) :=
  let sum := vector.foldl (fun sum c => sum + c.belief) 0
  vector.map fun c => { c with belief := c.belief / sum }

/-- The candidates of a sample after the candidates of the sample before, if there are any. -/
def execute (filter : Filter P T Q ε K S) (predecessors : List (Candidate P T K S))
    (previous : Option Q) (sample : Q) : Except ε (List (Candidate P T K S)) := do
  let candidates ← filter.candidates predecessors sample
  let reached ← match previous, predecessors with
    | some previous, _ :: _ => do
      let transitions ←
        filter.transitions (previous, predecessors) (sample, candidates.map Prod.fst)
      pure (continued predecessors candidates transitions)
    | _, _ => pure []
  return normalise (if reached.isEmpty then rooted candidates else reached)

end Filter

end RoadMatching
