import RoadMatching.Error
import RoadMatching.Markov.Candidate
import RoadMatching.Table

/-!
The memory of a sequence of candidate vectors over a window of time.

The memory keeps a step for each vector, and holds the candidates of all steps with the number of
candidates of the next step that name each of them as predecessor. A candidate that is not named
any more is dropped, and with it each predecessor that only it named, but the best candidate of a
step is spared.

* `sequence`: the most likely sequence, read back from the best candidate of the last step. Where a
  predecessor is missing it goes on from the best candidate of that step.
* `update`: appends a vector, or counts a break for an empty one. `fault?` names the reason for
  which a vector is refused.
* `prune`: drops a candidate and then, step by step back, what only it referred to.
* `evict`: drops the oldest steps beyond the bounds: at most `maxSteps` steps before the last one,
  none older than `maxAge` milliseconds.
-/

namespace RoadMatching

/-- A vector of candidates with the sample they are for. -/
structure Step (Q : Type) where
  members : List CandidateId
  sample : Q
  /-- The candidate of the step with the greatest score. -/
  estimate : CandidateId
  deriving Repr, DecidableEq

/-- A candidate held, with the number of candidates of the next step that it precedes. -/
structure Held (P T K S : Type) where
  candidate : Candidate P T K S
  references : Nat
  deriving Repr, DecidableEq

/-- A memory of steps, oldest first. -/
structure Window (P T Q K S : Type) where
  maxSteps : Option Nat
  maxAge : Option Nat
  steps : List (Step Q)
  held : Table CandidateId (Held P T K S)
  /-- The number of empty vectors. -/
  breaks : Nat
  /-- Whether the last vector was empty. -/
  broken : Bool

namespace Window

variable {P T Q K S : Type}

/-- A bound given as an integer; a negative one is no bound. -/
def bound? (n : Int) : Option Nat := if n < 0 then none else some n.toNat

/-- A memory without steps. An age of zero is no bound. -/
def bounded (maxSteps maxAge : Option Nat) : Window P T Q K S where
  maxSteps := maxSteps
  maxAge := maxAge.filter fun age => 0 < age
  steps := []
  held := .empty
  breaks := 0
  broken := false

/-! ### Reading -/

/-- The number of candidates held. -/
def size (w : Window P T Q K S) : Nat := w.held.size

/-- The last sample. -/
def sample? (w : Window P T Q K S) : Option Q := w.steps.getLast?.map Step.sample

/-- The time of the last sample. -/
def time? [Timed Q] (w : Window P T Q K S) : Option Int := w.sample?.map Timed.time

/-- The samples of the steps. -/
def samples (w : Window P T Q K S) : List Q := w.steps.map Step.sample

/-- A candidate held. -/
def candidate? (w : Window P T Q K S) (id : CandidateId) : Option (Candidate P T K S) :=
  (w.held.find? id).map Held.candidate

/-- The candidates of a step. -/
def resolve (w : Window P T Q K S) (step : Step Q) : List (Candidate P T K S) :=
  step.members.filterMap w.candidate?

/-- The candidates of the last step. -/
def vector (w : Window P T Q K S) : List (Candidate P T K S) :=
  (w.steps.getLast?.map w.resolve).getD []

/-- The candidates of each step, with the sample of the step. -/
def vectors (w : Window P T Q K S) : List (List (Candidate P T K S) × Q) :=
  w.steps.map fun step => (w.resolve step, step.sample)

/-- The candidate of the last step with the greatest belief. -/
def estimate? [LE K] [DecidableLE K] (w : Window P T Q K S) : Option (Candidate P T K S) :=
  Candidate.mostLikely? w.vector

/-- The candidates of the steps, latest first: the one named by the step after it, or else the best
one of the step. -/
def walkBack (w : Window P T Q K S) :
    Option CandidateId → List (Step Q) → List (Candidate P T K S)
  | _, [] => []
  | next, step :: earlier =>
    match (next.bind w.candidate?).or (w.candidate? step.estimate) with
    | some candidate => candidate :: walkBack w candidate.predecessor earlier
    | none => []

/-- The most likely sequence, oldest first. -/
def sequence (w : Window P T Q K S) : List (Candidate P T K S) :=
  (w.walkBack none w.steps.reverse).reverse

/-! ### Pruning -/

/-- Drops the candidate of the step at an index, unless it is the best one there. Its predecessor
loses a reference and is dropped from the step before if that was the last one. -/
def prune (w : Window P T Q K S) (id : CandidateId) (index : Nat) : Window P T Q K S :=
  match w.steps[index]? with
  | none => w
  | some step =>
    if step.estimate = id then w
    else
      let steps := w.steps.set index { step with members := step.members.filter (· ≠ id) }
      match w.held.find? id with
      | none => { w with steps := steps }
      | some entry =>
        let dropped := { w with steps := steps, held := w.held.erase id }
        match entry.candidate.predecessor with
        | none => dropped
        | some predecessor =>
          let released :=
            { dropped with
              held := dropped.held.modify predecessor fun e =>
                { e with references := e.references - 1 } }
          match released.held.find? predecessor, index with
          | some ⟨_, 0⟩, before + 1 => released.prune predecessor before
          | _, _ => released

/-- Drops the candidates of the last step that no candidate refers to. -/
def pruneLast (w : Window P T Q K S) : Window P T Q K S :=
  match w.steps.getLast? with
  | none => w
  | some last =>
    let unreferenced := last.members.filter fun id =>
      (w.held.find? id).any fun e => e.references == 0
    unreferenced.foldl (fun w id => w.prune id (w.steps.length - 1)) w

/-! ### Eviction -/

/-- Whether a step is too old at a time. -/
def isExpired [Timed Q] (w : Window P T Q K S) (time : Int) (step : Step Q) : Bool :=
  w.maxAge.any fun age => signed64 age < elapsed (Timed.time step.sample) time

/-- Drops the candidates of a step. -/
def dropMembers (held : Table CandidateId (Held P T K S)) (step : Step Q) :
    Table CandidateId (Held P T K S) :=
  step.members.foldl Table.erase held

/-- Makes the candidates of a step forget their predecessors. -/
def cutMembers (held : Table CandidateId (Held P T K S)) (step : Step Q) :
    Table CandidateId (Held P T K S) :=
  step.members.foldl
    (fun held id =>
      held.modify id fun e => { e with candidate := { e.candidate with predecessor := none } })
    held

/-- The steps within the bounds at a time, and the candidates held for them. The last step always
stays, and the first one that stays has no predecessors. -/
def evictSteps [Timed Q] (w : Window P T Q K S) (time : Int) :
    List (Step Q) → Table CandidateId (Held P T K S) →
    List (Step Q) × Table CandidateId (Held P T K S)
  | front :: next :: rest, held =>
    if w.isExpired time front || w.maxSteps.any fun k => unsigned64 (k + 1) < rest.length + 2 then
      evictSteps w time (next :: rest) (cutMembers (dropMembers held front) next)
    else (front :: next :: rest, held)
  | steps, held => (steps, held)

/-- Drops the steps beyond the bounds. -/
def evict [Timed Q] (w : Window P T Q K S) : Window P T Q K S :=
  match w.time? with
  | none => w
  | some time =>
    let (steps, held) := w.evictSteps time w.steps w.held
    { w with steps := steps, held := held }

/-! ### Updates -/

/-- The candidates that the next vector may name as predecessors: those of the last step, and none
after a break. -/
def latest (w : Window P T Q K S) : List CandidateId :=
  if w.broken then [] else (w.steps.getLast?.map Step.members).getD []

/-- The reason for which a vector is refused: its sample is older than the last one, or a candidate
names a predecessor that is not in the last vector. -/
def fault? [Timed Q] (w : Window P T Q K S) (vector : List (Candidate P T K S)) (sample : Q) :
    Option MemoryError :=
  let late := w.time?.bind fun last =>
    if Timed.time sample < last then some (.outOfOrder last (Timed.time sample)) else none
  let unknown := vector.findSome? fun candidate =>
    candidate.predecessor.bind fun predecessor =>
      if w.latest.contains predecessor && w.held.contains predecessor then none
      else some (.inconsistentVector candidate.id predecessor)
  late.or unknown

/-- Counts the references of a vector to its predecessors. -/
def countReferences (w : Window P T Q K S) (vector : List (Candidate P T K S)) :
    Window P T Q K S :=
  { w with
    held := vector.foldl
      (fun held candidate =>
        match candidate.predecessor with
        | some predecessor =>
          held.modify predecessor fun e => { e with references := unsigned64 (e.references + 1) }
        | none => held)
      w.held }

/-- Appends a vector whose best candidate is `estimate`. -/
def append (w : Window P T Q K S) (vector : List (Candidate P T K S)) (sample : Q)
    (estimate : CandidateId) : Window P T Q K S :=
  { w with
    held := vector.foldl (fun held c => held.insert c.id ⟨c, 0⟩) w.held
    steps := w.steps ++ [⟨vector.map Candidate.id, sample, estimate⟩]
    broken := false }

/-- The memory after the vector of a sample. An empty vector counts as a break and changes nothing
else. -/
def update [Timed Q] [LT S] [DecidableLT S] (w : Window P T Q K S)
    (vector : List (Candidate P T K S)) (sample : Q) : Except MemoryError (Window P T Q K S) :=
  match Candidate.best? vector with
  | none => .ok { w with breaks := w.breaks + 1, broken := true }
  | some best =>
    match w.fault? vector sample with
    | some error => .error error
    | none =>
      .ok (((w.countReferences vector).pruneLast.append vector sample best.id).evict)

end Window

end RoadMatching
