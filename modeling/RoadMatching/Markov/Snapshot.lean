import RoadMatching.Json.Record
import RoadMatching.Markov.Latest
import RoadMatching.Markov.Probability
import RoadMatching.Markov.Window

/-!
Snapshots of memories in JSON.

* `Codec`: how the payloads, transitions and samples of a domain are written and read. Reading may
  refer to what the JSON does not carry, such as a road map.
* `Codec.writeCandidate`, `Codec.readCandidate`: a candidate without its predecessor.
* `Window.toSnapshot`, `Window.ofSnapshot`: a window as its bounds, its steps, each with links from
  candidates to predecessors, and its candidates with their numbers of references. The shape of a
  whole snapshot is read before anything in it, and the steps of a restored window are in the order
  of their times.
* `Latest.toSnapshot`, `Latest.ofSnapshot`: the memory of the latest vector.
-/

namespace RoadMatching

variable {P T Q K : Type}

/-! ### Candidates -/

/-- How the parts of a domain are written to JSON and read from it. -/
structure Codec (P T Q K : Type) where
  /-- The key of the payload in the object of a candidate. -/
  payloadKey : String
  writePayload : P → Json K
  readPayload : Json K → Except MemoryError P
  writeTransition : T → Json K
  readTransition : Json K → Except MemoryError T
  writeSample : Q → Json K
  readSample : Json K → Except MemoryError Q

/-- The shape of a snapshot, or the fault that it has another one. -/
def ofShape {α : Type} : Option α → Except MemoryError α
  | some a => .ok a
  | none => .error .shape

namespace Codec

variable [Numeral K]

/-- The object of a candidate, without its predecessor. -/
def writeCandidate (codec : Codec P T Q K) (c : Candidate P T K K) : Json K :=
  let transition := match c.transition with
    | some t => [("transition", codec.writeTransition t)]
    | none => []
  Json.object
    ([("id", .str c.id), ("filtprob", Probability.toJson c.belief),
      ("seqprob", Probability.toJson c.score)] ++ transition ++
      [(codec.payloadKey, codec.writePayload c.payload)])

/-- The keys of a candidate besides that of its payload. -/
def ownKeys : List String := ["id", "filtprob", "seqprob", "transition"]

/-- The parts of a candidate, all of which but the transition must be there. -/
structure CandidateRecord (K : Type) where
  id : CandidateId
  belief : Json K
  score : Json K
  transition : Option (Json K)
  /-- The fields of all other keys, the payload being one of them. -/
  others : List (String × Json K)

/-- The parts of a candidate in an object. -/
def candidateRecord? (json : Json K) : Option (CandidateRecord K) :=
  match json with
  | .obj fields => do
    return {
      id := ← (fields.lookup "id").bind Json.string?
      belief := ← fields.lookup "filtprob"
      score := ← fields.lookup "seqprob"
      transition := ← Json.optional some (fields.lookup "transition")
      others := fields.filter fun field => !ownKeys.contains field.1 }
  | _ => none

/-- The candidate of an object, without a predecessor. -/
def readCandidate [IntCast K] (codec : Codec P T Q K) (json : Json K) :
    Except MemoryError (Candidate P T K K) := do
  let parts ← ofShape (candidateRecord? json)
  let payload ← match parts.others.lookup codec.payloadKey with
    | some payload => codec.readPayload payload
    | none =>
      .error (.malformedSnapshot ("candidate is missing field '" ++ codec.payloadKey ++ "'"))
  let belief ← Probability.ofJson parts.belief
  let score ← Probability.ofJson parts.score
  let transition ← match parts.transition with
    | some transition => (codec.readTransition transition).map some
    | none => .ok none
  return {
    id := parts.id
    payload := payload
    predecessor := none
    transition := transition
    belief := belief
    score := score }

end Codec

/-! ### Windows -/

namespace Window

/-- A candidate of a step with its predecessor, an empty text if it has none. -/
structure LinkRecord where
  candidate : CandidateId
  predecessor : String

/-- A step, whose sample is not read. -/
structure StepRecord (K : Type) where
  links : List LinkRecord
  sample : Json K
  estimate : CandidateId

/-- A candidate, which is not read, with its number of references. -/
structure HeldRecord (K : Type) where
  candidate : Json K
  references : Nat

/-- The outer structure of a snapshot. -/
structure Record (K : Type) where
  maxSteps : Int
  maxAge : Int
  steps : List (StepRecord K)
  held : List (HeldRecord K)
  broken : Bool

section Write

variable [Numeral K]

/-- The JSON value of a step. -/
def writeStep (codec : Codec P T Q K) (w : Window P T Q K K) (step : Step Q) : Json K :=
  let link (c : Candidate P T K K) : Json K :=
    Json.object [("candid", .str c.id), ("predid", .str (c.predecessor.getD ""))]
  Json.object
    [("vector", .arr ((w.resolve step).map link)), ("sample", codec.writeSample step.sample),
      ("kestid", .str step.estimate)]

/-- The JSON value of a candidate held. -/
def writeHeld (codec : Codec P T Q K) (entry : Held P T K K) : Json K :=
  Json.object
    [("candidate", codec.writeCandidate entry.candidate), ("count", .int entry.references)]

/-- The JSON value of a bound, -1 for none. -/
def writeBound (bound : Option Nat) : Json K := .int (bound.elim (-1) fun n => signed64 n)

/-- The snapshot of a window. -/
def toSnapshot (codec : Codec P T Q K) (w : Window P T Q K K) : Json K :=
  Json.object
    [("k", writeBound w.maxSteps), ("t", writeBound w.maxAge),
      ("sequence", .arr (w.steps.map (writeStep codec w))),
      ("candidates", .arr (w.held.values.map (writeHeld codec))),
      ("broken", .bool w.broken)]

end Write

/-- The parts of a link. -/
def linkRecord? (json : Json K) : Option LinkRecord :=
  match json.record? ["candid", "predid"] 2 with
  | some [candidate, predecessor] => do
    return ⟨← Json.required Json.string? candidate, ← Json.required Json.string? predecessor⟩
  | _ => none

/-- The parts of a step. -/
def stepRecord? (json : Json K) : Option (StepRecord K) :=
  match json.record? ["vector", "sample", "kestid"] 3 with
  | some [vector, sample, estimate] => do
    return ⟨← Json.required (Json.listOf? linkRecord?) vector, ← sample,
      ← Json.required Json.string? estimate⟩
  | _ => none

/-- The parts of a candidate held. -/
def heldRecord? (json : Json K) : Option (HeldRecord K) :=
  match json.record? ["candidate", "count"] 2 with
  | some [candidate, count] => do
    return ⟨← candidate, ← Json.required Json.natural? count⟩
  | _ => none

/-- The parts of a snapshot. -/
def record? (json : Json K) : Option (Record K) :=
  match json.record? ["k", "t", "sequence", "candidates", "broken"] 4 with
  | some [k, t, sequence, candidates, broken] => do
    return {
      maxSteps := ← Json.required Json.integer? k
      maxAge := ← Json.required Json.integer? t
      steps := ← Json.required (Json.listOf? stepRecord?) sequence
      held := ← Json.required (Json.listOf? heldRecord?) candidates
      broken := ← Json.withDefault false Json.bool? broken }
  | _ => none

/-- The fault of a step that refers to a candidate the snapshot does not have. -/
def inconsistent : MemoryError := .malformedSnapshot "inconsistent candidates"

/-- Gives the candidate of a link its predecessor. Both must be there. -/
def restoreLink (held : Table CandidateId (Held P T K K)) (link : LinkRecord) :
    Except MemoryError (Table CandidateId (Held P T K K)) :=
  let predecessor := if link.predecessor.isEmpty then none else some link.predecessor
  if predecessor.any fun id => !held.contains id then .error inconsistent
  else if !held.contains link.candidate then .error inconsistent
  else
    .ok (held.modify link.candidate fun e =>
      { e with candidate := { e.candidate with predecessor := predecessor } })

/-- Restores a step, and the predecessors of its candidates. -/
def restoreStep (codec : Codec P T Q K) (held : Table CandidateId (Held P T K K))
    (step : StepRecord K) : Except MemoryError (Step Q × Table CandidateId (Held P T K K)) := do
  let held ← step.links.foldlM restoreLink held
  if !held.contains step.estimate then .error inconsistent
  else
    let sample ← codec.readSample step.sample
    return (⟨step.links.map LinkRecord.candidate, sample, step.estimate⟩, held)

/-- Restores steps one after the other. -/
def restoreSteps (codec : Codec P T Q K) (held : Table CandidateId (Held P T K K)) :
    List (StepRecord K) → Except MemoryError (List (Step Q) × Table CandidateId (Held P T K K))
  | [] => .ok ([], held)
  | step :: rest => do
    let (first, held) ← restoreStep codec held step
    let (others, held) ← restoreSteps codec held rest
    return (first :: others, held)

/-- The window of a snapshot. -/
def ofSnapshot [Numeral K] [IntCast K] [Timed Q] (codec : Codec P T Q K) (json : Json K) :
    Except MemoryError (Window P T Q K K) := do
  let parts ← ofShape (record? json)
  let held ← parts.held.foldlM
    (fun held entry => do
      let candidate ← codec.readCandidate entry.candidate
      return held.insert candidate.id ⟨candidate, entry.references⟩)
    (Table.empty : Table CandidateId (Held P T K K))
  let (steps, held) ← restoreSteps codec held parts.steps
  let fresh : Window P T Q K K := bounded (bound? parts.maxSteps) (bound? parts.maxAge)
  return { fresh with
    steps := steps.mergeSort fun a b => Timed.time a.sample ≤ Timed.time b.sample
    held := held
    broken := parts.broken }

end Window

/-! ### The latest vector -/

namespace Latest

/-- The snapshot of the latest vector. -/
def toSnapshot [Numeral K] (codec : Codec P T Q K) (m : Latest P T Q K K) : Json K :=
  Json.object
    [("candidates", .arr (m.vector.map codec.writeCandidate)),
      ("sample", Json.ofOption codec.writeSample m.sample?)]

/-- The memory of a snapshot. -/
def ofSnapshot [Numeral K] [IntCast K] (codec : Codec P T Q K) (json : Json K) :
    Except MemoryError (Latest P T Q K K) := do
  let (candidates, sample) ← ofShape <| match json.record? ["candidates", "sample"] 2 with
    | some [candidates, sample] => do
      return (← Json.required Json.items? candidates, ← Json.optional some sample)
    | _ => none
  let vector ← candidates.mapM codec.readCandidate
  let sample ← match sample with
    | some sample => (codec.readSample sample).map some
    | none => .ok none
  return ⟨vector, sample⟩

end Latest

end RoadMatching
