import RoadMatching.Proofs.Memory.Updates

/-!
Histories: memories that drop nothing.

A history keeps every vector accepted as a whole, with its sample and its best candidate, and
refuses what a memory refuses. It is what a memory is compared with.

* `History.update`, `History.feed`: the history after an update, and after some.
* `History.sequence`: the predecessors named, back from the best candidate of the last vector; where
  none is named, it goes on from the best candidate of the vector before.
* `History.length_sequence`: the sequence has one candidate for each vector.
-/

namespace RoadMatching

variable {P T Q K S : Type}

/-- A vector with its sample and its first candidate of greatest score. -/
structure History.Record (P T Q K S : Type) where
  vector : List (Candidate P T K S)
  sample : Q
  best : Candidate P T K S

/-- The records of all vectors accepted, oldest first. -/
structure History (P T Q K S : Type) where
  records : List (History.Record P T Q K S)
  /-- Whether the last vector submitted was empty. -/
  broken : Bool

namespace History

/-- The history without records. -/
def empty : History P T Q K S := ⟨[], false⟩

/-- The last sample. -/
def sample? (h : History P T Q K S) : Option Q := h.records.getLast?.map Record.sample

/-- The time of the last sample. -/
def time? [Timed Q] (h : History P T Q K S) : Option Int := h.sample?.map Timed.time

/-- The last vector. -/
def vector (h : History P T Q K S) : List (Candidate P T K S) :=
  (h.records.getLast?.map Record.vector).getD []

/-- The candidate of the last vector with the greatest belief. -/
def estimate? [LE K] [DecidableLE K] (h : History P T Q K S) : Option (Candidate P T K S) :=
  Candidate.mostLikely? h.vector

/-- The candidates of the records, latest first: the one named by the candidate after it, or else
the best one. -/
def walkBack : Option CandidateId → List (Record P T Q K S) → List (Candidate P T K S)
  | _, [] => []
  | next, r :: earlier =>
    let candidate := (next.bind fun id => r.vector.find? fun c => c.id = id).getD r.best
    candidate :: walkBack candidate.predecessor earlier

/-- The most likely sequence, oldest first. -/
def sequence (h : History P T Q K S) : List (Candidate P T K S) :=
  (walkBack none h.records.reverse).reverse

lemma length_walkBack (next : Option CandidateId) (records : List (Record P T Q K S)) :
    (walkBack next records).length = records.length := by
  induction records generalizing next with
  | nil => rfl
  | cons r earlier ih =>
    rw [walkBack]
    rw [List.length_cons, List.length_cons, ih]

/-- A sequence has one candidate for each record. -/
lemma length_sequence (h : History P T Q K S) : h.sequence.length = h.records.length := by
  rw [sequence, List.length_reverse, length_walkBack, List.length_reverse]

/-- The reason for which a vector is refused: its sample is older than the last one, or a candidate
names a predecessor that is not in the last vector, or any after a break. -/
def fault? [Timed Q] (h : History P T Q K S) (vector : List (Candidate P T K S)) (sample : Q) :
    Option MemoryError :=
  let latest := if h.broken then [] else h.vector.map Candidate.id
  let late := h.time?.bind fun last =>
    if Timed.time sample < last then some (.outOfOrder last (Timed.time sample)) else none
  let unknown := vector.findSome? fun candidate =>
    candidate.predecessor.bind fun predecessor =>
      if latest.contains predecessor then none
      else some (.inconsistentVector candidate.id predecessor)
  late.or unknown

variable [Timed Q] [LT S] [DecidableLT S]

/-- The history after the vector of a sample. -/
def update (h : History P T Q K S) (vector : List (Candidate P T K S)) (sample : Q) :
    Except MemoryError (History P T Q K S) :=
  match Candidate.best? vector with
  | none => .ok { h with broken := true }
  | some best =>
    match h.fault? vector sample with
    | some error => .error error
    | none => .ok ⟨h.records ++ [⟨vector, sample, best⟩], false⟩

/-- The history after an update. One that is refused changes nothing. -/
def accept (h : History P T Q K S) (u : Update P T Q K S) : History P T Q K S :=
  match h.update u.vector u.sample with
  | .ok after => after
  | .error _ => h

/-- The history after all updates, first to last. -/
def feed (h : History P T Q K S) (updates : List (Update P T Q K S)) : History P T Q K S :=
  updates.foldl accept h

lemma feed_concat (h : History P T Q K S) (updates : List (Update P T Q K S))
    (u : Update P T Q K S) : h.feed (updates ++ [u]) = (h.feed updates).accept u := by
  rw [feed, feed, List.foldl_append]
  rfl

end History

end RoadMatching
