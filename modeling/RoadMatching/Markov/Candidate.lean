import RoadMatching.Number.Scalar
import RoadMatching.Number.Word

/-!
Candidates for the hidden state at one time.

A candidate carries a payload of type `P`, such as a position, and what the filter found out about
it: how likely it is given all samples so far (`belief`), how likely the best sequence is that ends
in it (`score`, a logarithm), and by which candidate of the time before and which transition that
sequence comes.

* `mostLikely?`: the candidate of greatest belief, the last one of equals taking no precedence.
* `best?`: the candidate of greatest score, the first of equals.
-/

namespace RoadMatching

/-- Things measured at a time, in milliseconds. -/
class Timed (Q : Type) where
  time : Q → Int

/-- The milliseconds from a time to another one, as a number of 64 bits. -/
def elapsed (start stop : Int) : Int := signed64 (stop - start)

/-- The identifier of a candidate, unique within the memory that holds it. -/
abbrev CandidateId : Type := String

/-- A hypothesis of the hidden state. -/
structure Candidate (P T K S : Type) where
  id : CandidateId
  payload : P
  /-- The candidate before this one on the best sequence. -/
  predecessor : Option CandidateId
  /-- The transition from the predecessor. -/
  transition : Option T
  belief : K
  score : S
  deriving Repr, DecidableEq

namespace Candidate

variable {P T K S : Type}

/-- A candidate of which nothing is known. -/
def new [Zero K] [Zero S] (id : CandidateId) (payload : P) : Candidate P T K S :=
  ⟨id, payload, none, none, 0, 0⟩

/-- The candidate of greatest belief. A later one takes over unless its belief is at most that of
the one before. -/
def mostLikely? [LE K] [DecidableLE K] (vector : List (Candidate P T K S)) :
    Option (Candidate P T K S) :=
  vector.foldl
    (fun estimate c =>
      match estimate with
      | some e => if c.belief ≤ e.belief then some e else some c
      | none => some c)
    none

/-- The first candidate of greatest score. -/
def best? [LT S] [DecidableLT S] (vector : List (Candidate P T K S)) :
    Option (Candidate P T K S) :=
  vector.foldl
    (fun best c =>
      match best with
      | some b => if b.score < c.score then some c else some b
      | none => some c)
    none

end Candidate

end RoadMatching
