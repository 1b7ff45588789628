import RoadMatching.Error
import RoadMatching.Markov.Candidate

/-!
The memory of the latest candidate vector alone.

It serves where only the current estimate is of interest. An empty vector changes nothing, and a
sample older than the last one is refused.
-/

namespace RoadMatching

/-- A vector of candidates and the sample they are for. -/
structure Latest (P T Q K S : Type) where
  vector : List (Candidate P T K S)
  sample? : Option Q

namespace Latest

variable {P T Q K S : Type}

/-- A memory without a vector. -/
def empty : Latest P T Q K S := ⟨[], none⟩

/-- The time of the sample. -/
def time? [Timed Q] (m : Latest P T Q K S) : Option Int := m.sample?.map Timed.time

/-- The candidate with the greatest belief. -/
def estimate? [LE K] [DecidableLE K] (m : Latest P T Q K S) : Option (Candidate P T K S) :=
  Candidate.mostLikely? m.vector

/-- The memory after the vector of a sample. -/
def update [Timed Q] (m : Latest P T Q K S) (vector : List (Candidate P T K S)) (sample : Q) :
    Except MemoryError (Latest P T Q K S) :=
  if vector.isEmpty then .ok m
  else
    match m.time?.filter fun last => Timed.time sample < last with
    | some last => .error (.outOfOrder last (Timed.time sample))
    | none => .ok ⟨vector, some sample⟩

end Latest

end RoadMatching
