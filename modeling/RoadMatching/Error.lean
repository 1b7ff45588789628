/-!
What can go wrong, and how it is told.

Each part of the library has its own causes: the network of edges, the road map, the memories of
match states, batches of tasks, and matching itself, whose causes include the others'. `Error`
gathers them all. A cause carries the data of its message, and `message` is the only place where a
message is worded.
-/

namespace RoadMatching

/-- Faults of paths and edges. -/
inductive NetworkError where
  /-- The edges given do not form a path from the one edge to the other. -/
  | disconnected (source target : Int)
  | unknownEdge (id : Int)
  deriving DecidableEq, Repr

/-- Faults of lookups on a road map. -/
inductive MapError where
  | notConstructed
  | unknownRoad (id : Int)
  | malformed (reason : String)
  | network (error : NetworkError)
  deriving DecidableEq, Repr

/-- Faults of updates and snapshots of a memory. -/
inductive MemoryError where
  | outOfOrder (last time : Int)
  | inconsistentVector (candidate predecessor : String)
  | malformedSnapshot (reason : String)
  /-- A snapshot lacks a field or has one of the wrong kind. -/
  | shape
  deriving DecidableEq, Repr

/-- Faults of a batch of tasks. -/
inductive BatchError where
  | timeout (completed expected : Nat)
  | taskFailed
  | unavailable (reason : String)
  deriving DecidableEq, Repr

/-- Faults of matching a sample. -/
inductive MatchError where
  | batch (error : BatchError)
  | memory (error : MemoryError)
  | map (error : MapError)
  | malformedSample (reason : String)
  deriving DecidableEq, Repr

/-- Every fault of the library. -/
inductive Error where
  | network (error : NetworkError)
  | map (error : MapError)
  | memory (error : MemoryError)
  | matching (error : MatchError)
  | batch (error : BatchError)
  deriving DecidableEq, Repr

/-! ### Messages -/

namespace NetworkError

/-- The text of the fault. -/
def message : NetworkError → String
  | disconnected source target =>
    "path from edge " ++ toString source ++ " to edge " ++ toString target ++ " is not connected"
  | unknownEdge id => "edge " ++ toString id ++ " is not part of the graph"

end NetworkError

namespace MapError

/-- The text of the fault. -/
def message : MapError → String
  | notConstructed => "spatial index is not constructed"
  | unknownRoad id => "road " ++ toString id ++ " is not part of the map"
  | malformed reason => "malformed road reference: " ++ reason
  | network error => error.message

end MapError

namespace MemoryError

/-- The text of the fault. -/
def message : MemoryError → String
  | outOfOrder last time =>
    "out-of-order state update at " ++ toString time ++ ", last update was at " ++ toString last
  | inconsistentVector candidate predecessor =>
    "inconsistent update vector, predecessor " ++ predecessor ++ " of candidate " ++ candidate ++
      " is not part of the last vector"
  | malformedSnapshot reason => "malformed state snapshot: " ++ reason
  | shape => "could not (de)serialize state snapshot"

end MemoryError

namespace BatchError

/-- The text of the fault. -/
def message : BatchError → String
  | timeout completed expected =>
    "timed out with " ++ toString completed ++ " of " ++ toString expected ++ " tasks completed"
  | taskFailed => "a task panicked"
  | unavailable reason => "could not create worker pool: " ++ reason

end BatchError

namespace MatchError

/-- The text of the fault. -/
def message : MatchError → String
  | batch error => "routing tasks did not complete: " ++ error.message
  | memory error => "state update failed: " ++ error.message
  | map error => "road map unavailable: " ++ error.message
  | malformedSample reason => "malformed sample: " ++ reason

end MatchError

namespace Error

/-- The text of the fault. -/
def message : Error → String
  | network error => "topology error: " ++ error.message
  | map error => "road map error: " ++ error.message
  | memory error => "state memory error: " ++ error.message
  | matching error => "matching failed: " ++ error.message
  | batch error => "routing scheduler failed: " ++ error.message

end Error

end RoadMatching
