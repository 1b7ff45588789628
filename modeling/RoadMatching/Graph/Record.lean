import RoadMatching.Graph.Path
import RoadMatching.Json.Record

/-!
Positions and paths read from JSON records.

A path read this way is not checked against a graph.
-/

namespace RoadMatching

variable {K : Type} [IntCast K]

/-- A position, from its edge and its fraction. -/
def Spot.ofRecord? (json : Json K) : Option (Spot K) :=
  match json.record? ["edge", "fraction"] 2 with
  | some [edge, fraction] => do
    return ⟨← Json.required Json.integer? edge, ← Json.required Json.number? fraction⟩
  | _ => none

/-- A path, from its source, its target and its edges. -/
def Path.ofRecord? (json : Json K) : Option (Path K) :=
  match json.record? ["source", "target", "edges"] 3 with
  | some [source, target, edges] => do
    return ⟨← Json.required Spot.ofRecord? source, ← Json.required Spot.ofRecord? target,
      ← Json.required (Json.listOf? Json.integer?) edges⟩
  | _ => none

end RoadMatching
