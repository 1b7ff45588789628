import RoadMatching.Error
import RoadMatching.Json.Printer

/-!
Probabilities in JSON.

A finite probability is a number. The infinities and the undefined value are texts, since a JSON
number cannot hold them; any text of a number is read.
-/

namespace RoadMatching.Probability

variable {K : Type} [Numeral K]

/-- The JSON value of a probability. -/
def toJson (x : K) : Json K :=
  match Extended.kind x with
  | .finite => .float x
  | .infinite false => .str "Infinity"
  | .infinite true => .str "-Infinity"
  | .undefined => .str "NaN"

/-- The fault of a value that is no probability. -/
def fault (text : String) : MemoryError :=
  .malformedSnapshot ("invalid probability " ++ text)

/-- The probability of a JSON value. -/
def ofJson [IntCast K] : Json K → Except MemoryError K
  | .int n => .ok (n : K)
  | .float x => .ok x
  | .str "Infinity" => .ok (Extended.infinite false)
  | .str "-Infinity" => .ok (Extended.infinite true)
  | .str "NaN" => .ok Extended.undefined
  | .str text =>
    match Numeral.read? text with
    | some x => .ok x
    | none => .error (fault text)
  | other => .error (fault other.render)

end RoadMatching.Probability
