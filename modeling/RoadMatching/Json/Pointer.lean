import RoadMatching.Json.Basic

/-!
Places inside a JSON value.

A pointer is a text such as `/sequence/0/sample`, whose steps name the key of an object or the index
of an array. `replace` puts a value at a place, adding a missing key, and `remove` takes one away; a
pointer that leads nowhere changes nothing.
-/

namespace RoadMatching.Json

variable {K : Type}

/-- The steps of a pointer; `~1` stands for a slash and `~0` for a tilde. -/
def pointerSteps (pointer : String) : List String :=
  ((pointer.splitToList (· == '/')).drop 1).map fun step =>
    (step.replace "~1" "/").replace "~0" "~"

/-- Changes the value at the end of the steps: `change` gets the value there, if any, and yields the
new one, if any. -/
def update (change : Option (Json K) → Option (Json K)) : List String → Json K → Json K
  | [], json => (change (some json)).getD .null
  | [step], .obj fields =>
    match change (fields.lookup step) with
    | some value => .obj (setField step value fields)
    | none => .obj (fields.filter fun field => field.1 ≠ step)
  | step :: rest, .obj fields =>
    match fields.lookup step with
    | some value => .obj (setField step (update change rest value) fields)
    | none => .obj fields
  | [step], .arr items =>
    match Decimal.natural? step with
    | some i =>
      match change items[i]? with
      | some value => .arr (if i < items.length then items.set i value else items ++ [value])
      | none => .arr (items.eraseIdx i)
    | none => .arr items
  | step :: rest, .arr items =>
    match Decimal.natural? step with
    | some i => .arr (items.modify i (update change rest))
    | none => .arr items
  | _ :: _, json => json

/-- The value with `value` at the place of the pointer. -/
def replace (json : Json K) (pointer : String) (value : Json K) : Json K :=
  update (fun _ => some value) (pointerSteps pointer) json

/-- The value without what is at the place of the pointer. -/
def remove (json : Json K) (pointer : String) : Json K :=
  update (fun _ => none) (pointerSteps pointer) json

end RoadMatching.Json
