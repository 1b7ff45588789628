import RoadMatching.Json.Basic

/-!
Records read from JSON.

A record is an object with a field for each name, of which unknown ones are ignored, or an array of
the fields in their order. `record?` yields the values of the names in order, each absent or
present; whether a field may be absent is for its reader to say.

* `required`, `optional`: the two kinds of fields; an optional one may also be `null`.
* `listOf?`: an array whose items are all read.
-/

namespace RoadMatching.Json

variable {K : Type}

/-- The values of the named fields, in order. An array holds at least `least` of them. -/
def record? (names : List String) (least : Nat) : Json K → Option (List (Option (Json K)))
  | .obj fields => some (names.map fun name => fields.lookup name)
  | .arr items =>
    if least ≤ items.length ∧ items.length ≤ names.length then
      some (items.map some ++ List.replicate (names.length - items.length) none)
    else none
  | _ => none

/-- A record has a place for every name. -/
theorem length_record? {names : List String} {least : Nat} {json : Json K}
    {values : List (Option (Json K))} (h : json.record? names least = some values) :
    values.length = names.length := by
  cases json with
  | obj fields => simp only [record?, Option.some.injEq] at h; simp [← h]
  | arr items =>
    simp only [record?] at h
    split at h
    · rename_i hle
      simp only [Option.some.injEq] at h
      simp only [← h, List.length_append, List.length_map, List.length_replicate]
      omega
    · simp at h
  | null | bool _ | int _ | float _ | str _ => simp [record?] at h

/-- A field that must be there. -/
def required {α : Type} (read : Json K → Option α) (value : Option (Json K)) : Option α :=
  value.bind read

/-- A field that may be absent or `null`. -/
def optional {α : Type} (read : Json K → Option α) : Option (Json K) → Option (Option α)
  | none | some .null => some none
  | some json => (read json).map some

/-- A field that has a value of its own when it is absent. -/
def withDefault {α : Type} (default : α) (read : Json K → Option α) :
    Option (Json K) → Option α
  | none => some default
  | some json => read json

/-- The items of an array, all of which are read. -/
def listOf? {α : Type} (read : Json K → Option α) (json : Json K) : Option (List α) :=
  json.items?.bind fun items => items.mapM read

end RoadMatching.Json
