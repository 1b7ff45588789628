import RoadMatching.Json.Basic

/-!
Changing every value inside a JSON value.

`transform` rebuilds a value from the inside out. Each value is changed in the knowledge of the keys
that it stands under, the innermost first.
-/

namespace RoadMatching.Json

variable {K : Type}

mutual

/-- The value with every value inside it changed, and then itself. -/
def transform (change : List String → Json K → Json K) (keys : List String) : Json K → Json K
  | .arr items => change keys (.arr (transformItems change keys items))
  | .obj fields => change keys (.obj (transformFields change keys fields))
  | value => change keys value

/-- The items of an array, each transformed. -/
def transformItems (change : List String → Json K → Json K) (keys : List String) :
    List (Json K) → List (Json K)
  | [] => []
  | item :: rest => transform change keys item :: transformItems change keys rest

/-- The fields of an object, each value transformed under its key. -/
def transformFields (change : List String → Json K → Json K) (keys : List String) :
    List (String × Json K) → List (String × Json K)
  | [] => []
  | (key, value) :: rest =>
    (key, transform change (key :: keys) value) :: transformFields change keys rest

end

theorem transformItems_eq_map (change : List String → Json K → Json K) (keys : List String)
    (items : List (Json K)) :
    transformItems change keys items = items.map (transform change keys) := by
  induction items with
  | nil => rfl
  | cons item rest ih => simp [transformItems, ih]

end RoadMatching.Json
