import RoadMatching.Decimal.Reading

/-!
JSON values whose fractional numbers belong to a number type `K`.

Integers and fractional numbers are kept apart, since an integer is asked for in many places where
`1.0` will not do. The fields of an object are sorted by key, each key once.

* `Json.object`: the object of a list of fields, of which the last of a key counts; `field?_object`
  reads a field back.
* `ofNumber`: a number, or `null` if it is not finite.
* `integer?`, `natural?`, `number?`, `string?`, `items?`: what a value is, if it is that.
-/

namespace RoadMatching

/-- A JSON value. -/
inductive Json (K : Type) where
  | null
  | bool (b : Bool)
  | int (n : Int)
  | float (x : K)
  | str (s : String)
  | arr (items : List (Json K))
  | obj (fields : List (String × Json K))

namespace Json

variable {K : Type}

instance : Inhabited (Json K) := ⟨.null⟩

/-! ### Fields -/

/-- The fields with `key` set to `value`, in the place of its order. -/
def setField (key : String) (value : Json K) :
    List (String × Json K) → List (String × Json K)
  | [] => [(key, value)]
  | (k, v) :: rest =>
    if key = k then (key, value) :: rest
    else if key < k then (key, value) :: (k, v) :: rest
    else (k, v) :: setField key value rest

/-- The object of the fields; the last one of a key counts. -/
def object (fields : List (String × Json K)) : Json K :=
  .obj (fields.foldl (fun sorted field => setField field.1 field.2 sorted) [])

/-- The value of a key, if this is an object that has it. -/
def field? (json : Json K) (key : String) : Option (Json K) :=
  match json with
  | .obj fields => fields.lookup key
  | _ => none

/-- The object with `key` set to `value`; what is not an object stays as it is. -/
def insert (json : Json K) (key : String) (value : Json K) : Json K :=
  match json with
  | .obj fields => .obj (setField key value fields)
  | other => other

theorem lookup_setField (key other : String) (value : Json K) (fields : List (String × Json K)) :
    (setField key value fields).lookup other
      = if other = key then some value else fields.lookup other := by
  induction fields with
  | nil =>
    by_cases h : other = key <;>
      simp [setField, List.lookup_cons, List.lookup_nil, h, beq_eq_false_iff_ne.2]
  | cons field rest ih =>
    obtain ⟨k, v⟩ := field
    unfold setField
    by_cases hk : key = k
    · subst hk
      by_cases h : other = key <;> simp [List.lookup_cons, h, beq_eq_false_iff_ne.2]
    · by_cases hlt : key < k
      · by_cases h : other = key <;> simp [hk, hlt, List.lookup_cons, h, beq_eq_false_iff_ne.2]
      · simp only [hk, hlt, if_false, List.lookup_cons, ih]
        by_cases h : other = key
        · subst h
          simp [beq_eq_false_iff_ne.2 hk]
        · simp [h]

/-- An object read back: the last field of a key counts. -/
theorem field?_object_append (fields : List (String × Json K)) (key other : String)
    (value : Json K) :
    (object (fields ++ [(key, value)])).field? other
      = if other = key then some value else (object fields).field? other := by
  simp [object, field?, List.foldl_append, lookup_setField]

/-! ### Values -/

/-- The least integer of 64 bits with a sign. -/
def minInt64 : Int := -9223372036854775808

/-- The greatest integer of 64 bits with a sign. -/
def maxInt64 : Int := 9223372036854775807

/-- The greatest natural number of 64 bits. -/
def maxNat64 : Nat := 18446744073709551615

/-- A finite number, and `null` for any other. -/
def ofNumber [Extended K] (x : K) : Json K := if isFinite x then .float x else .null

/-- The integer of 64 bits with a sign, if this is one. -/
def integer? : Json K → Option Int
  | .int n => if minInt64 ≤ n ∧ n ≤ maxInt64 then some n else none
  | _ => none

/-- The natural number of 64 bits, if this is one. -/
def natural? : Json K → Option Nat
  | .int n => if 0 ≤ n ∧ n ≤ maxNat64 then some n.toNat else none
  | _ => none

/-- The number, if this is an integer or a fractional number. -/
def number? [IntCast K] : Json K → Option K
  | .int n => some (n : K)
  | .float x => some x
  | _ => none

/-- The truth value, if this is one. -/
def bool? : Json K → Option Bool
  | .bool b => some b
  | _ => none

/-- The text, if this is one. -/
def string? : Json K → Option String
  | .str s => some s
  | _ => none

/-- The items, if this is an array. -/
def items? : Json K → Option (List (Json K))
  | .arr items => some items
  | _ => none

/-- Whether this is `null`. -/
def isNull : Json K → Bool
  | .null => true
  | _ => false

/-- A value that may be absent, `null` if it is. -/
def ofOption {α : Type} (write : α → Json K) : Option α → Json K
  | none => .null
  | some a => write a

end Json

end RoadMatching
