import RoadMatching.Number.Scalar

/-!
The binary64 numbers as a number type of the library.

A `Binary64` is a `Float` together with the sign of an undefined value; a defined one has no sign
besides its own. `Float` does not keep that sign, but the total order of numbers depends on it.

* `result`: what an operation yields. An undefined operand hands on its sign; where defined operands
  have no defined result, the undefined value is negative.
* `rank`: the place of a number in the total order, in which a negative zero precedes the positive
  one, and undefined values stand at both ends, by their sign; `compare_eq_compare_rank` makes it
  the order that queues and sorts use.
* `truncatedRemainder`: the exact remainder, computed on the integers `m` and `n` of two numbers
  `m * 2 ^ e` and `n * 2 ^ f` brought to one exponent; `hypotenuse` sums their squares likewise, so
  it neither overflows nor underflows on the way.
* Instances of the operators, of `Analysis`, `Extended`, `Score` and of the casts from integers.
-/

namespace RoadMatching

/-- A binary64 number. -/
@[ext]
structure Binary64 where
  value : Float
  /-- Whether this is an undefined value with a negative sign. -/
  negated : Bool
  isNaN_of_negated : negated = true → value.isNaN = true
  deriving Repr

namespace Binary64

/-! ### Results -/

/-- The number of a float; an undefined one is positive. -/
def ofFloat (value : Float) : Binary64 := ⟨value, false, Bool.noConfusion⟩

/-- Whether this is the undefined value. -/
def isUndefined (x : Binary64) : Bool := x.value.isNaN

/-- The result of an operation on the operands. An undefined one has the sign of the first undefined
operand, and is negative without such an operand. -/
def result (value : Float) (operands : List Binary64) : Binary64 where
  value
  negated := value.isNaN && ((operands.find? isUndefined).map negated).getD true
  isNaN_of_negated h := (Bool.and_eq_true_iff.1 h).1

/-- A defined number has no sign of its own. -/
theorem negated_of_defined {x : Binary64} (h : x.value.isNaN = false) : x.negated = false :=
  Bool.eq_false_iff.2 fun hnegated => Bool.eq_false_iff.1 h (x.isNaN_of_negated hnegated)

/-- A defined result is the number of the float. -/
theorem result_of_defined {value : Float} (h : value.isNaN = false) (operands : List Binary64) :
    result value operands = ofFloat value :=
  Binary64.ext rfl (negated_of_defined h)

/-! ### Operators -/

instance instAdd : Add Binary64 := ⟨fun x y => result (x.value + y.value) [x, y]⟩

instance instSub : Sub Binary64 := ⟨fun x y => result (x.value - y.value) [x, y]⟩

instance instMul : Mul Binary64 := ⟨fun x y => result (x.value * y.value) [x, y]⟩

instance instDiv : Div Binary64 := ⟨fun x y => result (x.value / y.value) [x, y]⟩

instance instNeg : Neg Binary64 where
  neg x :=
    { value := -x.value
      negated := (-x.value).isNaN && !x.negated
      isNaN_of_negated := fun h => (Bool.and_eq_true_iff.1 h).1 }

instance instNatCast : NatCast Binary64 := ⟨fun n => ofFloat (Float.ofNat n)⟩

instance instIntCast : IntCast Binary64 := ⟨fun n => ofFloat (Float.ofInt n)⟩

instance instZero : Zero Binary64 := ⟨ofFloat 0⟩

instance instOne : One Binary64 := ⟨ofFloat 1⟩

/-! ### Comparisons -/

instance instBEq : BEq Binary64 := ⟨fun x y => x.value == y.value⟩

instance instLT : LT Binary64 := ⟨fun x y => x.value < y.value⟩

instance instDecidableLT : DecidableLT Binary64 :=
  fun x y => inferInstanceAs (Decidable (x.value < y.value))

instance instLE : LE Binary64 := ⟨fun x y => x.value ≤ y.value⟩

instance instDecidableLE : DecidableLE Binary64 :=
  fun x y => inferInstanceAs (Decidable (x.value ≤ y.value))

/-- The bits of a number, the first one being its sign. -/
def bits (x : Binary64) : Nat :=
  x.value.toBits.toNat + if x.negated then 9223372036854775808 else 0

/-- The place of a number in the total order: its bits as a signed magnitude. -/
def rank (x : Binary64) : Int :=
  if x.bits < 9223372036854775808 then x.bits else 9223372036854775807 - (x.bits : Int)

instance instOrd : Ord Binary64 := ⟨fun x y => compare x.rank y.rank⟩

theorem compare_eq_compare_rank (x y : Binary64) :
    compare x y = compare x.rank y.rank := rfl

/-! ### Exact remainders -/

open Float.Model (UnpackedFloat)

/-- The number `m * 2 ^ e` with the given sign, rounded to the format. -/
def ofDyadic (sign : UnpackedFloat.Sign) (m : Nat) (e : Int) : Float :=
  .ofModel (.pack (UnpackedFloat.round .binary64 sign m e))

/-- The remainder of `x / y` truncated toward zero, without rounding. It has the sign of `x`, is
`x` itself for a divisor of greater size, and undefined for a zero divisor or an infinite
dividend. -/
def truncatedRemainder (x y : Float) : Float :=
  match x.toModel.unpack, y.toModel.unpack with
  | .notANumber, _ | _, .notANumber | .infinity _, _ | _, .zero _ => .ofModel (.pack .notANumber)
  | .zero _, _ | _, .infinity _ => x
  | .finite sign m e _, .finite _ n f _ =>
    let common := min e f
    let a := m <<< (e - common).toNat
    let b := n <<< (f - common).toNat
    if a < b then x else ofDyadic sign (a % b) common

/-! ### Exact hypotenuses -/

/-- The size of a finite number, as `m` and `e` of `m * 2 ^ e`. -/
def dyadic? (x : Float) : Option (Nat × Int) :=
  match x.toModel.unpack with
  | .finite _ m e _ => some (m, e)
  | .zero _ => some (0, 0)
  | .infinity _ | .notANumber => none

/-- The square root of `m * 2 ^ e`, rounded to the format. -/
def rootOfDyadic (m : Nat) (e : Int) : Float :=
  if h : 0 < m then .ofModel (.pack (.sqrt .binary64 (.finite .positive m e h))) else 0

/-- The root of `x * x + y * y`, rounded once. It is infinite beside an infinite side, even if the
other side is undefined. -/
def hypotenuse (x y : Float) : Float :=
  match dyadic? x, dyadic? y with
  | some (m, e), some (n, f) =>
    let common := min e f
    let a := m <<< (e - common).toNat
    let b := n <<< (f - common).toNat
    rootOfDyadic (a * a + b * b) (2 * common)
  | _, _ => if x.isInf || y.isInf then 1 / 0 else 0 / 0

/-! ### Functions and values -/

/-- The kind of a number, read off its exponent and mantissa. -/
def kind (x : Float) : NumberKind :=
  match x.toModel.unpack with
  | .notANumber => .undefined
  | .infinity sign => .infinite (sign == .negative)
  | .zero _ | .finite _ _ _ _ => .finite

instance instAnalysis : Analysis Binary64 where
  pi := ofFloat 3.141592653589793
  sqrt x := result (Float.sqrt x.value) [x]
  exp x := result (Float.exp x.value) [x]
  nearest x := result (Float.round x.value) [x]
  remainder x y := result (truncatedRemainder x.value y.value) [x, y]

instance instExtended : Extended Binary64 where
  kind x := kind x.value
  infinite negative := ofFloat (if negative then -1 / 0 else 1 / 0)
  undefined := ofFloat (0 / 0)

instance instScore : Score Binary64 Binary64 where
  log10 x := result (Float.log10 x.value) [x]
  impossible := ofFloat (-1 / 0)

end Binary64

end RoadMatching
