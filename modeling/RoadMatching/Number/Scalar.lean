/-!
The arithmetic that the library asks of a number type `K`.

Every algorithm takes its operations from the core operator classes alone (`Add`, `Mul`, `LT`,
`Ord`, …), so one definition runs on binary64 numbers and is reasoned about over an ordered field.
This module adds what those classes leave open.

* `least`, `greatest`, `clampUnit`, `magnitude`: extremes and absolute value. Of comparable numbers
  they are the usual ones (`least_of_lt`, `greatest_of_lt`); a number which differs from itself is
  undefined, and an extreme prefers the defined of its arguments.
* `total`: the sum of a list of numbers.
* `Analysis`: roots, exponentials, rounding and remainders. `euclideanRemainder` moves a negative
  remainder up by the size of the divisor.
* `Extended`: the infinities and the undefined value of a number type, told apart by `kind`.
* `Score`: logarithms of probabilities, with a least score for what is impossible.
-/

namespace RoadMatching

variable {K : Type}

/-! ### Extremes -/

section Extremes

variable [LT K] [DecidableLT K] [BEq K]

/-- The lesser of two numbers; an undefined one gives way to the other. -/
def least (x y : K) : K :=
  if x < y then x else if y == y then y else x

/-- The greater of two numbers; an undefined one gives way to the other. -/
def greatest (x y : K) : K :=
  if y < x then x else if y == y then y else x

theorem least_of_lt {x y : K} (h : x < y) : least x y = x := by
  simp [least, h]

theorem least_of_not_lt [ReflBEq K] {x y : K} (h : ¬ x < y) : least x y = y := by
  simp [least, h]

theorem greatest_of_lt {x y : K} (h : y < x) : greatest x y = x := by
  simp [greatest, h]

theorem greatest_of_not_lt [ReflBEq K] {x y : K} (h : ¬ y < x) : greatest x y = y := by
  simp [greatest, h]

end Extremes

section Unit

variable [Zero K] [One K] [LT K] [DecidableLT K]

/-- The number of the unit interval closest to `x`; an undefined number stays undefined. -/
def clampUnit (x : K) : K :=
  if x < 0 then 0 else if 1 < x then 1 else x

/-- The absolute value. -/
def magnitude [Neg K] (x : K) : K :=
  if x < 0 then -x else x

theorem clampUnit_of_mem {x : K} (h₀ : ¬ x < 0) (h₁ : ¬ 1 < x) : clampUnit x = x := by
  simp [clampUnit, h₀, h₁]

end Unit

/-- The sum of numbers, from the left. The sum of none is the negative zero, which is neutral also
where zeros have signs. -/
def total [Zero K] [Neg K] [Add K] (xs : List K) : K := xs.foldl (· + ·) (-0)

/-- The quotient of two natural numbers as a constant of `K`. -/
def ratio [NatCast K] [Div K] (num den : Nat) : K := (num : K) / (den : K)

/-! ### Analysis -/

/-- Functions beyond field arithmetic. -/
class Analysis (K : Type) where
  /-- Half the circumference of the unit circle. -/
  pi : K
  sqrt : K → K
  exp : K → K
  /-- The nearest integer, a half going away from zero. -/
  nearest : K → K
  /-- The remainder of a division truncated toward zero; it has the sign of the dividend. -/
  remainder : K → K → K

/-- The remainder that is never negative: a negative one moves up by the size of the divisor. -/
def euclideanRemainder [Analysis K] [Zero K] [One K] [LT K] [DecidableLT K] [Neg K] [Add K]
    (x y : K) : K :=
  let r := Analysis.remainder x y
  if r < 0 then r + magnitude y else r

/-! ### Numbers beyond the finite -/

/-- What a number may be: finite, one of the two infinities, or undefined. -/
inductive NumberKind where
  | finite
  | infinite (negative : Bool)
  | undefined
  deriving DecidableEq, Repr

/-- The values of a number type that are not finite. -/
class Extended (K : Type) where
  kind : K → NumberKind
  infinite : Bool → K
  undefined : K

/-- Whether `x` is finite. -/
def isFinite [Extended K] (x : K) : Bool := Extended.kind x == .finite

/-! ### Scores -/

/-- Scores `S` of probabilities `K`: their decimal logarithm, and the score below all others that
stands for what is impossible. -/
class Score (K : Type) (S : outParam (Type)) where
  log10 : K → S
  impossible : S

end RoadMatching
