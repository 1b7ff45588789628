import RoadMatching.Number.Binary64

/-!
Decimal digits of exact values, and the two rounded forms of a number.

A finite number is a quotient of natural numbers (`Quotient`) with a sign, so its digits are chosen
in exact arithmetic.

* `Quotient.nearest`: the nearest integer, a half going to the even neighbour; `two_mul_le_nearest`
  and `nearest_le_two_mul` keep it within half a unit.
* `Quotient.decade`: the place of the leading digit.
* `fixed`: a number with a given count of digits after the point; a result without a digit other
  than zero has no sign.
* `scientific`: a number with a given count of significant digits, one of them before the point,
  and its power of ten.
-/

namespace RoadMatching.Decimal

open Float.Model (UnpackedFloat)

/-! ### Quotients -/

/-- The value `num / den`. -/
structure Quotient where
  num : Nat
  den : Nat
  deriving Repr

namespace Quotient

/-- The value `m * 2 ^ e`. -/
def ofDyadic (m : Nat) (e : Int) : Quotient :=
  if 0 ≤ e then ⟨m <<< e.toNat, 1⟩ else ⟨m, 1 <<< (-e).toNat⟩

/-- The value times `10 ^ s`. -/
def shift (q : Quotient) (s : Int) : Quotient :=
  if 0 ≤ s then ⟨q.num * Nat.pow 10 s.toNat, q.den⟩ else ⟨q.num, q.den * Nat.pow 10 (-s).toNat⟩

/-- The nearest integer, a half going to the even neighbour. -/
def nearest (q : Quotient) : Nat :=
  match compare (2 * (q.num % q.den)) q.den with
  | .lt => q.num / q.den
  | .eq => q.num / q.den + q.num / q.den % 2
  | .gt => q.num / q.den + 1

/-- Rounding goes up by half a unit at most. -/
theorem nearest_le_two_mul (q : Quotient) :
    2 * (q.nearest * q.den) ≤ 2 * q.num + q.den := by
  have h := Nat.div_add_mod q.num q.den
  have hc : q.num / q.den * q.den = q.den * (q.num / q.den) := Nat.mul_comm _ _
  unfold nearest
  split
  · omega
  · rename_i he
    have he := Nat.compare_eq_eq.1 he
    have hm := Nat.mul_le_mul_right q.den (show q.num / q.den % 2 ≤ 1 by omega)
    rw [Nat.add_mul]
    omega
  · rename_i hg
    have hg := Nat.compare_eq_gt.1 hg
    rw [Nat.add_mul]
    omega

/-- Rounding goes down by half a unit at most. -/
theorem two_mul_le_nearest (q : Quotient) (hd : 0 < q.den) :
    2 * q.num ≤ 2 * (q.nearest * q.den) + q.den := by
  have h := Nat.div_add_mod q.num q.den
  have hc : q.num / q.den * q.den = q.den * (q.num / q.den) := Nat.mul_comm _ _
  have hr := Nat.mod_lt q.num hd
  unfold nearest
  split
  · rename_i hl
    have hl := Nat.compare_eq_lt.1 hl
    omega
  · rename_i he
    have he := Nat.compare_eq_eq.1 he
    rw [Nat.add_mul]
    omega
  · rw [Nat.add_mul]
    omega

/-- The exponent of the leading digit: the largest `k` for which `10 ^ k` does not exceed the
value. The lengths of numerator and denominator leave two candidates. -/
def decade (q : Quotient) : Int :=
  let guess : Int := (Nat.toDigits 10 q.num).length - (Nat.toDigits 10 q.den).length
  let scaled := q.shift (-guess)
  if scaled.den ≤ scaled.num then guess else guess - 1

/-- The leading `n` digits, rounded, as an integer, and the exponent of the first of them. -/
def significant (q : Quotient) (n : Nat) : Nat × Int :=
  let k := q.decade
  let digits := (q.shift (n - 1 - k)).nearest
  if digits = Nat.pow 10 n then (Nat.pow 10 (n - 1), k + 1) else (digits, k)

end Quotient

/-! ### Layout -/

/-- The decimal digits of `n`, with zeros in front up to the width. -/
def digitsOfWidth (width n : Nat) : List Char :=
  let digits := Nat.toDigits 10 n
  List.replicate (width - digits.length) '0' ++ digits

/-- The integer `n` as a number with `places` digits after the point. -/
def pointed (places n : Nat) : String :=
  let digits := digitsOfWidth (places + 1) n
  let whole := digits.take (digits.length - places)
  if places = 0 then String.ofList whole
  else String.ofList (whole ++ '.' :: digits.drop (digits.length - places))

/-- A digit before the point, the others behind it, and the power of ten. -/
def powered (digits : List Char) (exponent : Int) : String :=
  match digits with
  | [] => ""
  | [d] => d.toString ++ "e" ++ toString exponent
  | d :: rest => String.ofList (d :: '.' :: rest) ++ "e" ++ toString exponent

/-- The text of what is not finite. -/
def special (negative : Bool) : String := if negative then "-Infinity" else "Infinity"

private def withSign (sign : UnpackedFloat.Sign) (text : String) : String :=
  match sign with
  | .negative => "-" ++ text
  | .positive => text

/-! ### Rounded forms -/

/-- The number with `places` digits after the point, a half going to the even digit. What would
read as a negative zero has no sign. -/
def fixed (places : Nat) (x : Float) : String :=
  match x.toModel.unpack with
  | .notANumber => "NaN"
  | .infinity sign => special (sign == .negative)
  | .zero _ => pointed places 0
  | .finite sign m e _ =>
    let n := ((Quotient.ofDyadic m e).shift places).nearest
    if n = 0 then pointed places 0 else withSign sign (pointed places n)

/-- The number with `n` significant digits and its power of ten; zero has no sign. -/
def scientific (n : Nat) (x : Float) : String :=
  match x.toModel.unpack with
  | .notANumber => "NaN"
  | .infinity sign => special (sign == .negative)
  | .zero _ => powered (digitsOfWidth n 0) 0
  | .finite sign m e _ =>
    let (digits, k) := (Quotient.ofDyadic m e).significant n
    withSign sign (powered (digitsOfWidth n digits) k)

end RoadMatching.Decimal
