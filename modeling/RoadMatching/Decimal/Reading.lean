import RoadMatching.Decimal.Shortest
import RoadMatching.Number.Binary64

/-!
Reading numbers from text.

* `Literal`: what the text of a number says, before it is rounded to a number type; `Literal.read?`
  reads it. A sign is optional, a point may stand before or after the digits, and a power of ten has
  at least one digit; `inf`, `infinity` and `nan` are read in any case.
* `integer?`, `natural?`: digits alone, after an optional sign.
* `Numeral`: number types that are written as text and made from decimal digits.
-/

namespace RoadMatching.Decimal

/-! ### Digits -/

/-- Whether `c` is one of the ten ASCII digits. -/
def isDigit (c : Char) : Bool := '0' ≤ c && c ≤ '9'

/-- The value of a list of digits. -/
def value (digits : List Char) : Nat :=
  digits.foldl (fun n c => 10 * n + (c.toNat - '0'.toNat)) 0

/-- The integer of a text made of digits alone, at least one. -/
def digits? (cs : List Char) : Option Nat :=
  if cs.isEmpty || !cs.all isDigit then none else some (value cs)

/-- The natural number of a text of digits after an optional plus sign. -/
def natural? (text : String) : Option Nat :=
  match text.toList with
  | '+' :: cs => digits? cs
  | cs => digits? cs

/-- The integer of a text of digits after an optional sign. -/
def integer? (text : String) : Option Int :=
  match text.toList with
  | '-' :: cs => (digits? cs).map fun n => -(n : Int)
  | '+' :: cs => (digits? cs).map fun n => (n : Int)
  | cs => (digits? cs).map fun n => (n : Int)

/-! ### Numbers -/

/-- What the text of a number says: one of the special values, or `digits * 10 ^ exponent`. -/
inductive Literal where
  | undefined
  | infinite (negative : Bool)
  | finite (negative : Bool) (digits : Nat) (exponent : Int)
  deriving DecidableEq, Repr

namespace Literal

/-- The power of ten after the digits, zero if there is none. -/
def exponent? : List Char → Option Int
  | [] => some 0
  | mark :: rest =>
    if mark == 'e' || mark == 'E' then
      match rest with
      | '-' :: cs => (digits? cs).map fun n => -(n : Int)
      | '+' :: cs => (digits? cs).map fun n => (n : Int)
      | cs => (digits? cs).map fun n => (n : Int)
    else none

/-- The number after its sign. -/
def unsigned? (negative : Bool) (cs : List Char) : Option Literal :=
  let word := (String.ofList cs).toLower
  if word = "inf" || word = "infinity" then some (.infinite negative)
  else if word = "nan" then some .undefined
  else
    let whole := cs.takeWhile isDigit
    let afterWhole := cs.dropWhile isDigit
    let (fraction, rest) := match afterWhole with
      | '.' :: more => (more.takeWhile isDigit, more.dropWhile isDigit)
      | _ => ([], afterWhole)
    if whole.isEmpty && fraction.isEmpty then none
    else (exponent? rest).map fun e =>
      .finite negative (value (whole ++ fraction)) (e - fraction.length)

/-- The number that a text says, if it is the text of a number. -/
def read? (text : String) : Option Literal :=
  match text.toList with
  | '-' :: cs => unsigned? true cs
  | '+' :: cs => unsigned? false cs
  | cs => unsigned? false cs

end Literal

end RoadMatching.Decimal

namespace RoadMatching

/-- Number types with a text. -/
class Numeral (K : Type) extends Extended K where
  /-- The number closest to `digits * 10 ^ exponent`, with the given sign. -/
  ofDecimal : Bool → Nat → Int → K
  /-- The text with the fewest digits and without a power of ten. -/
  plain : K → String
  /-- The text with the fewest digits, as a number of a JSON text. -/
  compact : K → String

namespace Numeral

variable {K : Type} [Numeral K]

/-- The number that a literal says. -/
def ofLiteral : Decimal.Literal → K
  | .undefined => Extended.undefined
  | .infinite negative => Extended.infinite negative
  | .finite negative digits exponent => ofDecimal negative digits exponent

/-- The number of a text. -/
def read? (text : String) : Option K := (Decimal.Literal.read? text).map ofLiteral

end Numeral

instance Binary64.instNumeral : Numeral Binary64 where
  ofDecimal negative digits exponent :=
    let x := Float.ofScientific digits (exponent < 0) exponent.natAbs
    ofFloat (if negative then -x else x)
  plain x := Decimal.plain x.value
  compact x := Decimal.compact x.value

end RoadMatching
