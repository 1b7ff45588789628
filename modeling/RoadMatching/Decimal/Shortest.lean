import RoadMatching.Decimal.Basic

/-!
The fewest digits that read back as the same number, and the two texts made of them.

A number `m * 2 ^ e` is the nearest one to every value of an interval around it, whose ends belong
to it exactly when `m` is even. For one digit, two digits, and so on, the two neighbours of the
number on that decimal grid are tested against the interval: the first grid with a hit wins, and of
two hits the nearer one.

* `shortest`: those digits, with the exponent of the first; `Tie` says which of two equally near
  neighbours is taken.
* `plain`: the digits with a point where it belongs, and never a power of ten.
* `compact`: the same within sixteen places above and five below the point, with at least one digit
  after the point, and a signed power of ten beyond.
-/

namespace RoadMatching.Decimal

open Float.Model (UnpackedFloat)

/-- Which of two equally near neighbours is taken. -/
inductive Tie where
  | even
  | up
  deriving DecidableEq, Repr

namespace Quotient

/-- Whether one value lies below another. -/
def isBelow (a b : Quotient) : Bool := a.num * b.den < b.num * a.den

end Quotient

/-- The values for which a number is the nearest one. -/
structure Interval where
  low : Quotient
  high : Quotient
  closed : Bool

namespace Interval

/-- The values that round to `m * 2 ^ e`. The gap below a power of two is half as wide, unless the
exponent is the least one. -/
def ofDyadic (m : Nat) (e : Int) : Interval where
  low :=
    if m = Nat.pow 2 52 ∧ -1074 < e then .ofDyadic (4 * m - 1) (e - 2)
    else .ofDyadic (2 * m - 1) (e - 1)
  high := .ofDyadic (2 * m + 1) (e - 1)
  closed := m % 2 = 0

/-- Whether the value lies in the interval. -/
def contains (i : Interval) (q : Quotient) : Bool :=
  if i.closed then !q.isBelow i.low && !i.high.isBelow q
  else i.low.isBelow q && q.isBelow i.high

end Interval

/-- The neighbour of `value` with `n` digits that lies in the interval, if any: the nearer one if
both do. The leading digit of `value` has exponent `k`. -/
def onGrid (tie : Tie) (i : Interval) (value : Quotient) (k : Int) (n : Nat) : Option Nat :=
  let scale : Int := n - 1 - k
  let scaled := value.shift scale
  let below := scaled.num / scaled.den
  let rest := scaled.num % scaled.den
  let inside (c : Nat) : Bool := i.contains (Quotient.shift ⟨c, 1⟩ (-scale))
  let nearer : Nat :=
    match compare (2 * rest) scaled.den with
    | .lt => below
    | .gt => below + 1
    | .eq => if tie = .even then below + below % 2 else below + 1
  if rest = 0 then some below
  else
    match inside below, inside (below + 1) with
    | true, true => some nearer
    | true, false => some below
    | false, true => some (below + 1)
    | false, false => none

/-- The fewest digits of a positive number `m * 2 ^ e`, with the exponent of the first digit.
Seventeen digits always suffice. -/
def shortest (tie : Tie) (m : Nat) (e : Int) : Nat × Int :=
  let value := Quotient.ofDyadic m e
  let k := value.decade
  let i := Interval.ofDyadic m e
  match (List.range 17).findSome? fun n => (onGrid tie i value k (n + 1)).map (·, n + 1) with
  | some (digits, n) => if digits = Nat.pow 10 n then (1, k + 1) else (digits, k)
  | none => value.significant 17

/-! ### Texts -/

/-- The digits with the point after the digit of exponent zero. A number without a fraction ends
in `whole`. -/
def positional (digits : List Char) (k : Int) (whole : String) : String :=
  if k < 0 then
    String.ofList ('0' :: '.' :: List.replicate (-k - 1).toNat '0' ++ digits)
  else if digits.length ≤ k.toNat + 1 then
    String.ofList (digits ++ List.replicate (k.toNat + 1 - digits.length) '0') ++ whole
  else
    String.ofList (digits.take (k.toNat + 1) ++ '.' :: digits.drop (k.toNat + 1))

/-- The shortest text without a power of ten: `1`, `-0`, `0.0000001`. -/
def plain (x : Float) : String :=
  match x.toModel.unpack with
  | .notANumber => "NaN"
  | .infinity .negative => "-inf"
  | .infinity .positive => "inf"
  | .zero .negative => "-0"
  | .zero .positive => "0"
  | .finite sign m e _ =>
    let (digits, k) := shortest .up m e
    (if sign == .negative then "-" else "") ++ positional (Nat.toDigits 10 digits) k ""

/-- The shortest text with a point or a power of ten: `1.0`, `-0.0`, `1e-7`, `1.5e+16`. -/
def compact (x : Float) : String :=
  match x.toModel.unpack with
  | .notANumber | .infinity _ => "null"
  | .zero .negative => "-0.0"
  | .zero .positive => "0.0"
  | .finite sign m e _ =>
    let (n, k) := shortest .even m e
    let digits := Nat.toDigits 10 n
    let text :=
      if -5 ≤ k ∧ k < 16 then positional digits k ".0"
      else
        let mantissa := match digits with
          | d :: second :: rest => String.ofList (d :: '.' :: second :: rest)
          | single => String.ofList single
        mantissa ++ (if k < 0 then "e-" else "e+") ++ toString k.natAbs
    (if sign == .negative then "-" else "") ++ text

end RoadMatching.Decimal
