import RoadMatching.Decimal.Reading
import RoadMatching.Text.GeometryText

/-!
Well-known text of geometries.

* `point`, `lineString`, `multiLineString`: the texts of a point, a line and several lines; numbers
  are written with the fewest digits and without a power of ten.
* `point?`: reads a point. Words are read in any case, a third and a fourth coordinate are announced
  by `Z`, `M` or `ZM` and dropped, and what follows the closing parenthesis is not looked at.

They are the texts of binary64 geometries.
-/

namespace RoadMatching

namespace WellKnownText

variable {K : Type}

/-! ### Writing -/

/-- The coordinates of a point. -/
def coordinates [Numeral K] (p : Point K) : String :=
  Numeral.plain p.x ++ " " ++ Numeral.plain p.y

/-- The coordinates of a line in parentheses. -/
def path [Numeral K] (line : Line K) : String :=
  "(" ++ String.intercalate "," (line.map coordinates) ++ ")"

/-- The text of a point. -/
def point [Numeral K] (p : Point K) : String := "POINT(" ++ coordinates p ++ ")"

/-- The text of a line. -/
def lineString [Numeral K] (line : Line K) : String :=
  if line.isEmpty then "LINESTRING EMPTY" else "LINESTRING" ++ path line

/-- The text of several lines. -/
def multiLineString [Numeral K] (lines : List (Line K)) : String :=
  if lines.isEmpty then "MULTILINESTRING EMPTY"
  else "MULTILINESTRING(" ++ String.intercalate "," (lines.map path) ++ ")"

/-! ### Tokens -/

/-- A token of a text. A number that cannot be read is `malformed`. -/
inductive Token (K : Type) where
  | opening
  | closing
  | comma
  | word (text : String)
  | number (x : K)
  | malformed

/-- The white space between tokens. -/
def isBlank (c : Char) : Bool := c == ' ' || c == '\t' || c == '\n' || c == '\r'

/-- Whether a character ends a word or a number. -/
def endsWord (c : Char) : Bool :=
  isBlank c || c == '(' || c == ')' || c == ',' || c == '\x00'

/-- Whether a number starts with the character. -/
def startsNumber (c : Char) : Bool :=
  Decimal.isDigit c || c == '.' || c == '-' || c == '+'

/-- The token of a word or a number; a plus sign in front of a number is dropped. -/
def ofWord [Numeral K] (cs : List Char) : Token K :=
  match cs with
  | [] => .malformed
  | c :: rest =>
    if startsNumber c then
      match Numeral.read? (String.ofList (if c == '+' then rest else cs)) with
      | some x => .number x
      | none => .malformed
    else .word (String.ofList cs)

/-- The tokens of a text. The letters of a word are gathered, in reverse, in `read`. -/
def tokens [Numeral K] (read : List Char) : List Char → List (Token K)
  | [] => flush
  | c :: rest =>
    if c == '\x00' then flush
    else if isBlank c then flush ++ tokens [] rest
    else if c == '(' then flush ++ .opening :: tokens [] rest
    else if c == ')' then flush ++ .closing :: tokens [] rest
    else if c == ',' then flush ++ .comma :: tokens [] rest
    else tokens (c :: read) rest
where
  /-- The token of what has been gathered, if anything. -/
  flush : List (Token K) := if read.isEmpty then [] else [ofWord read.reverse]

/-! ### Reading -/

/-- The number of coordinates that a dimension announces. -/
def dimension? (text : String) : Option Nat :=
  match text with
  | "Z" | "M" => some 3
  | "ZM" => some 4
  | _ => none

/-- The point of `count` numbers in parentheses. -/
def parenthesised? (count : Nat) : List (Token K) → Option (Point K)
  | .opening :: .number x :: .number y :: rest =>
    match count, rest with
    | 2, .closing :: _ => some ⟨x, y⟩
    | 3, .number _ :: .closing :: _ => some ⟨x, y⟩
    | 4, .number _ :: .number _ :: .closing :: _ => some ⟨x, y⟩
    | _, _ => none
  | _ => none

/-- The point of a text. -/
def point? [Numeral K] (text : String) : Option (Point K) :=
  match tokens [] text.toList with
  | .word name :: rest =>
    match name.toUpper with
    | "POINT" =>
      match rest with
      | .word mark :: rest => do parenthesised? (← dimension? mark.toUpper) rest
      | rest => parenthesised? 2 rest
    | "POINTZ" | "POINTM" => parenthesised? 3 rest
    | "POINTZM" => parenthesised? 4 rest
    | _ => none
  | _ => none

end WellKnownText

instance Binary64.instGeometryText : GeometryText Binary64 where
  point := WellKnownText.point
  lineString := WellKnownText.lineString
  multiLineString := WellKnownText.multiLineString
  point? := WellKnownText.point?

end RoadMatching
