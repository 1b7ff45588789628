import RoadMatching.Json.Basic

/-!
Reading a JSON text.

A number with a point or a power of ten is fractional, and so is an integer beyond 64 bits and a
negative zero; every other number is an integer. Of two fields of one key the last one counts.
`parse?` reads a whole text; the readers below it return the value read with the rest of the text,
and their fuel is the length of the text.
-/

namespace RoadMatching.Json

variable {K : Type}

/-- The rest of the text after white space. -/
def skipBlank : List Char → List Char :=
  List.dropWhile fun c => c == ' ' || c == '\n' || c == '\t' || c == '\r'

/-! ### Strings -/

/-- The value of a hexadecimal digit. -/
def hexValue? (c : Char) : Option Nat :=
  if '0' ≤ c && c ≤ '9' then some (c.toNat - '0'.toNat)
  else if 'a' ≤ c && c ≤ 'f' then some (c.toNat - 'a'.toNat + 10)
  else if 'A' ≤ c && c ≤ 'F' then some (c.toNat - 'A'.toNat + 10)
  else none

/-- The value of four hexadecimal digits. -/
def hexUnit? (a b c d : Char) : Option Nat := do
  return ((← hexValue? a) * 16 + (← hexValue? b)) * 256 + ((← hexValue? c) * 16 + (← hexValue? d))

/-- The character of a short escape. -/
def shortEscape? : Char → Option Char
  | '"' => some '"'
  | '\\' => some '\\'
  | '/' => some '/'
  | 'b' => some '\x08'
  | 'f' => some '\x0c'
  | 'n' => some '\n'
  | 'r' => some '\r'
  | 't' => some '\t'
  | _ => none

/-- The characters up to the closing quote, in reverse before `read`, and the rest behind it. Two
escaped units of a surrogate pair are one character. -/
def stringTail (read : List Char) : Nat → List Char → Option (String × List Char)
  | 0, _ => none
  | _ + 1, '"' :: rest => some (String.ofList read.reverse, rest)
  | fuel + 1, '\\' :: 'u' :: a :: b :: c :: d :: rest => do
    let unit ← hexUnit? a b c d
    if 0xD800 ≤ unit ∧ unit < 0xDC00 then
      match rest with
      | '\\' :: 'u' :: a :: b :: c :: d :: rest => do
        let low ← hexUnit? a b c d
        if 0xDC00 ≤ low ∧ low < 0xE000 then
          let code := 0x10000 + (unit - 0xD800) * 0x400 + (low - 0xDC00)
          stringTail (Char.ofNat code :: read) fuel rest
        else none
      | _ => none
    else if 0xDC00 ≤ unit ∧ unit < 0xE000 then none
    else stringTail (Char.ofNat unit :: read) fuel rest
  | fuel + 1, '\\' :: c :: rest => do
    stringTail ((← shortEscape? c) :: read) fuel rest
  | fuel + 1, c :: rest => stringTail (c :: read) fuel rest
  | _, [] => none

/-! ### Numbers -/

/-- Whether a character may be part of a number. -/
def isNumeric (c : Char) : Bool :=
  Decimal.isDigit c || c == '-' || c == '+' || c == '.' || c == 'e' || c == 'E'

/-- The value of the text of a number. -/
def ofToken? [Numeral K] (text : String) : Option (Json K) :=
  match Decimal.integer? text with
  | some n =>
    if text.startsWith "-" && n == 0 then some (.float (Numeral.ofDecimal true 0 0))
    else if minInt64 ≤ n ∧ n ≤ maxNat64 then some (.int n)
    else (Numeral.read? text).map .float
  | none => (Numeral.read? text).map .float

/-! ### Values -/

mutual

/-- A value and the rest of the text. -/
def value? [Numeral K] : Nat → List Char → Option (Json K × List Char)
  | 0, _ => none
  | fuel + 1, text =>
    match skipBlank text with
    | 'n' :: 'u' :: 'l' :: 'l' :: rest => some (.null, rest)
    | 't' :: 'r' :: 'u' :: 'e' :: rest => some (.bool true, rest)
    | 'f' :: 'a' :: 'l' :: 's' :: 'e' :: rest => some (.bool false, rest)
    | '"' :: rest => (stringTail [] fuel rest).map fun (s, rest) => (.str s, rest)
    | '[' :: rest =>
      match skipBlank rest with
      | ']' :: rest => some (.arr [], rest)
      | rest => (itemsTail [] fuel rest).map fun (items, rest) => (.arr items, rest)
    | '\x7b' :: rest =>
      match skipBlank rest with
      | '\x7d' :: rest => some (.obj [], rest)
      | rest => (fieldsTail [] fuel rest).map fun (fields, rest) => (object fields, rest)
    | c :: rest =>
      if isNumeric c then
        let text := String.ofList (c :: rest.takeWhile isNumeric)
        (ofToken? text).map fun n => (n, rest.dropWhile isNumeric)
      else none
    | [] => none

/-- The items up to the closing bracket, in reverse before `read`. -/
def itemsTail [Numeral K] (read : List (Json K)) :
    Nat → List Char → Option (List (Json K) × List Char)
  | 0, _ => none
  | fuel + 1, text => do
    let (item, rest) ← value? fuel text
    match skipBlank rest with
    | ',' :: rest => itemsTail (item :: read) fuel rest
    | ']' :: rest => some ((item :: read).reverse, rest)
    | _ => none

/-- The fields up to the closing brace, in reverse before `read`. -/
def fieldsTail [Numeral K] (read : List (String × Json K)) :
    Nat → List Char → Option (List (String × Json K) × List Char)
  | 0, _ => none
  | fuel + 1, text =>
    match skipBlank text with
    | '"' :: rest => do
      let (key, rest) ← stringTail [] fuel rest
      match skipBlank rest with
      | ':' :: rest => do
        let (value, rest) ← value? fuel rest
        match skipBlank rest with
        | ',' :: rest => fieldsTail ((key, value) :: read) fuel rest
        | '\x7d' :: rest => some (((key, value) :: read).reverse, rest)
        | _ => none
      | _ => none
    | _ => none

end

/-- The value of a whole text. -/
def parse? [Numeral K] (text : String) : Option (Json K) :=
  let cs := text.toList
  match value? (cs.length + 1) cs with
  | some (json, rest) => if (skipBlank rest).isEmpty then some json else none
  | none => none

end RoadMatching.Json
