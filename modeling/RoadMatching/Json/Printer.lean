import RoadMatching.Json.Basic

/-!
The compact text of a JSON value.

Keys are sorted, as objects keep them. Quotes, backslashes and control characters are escaped, all
other characters stand for themselves; integers are written as they are and fractional numbers by
their fewest digits (`Numeral.compact`).
-/

namespace RoadMatching.Json

variable {K : Type}

/-- The hexadecimal digit of a number below sixteen. -/
def hexDigit (n : Nat) : Char := Nat.digitChar n

/-- A character inside quotes. Control characters have a short escape or four hexadecimal
digits. -/
def escape (c : Char) : List Char :=
  match c with
  | '"' => ['\\', '"']
  | '\\' => ['\\', '\\']
  | '\n' => ['\\', 'n']
  | '\r' => ['\\', 'r']
  | '\t' => ['\\', 't']
  | '\x08' => ['\\', 'b']
  | '\x0c' => ['\\', 'f']
  | c =>
    if c.toNat < 32 then
      ['\\', 'u', '0', '0', hexDigit (c.toNat / 16), hexDigit (c.toNat % 16)]
    else [c]

/-- The text in quotes. -/
def quote (s : String) : String :=
  String.ofList ('"' :: s.toList.flatMap escape ++ ['"'])

mutual

/-- The compact text of a value. -/
def render [Numeral K] : Json K → String
  | .null => "null"
  | .bool true => "true"
  | .bool false => "false"
  | .int n => toString n
  | .float x => Numeral.compact x
  | .str s => quote s
  | .arr items => "[" ++ String.intercalate "," (renderItems items) ++ "]"
  | .obj fields => "\x7b" ++ String.intercalate "," (renderFields fields) ++ "\x7d"

/-- The texts of the items of an array. -/
def renderItems [Numeral K] : List (Json K) → List String
  | [] => []
  | item :: rest => render item :: renderItems rest

/-- The texts of the fields of an object. -/
def renderFields [Numeral K] : List (String × Json K) → List String
  | [] => []
  | (key, value) :: rest => (quote key ++ ":" ++ render value) :: renderFields rest

end

end RoadMatching.Json
