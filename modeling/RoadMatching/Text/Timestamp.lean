import RoadMatching.Decimal.Reading

/-!
Times of day with an offset, such as `2014-09-10 06:54:07+0200`, as milliseconds since 1970.

* `isBlank`: the characters with the Unicode property of white space.
* `daysBefore`: the days from 1970 to the first day of a year of the proleptic Gregorian calendar;
  `daysBefore_succ` says how long a year is.
* `Timestamp.read?`: a year of up to four digits, or of any number after a sign; month, day, hour,
  minute and second of one or two; blanks before each of them. The offset is `Z`, or a sign with two
  digits of hours and none or two of minutes.
-/

namespace RoadMatching

namespace Timestamp

/-! ### Characters -/

/-- White space. -/
def isBlank (c : Char) : Bool :=
  let n := c.toNat
  (9 ≤ n && n ≤ 13) || n == 0x20 || n == 0x85 || n == 0xA0 || n == 0x1680 ||
    (0x2000 ≤ n && n ≤ 0x200A) || n == 0x2028 || n == 0x2029 || n == 0x202F || n == 0x205F ||
    n == 0x3000

theorem isBlank_of_isWhitespace {c : Char} (h : c.isWhitespace = true) : isBlank c = true := by
  have hcases : c = ' ' ∨ c = '\t' ∨ c = '\r' ∨ c = '\n' := by
    simpa [Char.isWhitespace, or_assoc] using h
  rcases hcases with rfl | rfl | rfl | rfl <;> decide

/-- The text without the blanks in front. -/
def skipBlank : List Char → List Char := List.dropWhile isBlank

/-! ### The calendar -/

/-- Whether a year has a leap day. -/
def isLeap (year : Int) : Bool := year % 4 == 0 && (year % 100 != 0 || year % 400 == 0)

/-- The days of a month. -/
def monthLength (year : Int) (month : Nat) : Nat :=
  match month with
  | 2 => if isLeap year then 29 else 28
  | 4 | 6 | 9 | 11 => 30
  | _ => 31

/-- The days from the first day of 1970 to the first day of the year. -/
def daysBefore (year : Int) : Int :=
  let y := year - 1
  365 * y + y / 4 - y / 100 + y / 400 - 719162

/-- A year has 365 days, and one more if it is a leap year. -/
theorem daysBefore_succ (year : Int) :
    daysBefore (year + 1) = daysBefore year + 365 + if isLeap year then 1 else 0 := by
  by_cases h4 : year % 4 = 0 <;> by_cases h100 : year % 100 = 0 <;>
    by_cases h400 : year % 400 = 0 <;>
    simp [isLeap, daysBefore, h4, h100, h400] <;> omega

/-- The days of the year before the month. -/
def daysBeforeMonth (year : Int) (month : Nat) : Nat :=
  (List.range (month - 1)).foldl (fun days m => days + monthLength year (m + 1)) 0

/-! ### Fields -/

/-- A field of at most `width` digits after blanks, and the rest of the text. -/
def field? (width : Nat) (text : List Char) : Option (Nat × List Char) :=
  let cs := skipBlank text
  let digits := (cs.takeWhile Decimal.isDigit).take width
  if digits.isEmpty then none else some (Decimal.value digits, cs.drop digits.length)

/-- The year: signed with any number of digits, or up to four digits. -/
def year? (text : List Char) : Option (Int × List Char) :=
  match skipBlank text with
  | '-' :: cs => (signed? cs).map fun (n, rest) => (-(n : Int), rest)
  | '+' :: cs => (signed? cs).map fun (n, rest) => ((n : Int), rest)
  | cs => (field? 4 cs).map fun (n, rest) => ((n : Int), rest)
where
  /-- The digits after a sign. -/
  signed? (cs : List Char) : Option (Nat × List Char) :=
    let digits := cs.takeWhile Decimal.isDigit
    if digits.isEmpty then none else some (Decimal.value digits, cs.drop digits.length)

/-- The text after the character `c`. -/
def after? (c : Char) : List Char → Option (List Char)
  | d :: rest => if d = c then some rest else none
  | [] => none

/-- Two digits and the rest of the text. -/
def twoDigits? : List Char → Option (Nat × List Char)
  | a :: b :: rest =>
    if Decimal.isDigit a && Decimal.isDigit b then some (Decimal.value [a, b], rest) else none
  | _ => none

/-- The minutes after the sign of an offset: two digits of hours, then two of minutes or nothing.
A colon and blanks may stand between them. -/
def offsetMinutes? (text : List Char) : Option Nat := do
  let (hours, rest) ← twoDigits? text
  match rest.dropWhile fun c => c == ':' || isBlank c with
  | [] => some (60 * hours)
  | cs =>
    let (minutes, rest) ← twoDigits? cs
    if minutes < 60 ∧ rest.isEmpty then some (60 * hours + minutes) else none

/-- The offset in minutes at the end of the text. Its size is less than a day. -/
def offset? (text : List Char) : Option Int := do
  match skipBlank text with
  | ['Z'] | ['z'] => some 0
  | sign :: cs =>
    let minutes ← offsetMinutes? cs
    if 24 * 60 ≤ minutes then none
    else if sign = '+' then some minutes
    else if sign = '-' ∨ sign = '\u2212' then some (-minutes)
    else none
  | [] => none

/-! ### Times -/

/-- The first year of the calendar. -/
def firstYear : Int := -262143

/-- The last year of the calendar. -/
def lastYear : Int := 262142

/-- The minutes from 1970 to a minute of the day that starts after `days` days. -/
def minutesAt (days : Int) (hour minute : Nat) : Int := 60 * (24 * days + hour) + minute

/-- Whether a minute counted from 1970 is one of the calendar. -/
def isCovered (minutes : Int) : Bool :=
  minutesAt (daysBefore firstYear) 0 0 ≤ minutes &&
    minutes < minutesAt (daysBefore (lastYear + 1)) 0 0

/-- The milliseconds since 1970 that the text says. A second may be 60 and then counts as the first
of the next minute. The calendar covers both the local date and the minute without the offset. -/
def read? (text : String) : Option Int := do
  let (year, rest) ← year? text.toList
  let (month, rest) ← field? 2 (← after? '-' rest)
  let (day, rest) ← field? 2 (← after? '-' rest)
  let (hour, rest) ← field? 2 rest
  let (minute, rest) ← field? 2 (← after? ':' rest)
  let (second, rest) ← field? 2 (← after? ':' rest)
  let offset ← offset? rest
  if firstYear ≤ year ∧ year ≤ lastYear ∧ 1 ≤ month ∧ month ≤ 12 ∧ 1 ≤ day ∧
      day ≤ monthLength year month ∧ hour ≤ 23 ∧ minute ≤ 59 ∧ second ≤ 60 then
    let days := daysBefore year + daysBeforeMonth year month + day - 1
    let minutes := minutesAt days hour minute - offset
    if isCovered minutes then some (1000 * (60 * minutes + second)) else none
  else none

end Timestamp

end RoadMatching
