import LineBasic.Text.Blank
import LineBasic.Text.Digits
/-!
Points in time, and how they are written: with date, time and, except in directory listings, the fraction of the second.
-/
namespace LineBasic

open Text

/-- A point in time. -/
structure Timestamp where
  /-- The seconds since 1970 began. -/
  seconds : Int
  /-- The nanoseconds in the second. In a leap second they go on from a thousand millions. -/
  nanos : Nat := 0
deriving DecidableEq, Repr, Inhabited

/-- A day of the calendar. -/
structure Day where
  year : Int
  month : Nat
  day : Nat
deriving DecidableEq, Repr

namespace Day

/-- The days of 400 years. -/
def daysOfEra : Int := 146097

/-- The days from the first of March of year 0 to the first day of 1970. -/
def epoch : Int := 719468

/-- A leap year. -/
def isLeap (year : Int) : Bool :=
  year % 4 == 0 && (year % 100 != 0 || year % 400 == 0)

/-- The number of days in a month. -/
def daysInMonth (year : Int) (month : Nat) : Nat :=
  match month with
  | 2 => if isLeap year then 29 else 28
  | 4 | 6 | 9 | 11 => 30
  | _ => 31

/-- The day exists. -/
def isValid (d : Day) : Bool :=
  1 ≤ d.month && d.month ≤ 12 && 1 ≤ d.day && d.day ≤ daysInMonth d.year d.month

/-- The number of a day, counted from the first day of 1970. Years are taken to begin in March, so that the leap day is
their last. -/
def toNumber (d : Day) : Int :=
  let year := if d.month ≤ 2 then d.year - 1 else d.year
  let month : Int := if d.month ≤ 2 then d.month + 9 else d.month - 3
  let yearOfEra := year % 400
  let dayOfYear := (153 * month + 2) / 5 + d.day - 1
  year / 400 * daysOfEra + yearOfEra * 365 + yearOfEra / 4 - yearOfEra / 100 + dayOfYear - epoch

/-- The day of the given number. -/
def ofNumber (n : Int) : Day :=
  let n := n + epoch
  let dayOfEra := n % daysOfEra
  let yearOfEra :=
    (dayOfEra - dayOfEra / 1460 + dayOfEra / 36524 - dayOfEra / 146096) / 365
  let dayOfYear := dayOfEra - (365 * yearOfEra + yearOfEra / 4 - yearOfEra / 100)
  let month := (5 * dayOfYear + 2) / 153
  let year := n / daysOfEra * 400 + yearOfEra
  { year := if month < 10 then year else year + 1
    month := (if month < 10 then month + 3 else month - 9).toNat
    day := (dayOfYear - (153 * month + 2) / 5 + 1).toNat }

end Day

namespace Timestamp

/-- The seconds of a day. -/
def secondsOfDay : Int := 86400

/-- The time of day `hour`, `minute`, `second` on a day, in a zone that is `offset` seconds ahead. -/
def ofCivil (d : Day) (hour minute second : Nat) (nanos : Nat := 0) (offset : Int := 0) : Timestamp :=
  { seconds := d.toNumber * secondsOfDay + hour * 3600 + minute * 60 + second - offset, nanos }

/-- The day that a time lies in. -/
def day (t : Timestamp) : Day :=
  Day.ofNumber (t.seconds / secondsOfDay)

/-- The second of the day that a time lies in. -/
def secondOfDay (t : Timestamp) : Nat :=
  (t.seconds % secondsOfDay).toNat

/-- A number with at least `width` digits. -/
def padded (width n : Nat) : String :=
  let digits := toString n
  String.ofList (List.replicate (width - digits.length) '0') ++ digits

/-- A year, with four digits at least, and with a sign if these do not suffice. -/
def yearText (year : Int) : String :=
  if year < 0 then "-" ++ padded 4 year.natAbs
  else if year ≤ 9999 then padded 4 year.natAbs
  else "+" ++ padded 4 year.natAbs

/-- A day as it is written. -/
def dayText (d : Day) : String :=
  yearText d.year ++ "-" ++ padded 2 d.month ++ "-" ++ padded 2 d.day

/-- Hour and minute as they are written. -/
def clockText (t : Timestamp) : String :=
  padded 2 (t.secondOfDay / 3600) ++ ":" ++ padded 2 (t.secondOfDay / 60 % 60)

/-- A time as directory listings show it. -/
def shortText (t : Timestamp) : String :=
  dayText t.day ++ " " ++ t.clockText

/-- The fraction of a second, with as many digits as it needs in groups of three. -/
def fractionText (nanos : Nat) : String :=
  if nanos = 0 then ""
  else if nanos % 1000000 = 0 then "." ++ padded 3 (nanos / 1000000)
  else if nanos % 1000 = 0 then "." ++ padded 6 (nanos / 1000)
  else "." ++ padded 9 nanos

/-- The nanoseconds of a second that is no leap second. -/
def nanosOfSecond : Nat := 1000000000

/-- The full written form of a time. A leap second is the sixtieth. -/
def text (t : Timestamp) : String :=
  dayText t.day ++ "T" ++ t.clockText ++ ":" ++
    padded 2 (t.secondOfDay % 60 + t.nanos / nanosOfSecond) ++
    fractionText (t.nanos % nanosOfSecond) ++ "Z"

/-- The years that a written time may be in. -/
def isYear (year : Int) : Bool :=
  -262143 ≤ year && year ≤ 262142

/-- The digits in front of a text, `most` of them at most, and the rest. There has to be one. -/
def takeDigits (most : Nat) (cs : List Char) : Option (List Char × List Char) :=
  let digits := (cs.take most).takeWhile isDigit
  if digits.isEmpty then none else some (digits, cs.drop digits.length)

/-- The number in front of a text, blanks skipped, and the rest. -/
def takeNumber (most : Nat) (cs : List Char) : Option (Nat × List Char) :=
  (takeDigits most (trimLeft cs)).map fun (digits, rest) => (value digits, rest)

/-- The year in front of a text, and the rest. With a sign it may have any number of digits. -/
def takeYear (cs : List Char) : Option (Int × List Char) :=
  match trimLeft cs with
  | '-' :: cs => (takeDigits cs.length cs).map fun (digits, rest) => (-(value digits : Int), rest)
  | '+' :: cs => (takeDigits cs.length cs).map fun (digits, rest) => ((value digits : Int), rest)
  | cs => (takeDigits 4 cs).map fun (digits, rest) => ((value digits : Int), rest)

/-- A text behind the character `c` in front of it, blanks skipped. -/
def skip (c : Char) (cs : List Char) : Option (List Char) :=
  match trimLeft cs with
  | d :: cs => if c = d then some cs else none
  | [] => none

/-- The nanoseconds that a fraction of a second in front of a text writes, and the rest. Digits behind the ninth do not
count. -/
def takeNanos : List Char → Option (Nat × List Char)
  | '.' :: cs =>
    (takeDigits 9 cs).map fun (digits, rest) =>
      (value digits * Nat.pow 10 (9 - digits.length), rest.dropWhile isDigit)
  | cs => some (0, cs)

/-- A character that may stand between the hours and the minutes of an offset. -/
def isOffsetSeparator (c : Char) : Bool :=
  c == ':' || isSpace c

/-- The seconds of an offset in front of a text, whose sign has been read, and the rest. -/
def takeOffsetSize : List Char → Option (Nat × List Char)
  | a :: b :: cs =>
    if isDigit a && isDigit b then
      match cs.dropWhile isOffsetSeparator with
      | c :: d :: cs =>
        if isDigit c && isDigit d && value [c, d] < 60 then
          some (value [a, b] * 3600 + value [c, d] * 60, cs)
        else none
      | _ => none
    else none
  | _ => none

/-- The offset in front of a text, in seconds, and the rest. -/
def takeOffset (cs : List Char) : Option (Int × List Char) :=
  match cs with
  | 'Z' :: cs | 'z' :: cs => some (0, cs)
  | '+' :: cs => (takeOffsetSize cs).map fun (n, rest) => ((n : Int), rest)
  | '-' :: cs | '−' :: cs => (takeOffsetSize cs).map fun (n, rest) => (-(n : Int), rest)
  | cs => if upper (String.ofList (cs.take 3)) = "UTC" then some (0, cs.drop 3) else none

/-- The day in front of a text, and the rest. -/
def takeDay (cs : List Char) : Option (Day × List Char) := do
  let (year, cs) ← takeYear cs
  let cs ← skip '-' cs
  let (month, cs) ← takeNumber 2 cs
  let cs ← skip '-' cs
  let (day, cs) ← takeNumber 2 cs
  return ({ year, month, day }, cs)

/-- A text behind the sign between day and time. -/
def skipDaySeparator : List Char → Option (List Char)
  | 'T' :: cs | 't' :: cs | ' ' :: cs => some cs
  | _ => none

/-- The time that a text writes. The text is taken liberally: blanks may stand in front of every part, and the offset
need not be zero. -/
def read? (s : String) : Option Timestamp := do
  let (day, cs) ← takeDay s.toList
  let cs ← skipDaySeparator cs
  let (hour, cs) ← takeNumber 2 cs
  let cs ← skip ':' cs
  let (minute, cs) ← takeNumber 2 cs
  let cs ← skip ':' cs
  let (second, cs) ← takeNumber 2 cs
  let (nanos, cs) ← takeNanos cs
  let (offset, cs) ← takeOffset (trimLeft cs)
  let isLeapSecond := second == 60
  let t := ofCivil day hour minute (min second 59)
    (if isLeapSecond then nanos + nanosOfSecond else nanos) offset
  if day.isValid && hour < 24 && minute < 60 && second ≤ 60 && offset.natAbs < 86400 &&
      isYear day.year && isYear t.day.year && (trimLeft cs).isEmpty then
    some t
  else none

end Timestamp

end LineBasic
