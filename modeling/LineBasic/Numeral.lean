import LineBasic.Text.Digits
/-!
Numbers as they are written. A numeral is a decimal fraction, an infinity or "not a number"; it can be read
from any of its spellings and has one positional spelling of its own.
-/
namespace LineBasic

/-- A written number. -/
inductive Numeral where
  /-- No number at all. -/
  | undefined
  | infinity (negative : Bool)
  /-- `digits * 10 ^ exponent`, with its sign. -/
  | decimal (negative : Bool) (digits : Nat) (exponent : Int)
deriving DecidableEq, Repr, Inhabited

namespace Numeral

open Text

/-- Digits with a point before the last `places` of them, and at least one digit before the point. -/
def pointed (digits : List Char) (places : Nat) : List Char :=
  let padded := List.replicate (places + 1 - digits.length) '0' ++ digits
  padded.take (padded.length - places) ++ '.' :: padded.drop (padded.length - places)

/-- The positional spelling of `digits * 10 ^ exponent`, which never shows an exponent. -/
def positional (digits : Nat) : Int → List Char
  | .ofNat zeros =>
    if digits = 0 then ['0'] else Nat.toDigits 10 digits ++ List.replicate zeros '0'
  | .negSucc places => pointed (Nat.toDigits 10 digits) (places + 1)

/-- A minus sign in front of a negative number. -/
def signed (negative : Bool) (cs : List Char) : List Char :=
  if negative then '-' :: cs else cs

/-- The characters that a numeral is written with. -/
def spelling : Numeral → List Char
  | undefined => "NaN".toList
  | infinity negative => signed negative "inf".toList
  | decimal negative digits exponent => signed negative (positional digits exponent)

/-- The text that a numeral is written as. -/
def text (n : Numeral) : String :=
  String.ofList n.spelling

/-- The exponent part of a spelling: nothing, or an E, an optional sign and at least one digit. -/
def readExponent? : List Char → Option Int
  | [] => some 0
  | e :: cs =>
    if e = 'e' || e = 'E' then
      let digits (cs : List Char) : Option Nat :=
        if cs.isEmpty || !cs.all isDigit then none else some (value cs)
      match cs with
      | '-' :: cs => (digits cs).map fun n => -(n : Int)
      | '+' :: cs => (digits cs).map Int.ofNat
      | cs => (digits cs).map Int.ofNat
    else none

/-- A decimal fraction without its sign: digits with at most one point among or around them, at least
one digit in all, and an optional exponent. -/
def readDecimal? (negative : Bool) (cs : List Char) : Option Numeral :=
  let whole := cs.takeWhile isDigit
  let rest := cs.dropWhile isDigit
  let (fraction, rest) :=
    match rest with
    | '.' :: rest => (rest.takeWhile isDigit, rest.dropWhile isDigit)
    | rest => ([], rest)
  if whole.isEmpty && fraction.isEmpty then none
  else
    (readExponent? rest).map fun exponent =>
      decimal negative (value (whole ++ fraction)) (exponent - fraction.length)

/-- A number without its sign: a decimal fraction, or one of the words for an infinity and for no
number, in any letter case. -/
def readUnsigned? (negative : Bool) (cs : List Char) : Option Numeral :=
  match readDecimal? negative cs with
  | some n => some n
  | none =>
    let word := lower (String.ofList cs)
    if word = "inf" || word = "infinity" then some (infinity negative)
    else if word = "nan" then some undefined
    else none

/-- The numeral that a text spells: an optional sign and a number. -/
def read? (s : String) : Option Numeral :=
  match s.toList with
  | '-' :: cs => readUnsigned? true cs
  | '+' :: cs => readUnsigned? false cs
  | cs => readUnsigned? false cs

example : (decimal false 15 (-1)).text = "1.5" := by decide
example : (decimal true 5 (-3)).text = "-0.005" := by decide
example : (decimal false 12 2).text = "1200" := by decide
example : (decimal true 0 0).text = "-0" := by decide
example : read? "-1.50e+2" = some (decimal true 150 0) := by decide
example : read? ".5" = some (decimal false 5 (-1)) := by decide
example : read? "5." = some (decimal false 5 0) := by decide
example : read? "." = none := by decide
example : read? "1e" = none := by decide
example : read? "-Infinity" = some (infinity true) := by decide

end Numeral

end LineBasic
