import LineBasic.Numeral
/-!
The numbers that programs compute with. Everything else in the library takes them from this interface, so what
holds of the compiler and the machine holds for any arithmetic.
-/
namespace LineBasic

/-- A system of numbers: arithmetic, comparison, reading and writing, and the functions that programs call. -/
class NumberSystem (R : Type) where
  /-- The number of a whole number. -/
  ofInt : Int → R
  neg : R → R
  add : R → R → R
  sub : R → R → R
  mul : R → R → R
  div : R → R → R
  pow : R → R → R
  /-- How two numbers compare, if they do. -/
  compare? : R → R → Option Ordering
  isFinite : R → Bool
  isUndefined : R → Bool
  /-- The nearest whole number, a half going away from zero, if 32 bits with a sign hold it. -/
  toWord? : R → Option (BitVec 32)
  /-- The whole number that this number is, if it is one of at most fifteen digits. -/
  toShortInt? : R → Option Int
  /-- The code point that this number leads to when its fraction is dropped, if it is between 0 and the
  largest number of 32 bits. -/
  toCodePoint? : R → Option Nat
  abs : R → R
  floor : R → R
  sqrt : R → R
  sin : R → R
  cos : R → R
  /-- The number `n / 2 ^ 53`. -/
  ofFraction : Nat → R
  /-- The number that a numeral stands for, or the nearest to it. -/
  ofNumeral : Numeral → R
  /-- The numeral that a number is written as. -/
  toNumeral : R → Numeral

namespace NumberSystem

variable {R : Type} [NumberSystem R]

/-- Zero. -/
def zero : R := ofInt 0

/-- One. -/
def one : R := ofInt 1

/-- Equal to zero. -/
def isZero (x : R) : Bool :=
  compare? x zero == some .eq

/-- Less than zero. -/
def isNegative (x : R) : Bool :=
  compare? x zero == some .lt

/-- Zero or more. -/
def atLeastZero (x : R) : Bool :=
  match compare? x zero with
  | some .lt | none => false
  | _ => true

/-- `x` is at most `y`. -/
def atMost (x y : R) : Bool :=
  match compare? x y with
  | some .gt | none => false
  | _ => true

/-- The text of a number. -/
def write (x : R) : String :=
  (toNumeral x).text

/-- The number that a text spells. -/
def read? (s : String) : Option R :=
  (Numeral.read? s).map ofNumeral

end NumberSystem

end LineBasic
