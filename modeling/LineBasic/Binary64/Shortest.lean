import LineBasic.Binary64.Nearest
/-!
The shortest decimal fraction that rounds to a given binary64 number. All reals of an interval around the number
round to it. For one digit, two digits and so on, the number's two neighbours among the decimal fractions of that
many digits are tested; the first of them to lie in the interval is the answer, the nearer one if both do, and the
greater one if they are equally near.
-/
namespace LineBasic.Binary64

/-- A positive number as a fraction, with the ends of the interval of reals that round to it over the same
denominator. The ends belong to the interval if `closed`. -/
structure Rounding where
  value : Nat
  low : Nat
  high : Nat
  den : Nat
  closed : Bool

/-- The interval of the number with the given bits, which are positive and below those of infinity. Below a
power of two the next number is half as far away as above it. -/
def Rounding.ofBits (bits : Nat) : Rounding :=
  let field := bits / hiddenBit
  let fraction := bits % hiddenBit
  let mantissa := if field = 0 then fraction else fraction + hiddenBit
  let exponent := ((if field = 0 then 1 else field : Nat) : Int) - 1075
  let below := if fraction = 0 && 1 < field then 1 else 2
  let (unit, den) :=
    match exponent - 2 with
    | .ofNat n => (1 <<< n, 1)
    | .negSucc n => (1, 1 <<< (n + 1))
  { value := 4 * mantissa * unit
    low := (4 * mantissa - below) * unit
    high := (4 * mantissa + 2) * unit
    den
    closed := mantissa % 2 == 0 }

/-- The number `k` for which `10 ^ (k - 1) ≤ num / den < 10 ^ k`. -/
def decimalPlace (num den : Nat) : Int :=
  let k := ((Nat.toDigits 10 num).length : Int) - (Nat.toDigits 10 den).length
  let reaches : Bool :=
    match k with
    | .ofNat n => den * Nat.pow 10 n ≤ num
    | .negSucc n => den ≤ num * Nat.pow 10 (n + 1)
  if reaches then k + 1 else k

/-- The multiple of `10 ^ place` next to the number that lies in its interval, if one does, as its
number of units. -/
def Rounding.onGrid? (r : Rounding) (place : Int) : Option Nat :=
  let (scaleUp, unit) :=
    match place with
    | .ofNat n => (1, r.den * Nat.pow 10 n)
    | .negSucc n => (Nat.pow 10 (n + 1), r.den)
  let value := r.value * scaleUp
  let lower := value / unit
  let inside (n : Nat) : Bool :=
    if r.closed then r.low * scaleUp ≤ n * unit && n * unit ≤ r.high * scaleUp
    else r.low * scaleUp < n * unit && n * unit < r.high * scaleUp
  if inside lower then
    if inside (lower + 1) && unit ≤ 2 * (value % unit) then some (lower + 1) else some lower
  else if inside (lower + 1) then some (lower + 1)
  else none

/-- The first hit on the grids that start at `place` and get finer `fuel` times. -/
def Rounding.search (r : Rounding) (place : Int) : Nat → Nat × Int
  | 0 => (r.value / r.den, 0)
  | fuel + 1 =>
    match r.onGrid? place with
    | some digits => (digits, place)
    | none => r.search (place - 1) fuel

/-- `digits * 10 ^ exponent` without the zeros that `digits` ends in, as far as `fuel` goes. -/
def stripZeros (digits : Nat) (exponent : Int) : Nat → Nat × Int
  | 0 => (digits, exponent)
  | fuel + 1 =>
    if digits % 10 = 0 then stripZeros (digits / 10) (exponent + 1) fuel else (digits, exponent)

/-- The shortest decimal fraction for the number with the given bits, which are positive and below those of
infinity. Seventeen digits always suffice. -/
def shortest (bits : Nat) : Nat × Int :=
  let r := Rounding.ofBits bits
  let (digits, exponent) := r.search (decimalPlace r.value r.den - 1) 17
  stripZeros digits exponent 17

example : shortest 0x3FF0000000000000 = (1, 0) := by decide +kernel
example : shortest 0x3FB999999999999A = (1, -1) := by decide +kernel
example : shortest 0x3FD3333333333334 = (30000000000000004, -17) := by decide +kernel
example : shortest 1 = (5, -324) := by decide +kernel
example : shortest 0x7FEFFFFFFFFFFFFF = (17976931348623157, 292) := by decide +kernel

end LineBasic.Binary64
