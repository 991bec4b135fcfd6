import LineBasic.NumberSystem
import LineBasic.Binary64.Nearest
import LineBasic.Binary64.Shortest
/-!
Binary64 as the number system of programs: arithmetic is the processor's, text is exact.
-/
namespace LineBasic.Binary64

/-- The sign of a number, which zero has too. -/
def isSigned (x : Float) : Bool :=
  x.toBits >>> 63 == 1

/-- The number with the given bits, negated if `negative`. -/
def ofMagnitude (negative : Bool) (bits : Nat) : Float :=
  let x := Float.ofBits bits.toUInt64
  if negative then -x else x

/-- The number that a numeral stands for, or the nearest to it. -/
def ofNumeral : Numeral → Float
  | .undefined => Float.ofBits 0x7FF8000000000000
  | .infinity negative => ofMagnitude negative infinityBits
  | .decimal negative digits exponent => ofMagnitude negative (ofDecimal digits exponent)

/-- The shortest numeral that leads back to a number. -/
def toNumeral (x : Float) : Numeral :=
  if x.isNaN then .undefined
  else
    let bits := x.toBits.toNat % 0x8000000000000000
    if bits = 0 then .decimal (isSigned x) 0 0
    else if bits = infinityBits then .infinity (isSigned x)
    else
      let (digits, exponent) := shortest bits
      .decimal (isSigned x) digits exponent

/-- How two numbers compare, if neither is undefined. -/
def compare? (x y : Float) : Option Ordering :=
  if x < y then some .lt
  else if x == y then some .eq
  else if y < x then some .gt
  else none

/-- The nearest whole number, a half going away from zero, if 32 bits hold it; "not a number" leads to zero. -/
def toWord? (x : Float) : Option (BitVec 32) :=
  let n := x.round
  if n < -2147483648.0 || n > 2147483647.0 then none
  else if n.isNaN then some 0
  else some (BitVec.ofInt 32 n.toInt32.toInt)

/-- The whole number that a number below `10 ^ 15` is. -/
def toShortInt? (x : Float) : Option Int :=
  if x.floor == x && x.abs < 1000000000000000.0 then some x.toInt64.toInt else none

/-- The code point that a number leads to; "not a number" leads to zero. -/
def toCodePoint? (x : Float) : Option Nat :=
  if x < 0.0 || x > 4294967295.0 then none
  else if x.isNaN then some 0
  else some x.toUInt32.toNat

/-- The number of a whole number. -/
def ofInt (n : Int) : Float :=
  Float.ofInt n

/-- The number `n / 2 ^ 53`, exact for `n` up to `2 ^ 53`. -/
def ofFraction (n : Nat) : Float :=
  Float.ofNat n / 9007199254740992.0

instance : NumberSystem Float where
  ofInt := ofInt
  neg x := -x
  add x y := x + y
  sub x y := x - y
  mul x y := x * y
  div x y := x / y
  pow := Float.pow
  compare? := compare?
  isFinite := Float.isFinite
  isUndefined := Float.isNaN
  toWord? := toWord?
  toShortInt? := toShortInt?
  toCodePoint? := toCodePoint?
  abs := Float.abs
  floor := Float.floor
  sqrt := Float.sqrt
  sin := Float.sin
  cos := Float.cos
  ofFraction := ofFraction
  ofNumeral := ofNumeral
  toNumeral := toNumeral

end LineBasic.Binary64
