/-!
The binary64 number nearest to a positive fraction. A number is given by its bits without the sign; the bits
of greater numbers are greater, and the bits of infinity follow those of the largest finite number.
-/
namespace LineBasic.Binary64

/-- The least bits of a number whose exponent is stored as one. A mantissa has this bit too, unless the number is
subnormal, but it is not stored. -/
def hiddenBit : Nat := 0x10000000000000

/-- The bits of infinity. -/
def infinityBits : Nat := 0x7FF * hiddenBit

/-- The quotient `num / den` rounded to a whole number, a half going to the even neighbour. -/
def roundHalfEven (num den : Nat) : Nat :=
  let q := num / den
  let twice := 2 * (num % den)
  if twice > den || (twice == den && q % 2 == 1) then q + 1 else q

/-- A fraction multiplied by `2 ^ shift`. -/
def scale (num den : Nat) : Int → Nat × Nat
  | .ofNat shift => (num <<< shift, den)
  | .negSucc shift => (num, den <<< (shift + 1))

/-- The greatest `e` with `2 ^ e ≤ num / den`, for a positive fraction. -/
def floorLog2 (num den : Nat) : Int :=
  let e := (num.log2 : Int) - den.log2
  let (num, den) := scale num den (-e)
  if den ≤ num then e else e - 1

/-- The bits of the binary64 number nearest to a positive fraction, the even one of two equally near. -/
def nearest (num den : Nat) : Nat :=
  let unit := max (floorLog2 num den) (-1022) - 52
  let (num, den) := scale num den (-unit)
  min infinityBits ((unit + 1074).toNat * hiddenBit + roundHalfEven num den)

/-- The bits of the binary64 number nearest to `digits * 10 ^ exponent`. A magnitude that is out of
range by far is settled before any power of ten is formed. -/
def ofDecimal (digits : Nat) (exponent : Int) : Nat :=
  if digits = 0 then 0
  else
    let magnitude := ((Nat.toDigits 10 digits).length : Int) + exponent
    if magnitude > 310 then infinityBits
    else if magnitude < -330 then 0
    else
      match exponent with
      | .ofNat n => nearest (digits * Nat.pow 10 n) 1
      | .negSucc n => nearest digits (Nat.pow 10 (n + 1))

example : ofDecimal 1 0 = 0x3FF0000000000000 := by decide +kernel
example : ofDecimal 1 (-1) = 0x3FB999999999999A := by decide +kernel
example : ofDecimal 5 (-324) = 1 := by decide +kernel
example : ofDecimal 2 (-324) = 0 := by decide +kernel
example : ofDecimal 17976931348623159 292 = infinityBits := by decide +kernel
example : ofDecimal 17976931348623157 292 = infinityBits - 1 := by decide +kernel

end LineBasic.Binary64
