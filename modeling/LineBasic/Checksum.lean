import LineBasic.Text.Hex
/-!
The checksum of a file: the cyclic redundancy check of 32 bits with the reflected polynomial `0xEDB88320`.
-/
namespace LineBasic.Checksum

/-- One bit of a byte worked into the remainder. -/
def shift (remainder : UInt32) : UInt32 :=
  if remainder &&& 1 == 1 then (remainder >>> 1) ^^^ 0xEDB88320 else remainder >>> 1

/-- `count` bits worked into the remainder. -/
def shifts : Nat → UInt32 → UInt32
  | 0, remainder => remainder
  | count + 1, remainder => shifts count (shift remainder)

/-- One byte worked into the remainder. -/
def absorb (remainder : UInt32) (byte : UInt8) : UInt32 :=
  shifts 8 (remainder ^^^ byte.toUInt32)

/-- The checksum of bytes. -/
def ofBytes (bytes : ByteArray) : UInt32 :=
  bytes.data.toList.foldl absorb 0xFFFFFFFF ^^^ 0xFFFFFFFF

/-- A checksum as it is written: eight digits in base sixteen. -/
def text (checksum : UInt32) : String :=
  Text.upper (String.ofList (Text.hexDigits 8 checksum.toNat))

/-- The check value of the polynomial. -/
example : ofBytes "123456789".toUTF8 = 0xCBF43926 := by
  decide +kernel

end LineBasic.Checksum
