import LineBasic.Text.Digits
/-!
Digits of numbers in base sixteen.
-/
namespace LineBasic.Text

/-- The digit of a number below sixteen, in lower case. -/
def hexDigit (n : Nat) : Char :=
  if n < 10 then Char.ofNat (0x30 + n) else Char.ofNat (0x57 + n)

/-- The value of a digit in base sixteen, in either letter case. -/
def hexValue? (c : Char) : Option Nat :=
  if isDigit c then some (c.toNat - 0x30)
  else if 'a' ≤ c && c ≤ 'f' then some (c.toNat - 0x57)
  else if 'A' ≤ c && c ≤ 'F' then some (c.toNat - 0x37)
  else none

/-- The last `count` digits of a number in base sixteen, in front of `digits`. -/
def hexDigitsFrom (digits : List Char) : Nat → Nat → List Char
  | 0, _ => digits
  | count + 1, n => hexDigitsFrom (hexDigit (n % 16) :: digits) count (n / 16)

/-- The last `count` digits of a number in base sixteen. -/
def hexDigits (count n : Nat) : List Char :=
  hexDigitsFrom [] count n

theorem hexValue?_hexDigit {n : Nat} (h : n < 16) : hexValue? (hexDigit n) = some n := by
  have : ∀ n : Fin 16, hexValue? (hexDigit n) = some n.val := by decide
  exact this ⟨n, h⟩

end LineBasic.Text
