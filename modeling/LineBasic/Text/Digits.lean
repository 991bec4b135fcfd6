/-!
Decimal digits and letters of the ASCII range: reading a natural number, and letter case.
-/
namespace LineBasic.Text

/-- One of the ten ASCII digits. -/
def isDigit (c : Char) : Bool :=
  '0' ≤ c && c ≤ '9'

/-- One of the ASCII letters. -/
def isLetter (c : Char) : Bool :=
  ('a' ≤ c && c ≤ 'z') || ('A' ≤ c && c ≤ 'Z')

/-- `s` with its ASCII letters in upper case and everything else unchanged. -/
def upper (s : String) : String :=
  String.ofList (s.toList.map Char.toUpper)

/-- `s` with its ASCII letters in lower case and everything else unchanged. -/
def lower (s : String) : String :=
  String.ofList (s.toList.map Char.toLower)

/-- The value of a digit. -/
def digitValue : Char → Nat
  | '1' => 1
  | '2' => 2
  | '3' => 3
  | '4' => 4
  | '5' => 5
  | '6' => 6
  | '7' => 7
  | '8' => 8
  | '9' => 9
  | _ => 0

/-- The number that the digits continue `n` to. -/
def valueFrom (n : Nat) : List Char → Nat
  | [] => n
  | c :: cs => valueFrom (10 * n + digitValue c) cs

/-- The number that a list of digits writes, leading zeros allowed. -/
def value (digits : List Char) : Nat :=
  valueFrom 0 digits

theorem valueFrom_append (n : Nat) (cs ds : List Char) :
    valueFrom n (cs ++ ds) = valueFrom (valueFrom n cs) ds := by
  induction cs generalizing n with
  | nil => rfl
  | cons c cs ih => simp only [List.cons_append, valueFrom, ih]

/-- The natural number that `cs` writes with digits only, if it is at most `bound`. -/
def readDigits? (bound : Nat) (cs : List Char) : Option Nat :=
  if cs.isEmpty || !cs.all isDigit then none
  else if value cs ≤ bound then some (value cs) else none

/-- The natural number at most `bound` that `s` writes: digits, after at most one plus sign. -/
def readNat? (bound : Nat) (s : String) : Option Nat :=
  match s.toList with
  | '+' :: cs => readDigits? bound cs
  | cs => readDigits? bound cs

theorem le_of_readDigits? {bound n : Nat} {cs : List Char}
    (h : readDigits? bound cs = some n) : n ≤ bound := by
  unfold readDigits? at h
  split at h
  · cases h
  · split at h
    · cases h
      assumption
    · cases h

/-- The largest number that 32 bits hold. -/
def maxWord32 : Nat := 0xFFFFFFFF

/-- The largest number that 64 bits hold. -/
def maxWord64 : Nat := 0xFFFFFFFFFFFFFFFF

/-- The number of bytes that `cs` takes in UTF-8. -/
def byteLength : List Char → Nat
  | [] => 0
  | c :: cs => c.utf8Size + byteLength cs

@[simp] theorem byteLength_nil : byteLength [] = 0 := rfl

@[simp] theorem byteLength_cons (c : Char) (cs : List Char) :
    byteLength (c :: cs) = c.utf8Size + byteLength cs := rfl

@[simp] theorem byteLength_append (cs ds : List Char) :
    byteLength (cs ++ ds) = byteLength cs + byteLength ds := by
  induction cs with
  | nil => simp
  | cons c cs ih => simp [ih, Nat.add_assoc]

theorem byteLength_replicate (count : Nat) (c : Char) :
    byteLength (List.replicate count c) = count * c.utf8Size := by
  induction count with
  | zero => simp
  | succ count ih => simp [List.replicate_succ, ih, Nat.succ_mul, Nat.add_comm]

end LineBasic.Text
