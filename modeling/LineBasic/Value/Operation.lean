import LineBasic.Value
/-!
The operators of expressions on values. The folder evaluates with them what the machine would evaluate later.
A result that is not finite is an overflow.
-/
namespace LineBasic

/-- The operators on one value. -/
inductive UnaryOp where
  | negate
  | not
deriving DecidableEq, Repr

/-- The operators on two values. -/
inductive BinaryOp where
  | power
  | multiply
  | divide
  | modulus
  | add
  | subtract
  | equal
  | notEqual
  | less
  | lessEqual
  | greater
  | greaterEqual
  | and
  | or
deriving DecidableEq, Repr

/-- All operators on two values. -/
def BinaryOp.all : List BinaryOp :=
  [power, multiply, divide, modulus, add, subtract, equal, notEqual, less, lessEqual, greater,
    greaterEqual, and, or]

/-- An order of two values that one of the comparing operators asks for. -/
def BinaryOp.holds : BinaryOp → Ordering → Bool
  | equal, order => order == .eq
  | notEqual, order => order != .eq
  | less, order => order == .lt
  | lessEqual, order => order != .gt
  | greater, order => order == .gt
  | greaterEqual, order => order != .lt
  | _, _ => false

variable {R : Type} [NumberSystem R]

open NumberSystem

namespace Value

/-- A number as a value, unless it overflowed. -/
def finite (n : R) : Except Error (Value R) :=
  if isFinite n then .ok (number n) else .error { code := .overflow }

/-- The nearest whole number as a word of 32 bits. -/
def word? (v : Value R) : Except Error (BitVec 32) := do
  match toWord? (← v.number?) with
  | some w => .ok w
  | none => .error { code := .overflow }

/-- A word of 32 bits, taken with its sign, as a value. -/
def ofWord (w : BitVec 32) : Value R :=
  number (ofInt w.toInt)

/-- The order of two values of one type. Strings compare by their code points. -/
def compare? : Value R → Value R → Except Error Ordering
  | string s, string t => .ok (compare s t)
  | number m, number n =>
    match NumberSystem.compare? m n with
    | some order => .ok order
    | none => .error { code := .illegalFunctionCall }
  | _, _ => .error { code := .typeMismatch }

/-- A power. Zero has no negative powers, and a power that is no number at all is refused. -/
def power (x y : Value R) : Except Error (Value R) := do
  let x ← x.number?
  let y ← y.number?
  if isZero x && isNegative y then .error { code := .divisionByZero }
  else if isUndefined (pow x y) then .error { code := .illegalFunctionCall }
  else finite (pow x y)

/-- A quotient. A zero divisor is reported before the other operand is looked at. -/
def divide (x y : Value R) : Except Error (Value R) := do
  let y ← y.number?
  if isZero y then .error { code := .divisionByZero }
  else finite (div (← x.number?) y)

/-- The remainder of whole numbers, with the sign of the dividend. -/
def modulus (x y : Value R) : Except Error (Value R) := do
  let x ← x.word?
  let y ← y.word?
  if y = 0 then .error { code := .divisionByZero }
  else if x = BitVec.intMin 32 && y = -1 then .error { code := .overflow }
  else .ok (number (ofInt (Int.tmod x.toInt y.toInt)))

/-- The sum of numbers, or one string after the other. -/
def add : Value R → Value R → Except Error (Value R)
  | string s, string t => .ok (string (s ++ t))
  | number m, number n => finite (NumberSystem.add m n)
  | _, _ => .error { code := .typeMismatch }

end Value

/-- The result of an operator on a value. -/
def UnaryOp.apply (op : UnaryOp) (x : Value R) : Except Error (Value R) :=
  match op with
  | negate => return .number (neg (← x.number?))
  | not => return .ofWord (~~~(← x.word?))

/-- The result of an operator on two values. -/
def BinaryOp.apply (op : BinaryOp) (x y : Value R) : Except Error (Value R) :=
  match op with
  | power => x.power y
  | multiply => do
    let x ← x.number?
    Value.finite (mul x (← y.number?))
  | divide => x.divide y
  | modulus => x.modulus y
  | add => x.add y
  | subtract => do
    let x ← x.number?
    Value.finite (sub x (← y.number?))
  | and => do
    let x ← x.word?
    return .ofWord (x &&& (← y.word?))
  | or => do
    let x ← x.word?
    return .ofWord (x ||| (← y.word?))
  | op => return .ofBool (op.holds (← x.compare? y))

end LineBasic
