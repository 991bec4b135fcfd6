import LineBasic.Error
import LineBasic.NumberSystem
/-!
The values of a program: numbers and strings. Truth is -1, falsehood 0.
-/
namespace LineBasic

/-- The two types of value. -/
inductive ValueType where
  | number
  | string
deriving DecidableEq, Repr

/-- A name ends in a dollar sign. -/
def namesString (name : String) : Bool :=
  name.toList.getLast? == some '$'

/-- The type of the variable with the given name: the dollar sign at its end says that it holds a string. -/
def ValueType.ofName (name : String) : ValueType :=
  if namesString name then .string else .number

/-- A value that a program computes with. -/
inductive Value (R : Type) where
  | number (n : R)
  | string (s : String)
deriving Repr

namespace Value

variable {R : Type}

/-- The type of a value. -/
def type : Value R → ValueType
  | number _ => .number
  | string _ => .string

/-- The number that a value is. -/
def number? : Value R → Except Error R
  | number n => .ok n
  | string _ => .error { code := .typeMismatch }

/-- The string that a value is. -/
def string? : Value R → Except Error String
  | string s => .ok s
  | number _ => .error { code := .typeMismatch }

variable [NumberSystem R]

open NumberSystem

/-- What a variable of the given name holds before its first assignment. -/
def default (name : String) : Value R :=
  if namesString name then string "" else number zero

/-- The value of a condition. -/
def ofBool (b : Bool) : Value R :=
  number (ofInt (if b then -1 else 0))

/-- Every number but zero is true; a string is no condition. -/
def isTrue? (v : Value R) : Except Error Bool :=
  return !isZero (← v.number?)

/-- The digits that a number is printed with: those of a whole number if it is a short one, else its
text in full. -/
def digits (n : R) : String :=
  match toShortInt? n with
  | some i => toString i
  | none => write n

/-- The text that a value is printed as. A number that is not negative has a blank where the sign would be. -/
def text : Value R → String
  | string s => s
  | number n => if atLeastZero n then " " ++ digits n else digits n

theorem type_default (name : String) : (default name : Value R).type = ValueType.ofName name := by
  unfold default ValueType.ofName
  split <;> rfl

end Value

end LineBasic
