import LineBasic.Signature
/-!
The functions that every program can call.
-/
namespace LineBasic

/-- A built-in function. -/
inductive Builtin where
  | abs
  | int
  | sqr
  | sin
  | cos
  | rnd
  | len
  | str
  | chr
deriving DecidableEq, Repr

namespace Builtin

/-- All of them. -/
def all : List Builtin :=
  [abs, int, sqr, sin, cos, rnd, len, str, chr]

/-- The name that programs call a function by. -/
def name : Builtin → String
  | abs => "ABS"
  | int => "INT"
  | sqr => "SQR"
  | sin => "SIN"
  | cos => "COS"
  | rnd => "RND"
  | len => "LEN"
  | str => "STR$"
  | chr => "CHR$"

/-- The signature of a function. -/
def signature : Builtin → Signature
  | abs | int | sqr | sin | cos => .function 1 1 [.number] .number
  | rnd => .function 0 1 [.number] .number
  | len => .function 1 1 [.string] .number
  | str | chr => .function 1 1 [.number] .string

variable {R : Type} [NumberSystem R]

open NumberSystem

/-- The first argument of a call. -/
def first? (args : List (Value R)) : Except Error (Value R) :=
  match args with
  | v :: _ => .ok v
  | [] => .error { code := .illegalFunctionCall }

/-- The first argument of a call, which has to be a number. -/
def firstNumber? (args : List (Value R)) : Except Error R := do
  (← first? args).number?

/-- The character with the given code point. -/
def character? (codePoint : Nat) : Option Char :=
  if h : codePoint.isValidChar then some (Char.ofNatAux codePoint h) else none

/-- The result of a call, where `draw` is the number that a call of RND yields. -/
def apply (b : Builtin) (draw : R) (args : List (Value R)) : Except Error (Value R) :=
  match b with
  | abs => return .number (NumberSystem.abs (← firstNumber? args))
  | int => return .number (floor (← firstNumber? args))
  | sqr => do
    let n ← firstNumber? args
    if isNegative n then .error { code := .illegalFunctionCall } else .ok (.number (sqrt n))
  | sin => return .number (NumberSystem.sin (← firstNumber? args))
  | cos => return .number (NumberSystem.cos (← firstNumber? args))
  | rnd => .ok (.number draw)
  | len => do
    let s ← (← first? args).string?
    return .number (ofInt s.length)
  | str => return .string (Value.text (.number (← firstNumber? args)))
  | chr => do
    match (toCodePoint? (← firstNumber? args)).bind character? with
    | some c => .ok (.string (String.singleton c))
    | none => .error { code := .illegalFunctionCall }

end Builtin

end LineBasic
