import LineBasic.Value.Operation
/-!
The instructions of the stack machine. A branch names a label until the code is linked, and an address after that.
-/
namespace LineBasic

/-- An instruction whose branches name their targets by a `T`. -/
inductive Instruction (R T : Type) where
  /-- A place that branches may name; the linker removes it. -/
  | label (name : String)
  /-- The program line that the following instructions belong to. -/
  | line (number : LineNumber)
  /-- Pushes a value. -/
  | literal (v : Value R)
  /-- Pushes the value of a variable. -/
  | push (name : String)
  /-- Takes a value off the stack into a variable. -/
  | pop (name : String)
  | jump (target : T)
  /-- Takes a value off the stack and branches if it is zero. -/
  | ifNot (target : T)
  /-- Branches, and remembers where it came from. -/
  | gosub (target : T)
  /-- Goes back behind the latest GOSUB. -/
  | «return»
  /-- Adds the step to the loop variable and branches to the body unless it has passed the limit. -/
  | next (var limit step : String) (body : T)
  | «end»
  /-- Calls a native with the given number of arguments and pushes its result. -/
  | call (name : String) (count : Nat)
  /-- Calls a native and drops its result. -/
  | exec (name : String) (count : Nat)
  | unary (op : UnaryOp)
  | binary (op : BinaryOp)
deriving Repr, Inhabited

namespace Instruction

variable {R T : Type}

/-- Where an instruction may branch to. -/
def target? : Instruction R T → Option T
  | jump t | ifNot t | gosub t | next _ _ _ t => some t
  | _ => none

/-- The instruction with another target, found by `f`. -/
def resolve {U : Type} (f : T → Except Error U) : Instruction R T → Except Error (Instruction R U)
  | label name => .ok (label name)
  | line number => .ok (line number)
  | literal v => .ok (literal v)
  | push name => .ok (push name)
  | pop name => .ok (pop name)
  | jump t => return jump (← f t)
  | ifNot t => return ifNot (← f t)
  | gosub t => return gosub (← f t)
  | .return => .ok .return
  | next var limit step t => return next var limit step (← f t)
  | .end => .ok .end
  | call name count => .ok (call name count)
  | exec name count => .ok (exec name count)
  | unary op => .ok (unary op)
  | binary op => .ok (binary op)

end Instruction

end LineBasic
