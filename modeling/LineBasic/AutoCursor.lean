import LineBasic.Error
/-!
Automatic line numbers: while the cursor is active, it gives a number to every line that is typed without one.
-/
namespace LineBasic

/-- The numbers that AUTO gives. -/
structure AutoCursor where
  active : Bool := false
  /-- The number that the next line gets. -/
  next : LineNumber := 0
  increment : Nat := 0
deriving DecidableEq, Repr, Inhabited

namespace AutoCursor

/-- A cursor from the given number on. It is active only if its numbers ascend and the first one is allowed. -/
def start (next : LineNumber) (increment : Nat) : AutoCursor :=
  { active := 0 < increment && next ≤ maxLineNumber, next, increment }

/-- The cursor switched off. -/
def stop (a : AutoCursor) : AutoCursor :=
  { a with active := false }

/-- The number that the next line would get. -/
def peek (a : AutoCursor) : Option LineNumber :=
  if a.active then some a.next else none

/-- The cursor behind a line of the given number. It switches itself off when the numbers run out. -/
def follow (number : LineNumber) (a : AutoCursor) : AutoCursor :=
  if a.active then
    if number + a.increment ≤ maxLineNumber then { a with next := number + a.increment }
    else a.stop
  else a

/-- The number for a line, and the cursor behind it. -/
def take (a : AutoCursor) : Option (LineNumber × AutoCursor) :=
  a.peek.map fun number => (number, a.follow number)

end AutoCursor

end LineBasic
