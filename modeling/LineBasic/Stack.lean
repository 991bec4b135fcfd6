import LineBasic.Error
/-!
Stacks of limited size. Taking more off a stack than it holds is an error, and so is pushing onto a full one.
-/
namespace LineBasic

/-- A stack, its top first. -/
structure Stack (α : Type) where
  /-- What is said when the stack is full. -/
  overflow : String
  items : List α := []
  size : Nat := items.length
  size_eq : size = items.length := by rfl

namespace Stack

variable {α : Type}

/-- The most that a stack holds. -/
def capacity : Nat := 65535

/-- The error of taking more off a stack than it holds. -/
def underflow : Error :=
  ErrorCode.internalError.error "UNDERFLOW"

/-- A stack with nothing on it. -/
def empty (overflow : String) : Stack α :=
  { overflow }

/-- The stack without anything on it. -/
def clear (s : Stack α) : Stack α :=
  empty s.overflow

/-- What is on a stack, in the order it was pushed. -/
def toList (s : Stack α) : List α :=
  s.items.reverse

/-- The stack with `a` on top, unless it is full. -/
def push (a : α) (s : Stack α) : Except Error (Stack α) :=
  if s.size < capacity then
    .ok { s with items := a :: s.items, size := s.size + 1, size_eq := by simp [s.size_eq] }
  else .error (ErrorCode.outOfMemory.error s.overflow)

/-- The top of the stack, and the stack without it. -/
def pop (s : Stack α) : Except Error α × Stack α :=
  match h : s.items with
  | [] => (.error underflow, s)
  | a :: items =>
    (.ok a, { s with items, size := s.size - 1, size_eq := by simp [s.size_eq, h] })

/-- The two topmost items in the order they were pushed. When only one is there, it is lost. -/
def pop2 (s : Stack α) : Except Error (α × α) × Stack α :=
  match s.pop with
  | (.error e, s) => (.error e, s)
  | (.ok second, s) =>
    match s.pop with
    | (.error e, s) => (.error e, s)
    | (.ok first, s) => (.ok (first, second), s)

/-- The `count` topmost items in the order they were pushed. When fewer are there, none is taken. -/
def popN (count : Nat) (s : Stack α) : Except Error (List α) × Stack α :=
  if h : count ≤ s.size then
    (.ok (s.items.take count).reverse,
      { s with
        items := s.items.drop count
        size := s.size - count
        size_eq := by simp [s.size_eq] })
  else (.error underflow, s)

@[simp] theorem toList_empty (overflow : String) : (empty overflow : Stack α).toList = [] := rfl

@[simp] theorem toList_clear (s : Stack α) : s.clear.toList = [] := rfl

theorem toList_of_push {a : α} {s t : Stack α} (h : s.push a = .ok t) :
    t.toList = s.toList ++ [a] := by
  unfold push at h
  split at h
  · cases h
    simp [toList]
  · cases h

end Stack

end LineBasic
