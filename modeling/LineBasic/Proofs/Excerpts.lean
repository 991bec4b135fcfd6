import Mathlib.Order.Monotone.Basic
import LineBasic.Machine

/-!
Code that stands within other code. Its instructions are found in the other code in the same order, each at a place of its
own, and branch to the places of what they branch to. Between them there may be instructions that are never reached. Main
statement: the two codes run in lock step, the one at an address and the other at its place.
-/

namespace LineBasic

variable {R W : Type}

namespace Instruction

variable {T U : Type}

def retarget (f : T → U) : Instruction R T → Instruction R U
  | label name => .label name
  | line number => .line number
  | literal v => .literal v
  | push name => .push name
  | pop name => .pop name
  | jump t => .jump (f t)
  | ifNot t => .ifNot (f t)
  | gosub t => .gosub (f t)
  | .return => .return
  | next var limit step t => .next var limit step (f t)
  | .end => .end
  | call name count => .call name count
  | exec name count => .exec name count
  | unary op => .unary op
  | binary op => .binary op

/-- Control never comes from the instruction to the one behind it. -/
def isTerminal : Instruction R T → Bool
  | jump _ | .return | .end => true
  | _ => false

end Instruction

namespace Stack

variable {α β : Type}

def map (f : α → β) (s : Stack α) : Stack β where
  overflow := s.overflow
  items := s.items.map f
  size := s.size
  size_eq := by rw [List.length_map, s.size_eq]

theorem push_map (f : α → β) (a : α) (s : Stack α) :
    (s.map f).push (f a) = (s.push a).map (map f) := by
  rw [push, push]
  change (if s.size < capacity then _ else _) = _
  split <;> rfl

theorem pop_map (f : α → β) (s : Stack α) :
    (s.map f).pop = (s.pop.1.map f, s.pop.2.map f) := by
  obtain ⟨overflow, items, size, hsize⟩ := s
  cases items <;> rfl

end Stack

namespace Registers

/-- The registers of a run of the other code. -/
def move (place : Nat → Nat) (r : Registers R) : Registers R :=
  { r with address := place r.address, returns := r.returns.map place }

@[simp] theorem address_move (place : Nat → Nat) (r : Registers R) :
    (r.move place).address = place r.address := rfl

@[simp] theorem stack_move (place : Nat → Nat) (r : Registers R) :
    (r.move place).stack = r.stack := rfl

@[simp] theorem returns_move (place : Nat → Nat) (r : Registers R) :
    (r.move place).returns = r.returns.map place := rfl

theorem goTo_move (place : Nat → Nat) (r : Registers R) (target : Nat) :
    (r.move place).goTo (place target) = (r.goTo target).move place := rfl

theorem forward_move {place : Nat → Nat} {r : Registers R}
    (h : place (r.address + 1) = place r.address + 1) :
    (r.move place).forward = r.forward.move place := by
  simp only [forward, move, h]

end Registers

namespace Progress

/-- What a run of the other code has come to. -/
def move (place : Nat → Nat) : Progress R → Progress R
  | running r => running (r.move place)
  | ended ending r => ended ending (r.move place)

end Progress

/-- The outcome of a step of the other code, in the same world. -/
def moved (place : Nat → Nat) (outcome : Progress R × W) : Progress R × W :=
  (outcome.1.move place, outcome.2)

namespace Registers

variable {place : Nat → Nat}

theorem pushing_move (v : Value R) (r : Registers R) :
    (r.move place).pushing v = (r.pushing v).move place := by
  rw [pushing, pushing, stack_move]
  cases r.stack.push v <;> rfl

theorem pushingResult_move (result : Except Error (Value R)) (r : Registers R) :
    (r.move place).pushingResult result = (r.pushingResult result).move place := by
  cases result with
  | ok v => exact pushing_move v r
  | error e => rfl

end Registers

namespace Machine

variable {place : Nat → Nat} (m : Machine R W) (r : Registers R) (w : W)

theorem polling_move (next : Progress R) :
    m.polling (r.move place) w (next.move place) = moved place (m.polling r w next) := by
  rw [polling, polling]
  rcases m.poll w with ⟨_ | _, w'⟩ <;> rfl

theorem pollingBack_move (hplace : StrictMono place) (target : Nat) (next : Progress R) :
    m.pollingBack (place target) (r.move place) w (next.move place) =
      moved place (m.pollingBack target r w next) := by
  rw [pollingBack, pollingBack, Registers.address_move]
  by_cases hle : target ≤ r.address
  · rw [if_pos hle, if_pos (hplace.monotone hle), polling_move]
  · rw [if_neg hle, if_neg (Nat.not_le.mpr (hplace (Nat.not_le.mp hle)))]
    rfl

theorem callNative_move (name : String) (count : Nat)
    {keep : Value R → Registers R → Progress R}
    (hkeep : ∀ v r, keep v (r.move place) = (keep v r).move place)
    (hnext : place (r.address + 1) = place r.address + 1) :
    m.callNative name count keep (r.move place) w =
      moved place (m.callNative name count keep r w) := by
  rw [callNative, callNative, Registers.stack_move]
  rcases r.stack.popN count with ⟨e | args, stack⟩
  · rfl
  · dsimp only
    cases m.natives[name]? with
    | none => rfl
    | some native =>
        dsimp only
        rcases native args w with ⟨v | e | _, w'⟩
        · have hforward : Registers.forward { r.move place with stack } =
              (Registers.forward { r with stack }).move place :=
            Registers.forward_move (r := { r with stack }) hnext
          dsimp only
          rw [hforward, hkeep]
          rfl
        · rfl
        · rfl

variable [NumberSystem R]

theorem loop_move (var limit step : String) (body : Nat)
    (hnext : place (r.address + 1) = place r.address + 1) :
    m.loop var limit step (place body) (r.move place) w =
      moved place (m.loop var limit step body r w) := by
  have hread (name : String) : (r.move place).readNumber name = r.readNumber name := rfl
  rw [loop, loop]
  simp only [hread]
  split
  · rfl
  · rename_i limit step value _
    have hassign (v : Value R) : (r.move place).assign var v = (r.assign var v).move place := rfl
    have hforward (v : Value R) : ((r.assign var v).move place).forward =
        (r.assign var v).forward.move place :=
      Registers.forward_move (r := r.assign var v) hnext
    have hbranch (v : Value R) (more : Bool) :
        (if more then m.polling ((r.assign var v).move place) w
            (.running (((r.assign var v).goTo body).move place))
          else (.running ((r.assign var v).forward.move place), w)) =
          moved place (if more then m.polling (r.assign var v) w
              (.running ((r.assign var v).goTo body))
            else (.running (r.assign var v).forward, w)) := by
      cases more with
      | true => exact m.polling_move _ w (.running _)
      | false => rfl
    rw [hassign, Registers.goTo_move, hforward]
    split
    · exact hbranch _ _
    · exact hbranch _ _

theorem execute_move (hplace : StrictMono place) (i : Instruction R Nat)
    (hnext : i.isTerminal = false → place (r.address + 1) = place r.address + 1) :
    m.execute (i.retarget place) (r.move place) w = moved place (m.execute i r w) := by
  have hforward (hi : i.isTerminal = false) (r' : Registers R)
      (hr' : r'.address = r.address) : (r'.move place).forward = r'.forward.move place :=
    Registers.forward_move (by rw [hr', hnext hi])
  cases i with
  | label name =>
      rw [Instruction.retarget, execute, execute, hforward rfl r rfl]
      rfl
  | line number =>
      rw [Instruction.retarget, execute, execute, hforward rfl r rfl]
      rfl
  | literal v =>
      rw [Instruction.retarget, execute, execute, hforward rfl r rfl, Registers.pushing_move]
      rfl
  | push name =>
      rw [Instruction.retarget, execute, execute, hforward rfl r rfl, Registers.pushing_move]
      rfl
  | pop name =>
      rw [Instruction.retarget, execute, execute, Registers.stack_move]
      rcases r.stack.pop with ⟨e | v, stack⟩
      · rfl
      · have hforward := hforward rfl { r with stack } rfl
        dsimp only
        split
        · change (Progress.running (Registers.assign name v
            (Registers.forward (Registers.move place { r with stack }))), w) = _
          rw [hforward]
          rfl
        · rfl
  | jump target => exact m.pollingBack_move r w hplace target (.running (r.goTo target))
  | ifNot target =>
      rw [Instruction.retarget, execute, execute, Registers.stack_move]
      rcases r.stack.pop with ⟨e | v, stack⟩
      · rfl
      · have hforward := hforward rfl { r with stack } rfl
        dsimp only
        rcases v.isTrue? with e | _ | _
        · rfl
        · rfl
        · change (Progress.running (Registers.forward (Registers.move place { r with stack })), w) = _
          rw [hforward]
          rfl
  | gosub target =>
      rw [Instruction.retarget, execute, execute, ← m.pollingBack_move r w hplace]
      congr 1
      rw [Registers.address_move, ← hnext rfl, Registers.returns_move, Stack.push_map]
      cases r.returns.push (r.address + 1) <;> rfl
  | «return» =>
      rw [Instruction.retarget, execute, execute, Registers.returns_move, Stack.pop_map]
      rcases r.returns.pop with ⟨e | address, returns⟩ <;> rfl
  | next var limit step body => exact m.loop_move r w var limit step body (hnext rfl)
  | «end» => rfl
  | call name count =>
      exact m.callNative_move r w name count (fun v r => Registers.pushing_move v r) (hnext rfl)
  | exec name count => exact m.callNative_move r w name count (fun _ _ => rfl) (hnext rfl)
  | unary op =>
      rw [Instruction.retarget, execute, execute, Registers.stack_move, hforward rfl r rfl]
      rcases r.stack.pop with ⟨e | v, stack⟩
      · rfl
      · exact congrArg (·, w)
          (Registers.pushingResult_move (op.apply v) { r.forward with stack })
  | binary op =>
      rw [Instruction.retarget, execute, execute, Registers.stack_move, hforward rfl r rfl]
      rcases r.stack.pop2 with ⟨e | ⟨x, y⟩, stack⟩
      · rfl
      · exact congrArg (·, w)
          (Registers.pushingResult_move (op.apply x y) { r.forward with stack })

end Machine

/-- Where the instructions of one code stand within another. Places keep their order, and what control may come to next
stands next. -/
structure LinkedCode.Excerpt (part whole : LinkedCode R) where
  place : Nat → Nat
  place_zero : place 0 = 0
  strictMono : StrictMono place
  code_eq : ∀ a, whole.code[place a]? = part.code[a]?.map (Instruction.retarget place)
  next_eq : ∀ a i, part.code[a]? = some i → i.isTerminal = false →
    place (a + 1) = place a + 1

namespace Machine

def on (linked : LinkedCode R) (m : Machine R W) : Machine R W :=
  { m with linked }

theorem poll_on (linked : LinkedCode R) (m : Machine R W) (w : W) : (m.on linked).poll w = m.poll w :=
  rfl

variable [NumberSystem R] {part whole : LinkedCode R}

theorem execute_on (linked : LinkedCode R) (m : Machine R W) (i : Instruction R Nat)
    (r : Registers R) (w : W) : (m.on linked).execute i r w = m.execute i r w := by
  cases i <;> rfl

theorem step_move (e : part.Excerpt whole) (m : Machine R W) (r : Registers R) (w : W) :
    (m.on whole).step (r.move e.place) w = moved e.place ((m.on part).step r w) := by
  have hcode : (m.on whole).linked.code[(r.move e.place).address]? =
      (m.on part).linked.code[r.address]?.map (Instruction.retarget e.place) :=
    e.code_eq r.address
  rw [step, step, hcode]
  cases hi : (m.on part).linked.code[r.address]? with
  | none => rfl
  | some i =>
      have hnext : i.isTerminal = false → e.place (r.address + 1) = e.place r.address + 1 :=
        e.next_eq r.address i hi
      have hexecute (countdown : Nat) (w : W) :
          (m.on whole).execute (i.retarget e.place) { r.move e.place with countdown } w =
            moved e.place ((m.on part).execute i { r with countdown } w) := by
        rw [execute_on, execute_on]
        exact m.execute_move { r with countdown } w e.strictMono i hnext
      rw [Option.map_some]
      dsimp only
      split
      · rename_i hdue
        rw [if_pos (show r.countdown ≤ 1 from hdue)]
        rw [poll_on, poll_on]
        rcases m.poll w with ⟨_ | _, w'⟩
        · exact hexecute _ w'
        · rfl
      · rename_i hdue
        rw [if_neg (show ¬r.countdown ≤ 1 from hdue)]
        exact hexecute _ w

/-- The two codes run in lock step. -/
theorem advance_move (e : part.Excerpt whole) (m : Machine R W) (fuel : Nat) (r : Registers R)
    (w : W) :
    (m.on whole).advance fuel (r.move e.place) w =
      moved e.place ((m.on part).advance fuel r w) := by
  induction fuel generalizing r w with
  | zero => rfl
  | succ fuel ih =>
      rw [advance, advance, step_move e m r w]
      rcases (m.on part).step r w with ⟨r' | ⟨ending, r'⟩, w'⟩
      · exact ih r' w'
      · rfl

end Machine

end LineBasic
