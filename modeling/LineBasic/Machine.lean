import LineBasic.LinkedCode
import LineBasic.Script
import LineBasic.Stack
/-!
The stack machine. It runs linked code with variables in a flat table; a variable that was never assigned reads as zero or
the empty string. Natives and the interrupt hook act on a world that the machine itself knows nothing of.

The hook is polled before every so many instructions, before a JUMP or GOSUB that does not go forward, and before NEXT goes
back to the body of its loop. If it answers true, the run ends with BREAK.
-/
namespace LineBasic

/-- How a native answers a call. -/
inductive Answer (R : Type) where
  | value (v : Value R)
  | error (e : Error)
  /-- The native broke down, and the machine with it. -/
  | panic

/-- A native: it gets its arguments, and it acts on the world. -/
abbrev Native (R W : Type) := List (Value R) → W → Answer R × W

/-- A hook that is asked whether the run shall be broken. -/
abbrev Hook (W : Type) := W → Bool × W

/-- A machine with its code, its natives and its hook. -/
structure Machine (R W : Type) where
  linked : LinkedCode R := {}
  natives : Std.TreeMap String (Native R W) := ∅
  hook : Option (Hook W) := none
  /-- The number of instructions from one poll to the next; zero counts as one. -/
  interval : Nat := 256

/-- What a run changes. -/
structure Registers (R : Type) where
  /-- The address of the next instruction. -/
  address : Nat
  /-- The number of instructions up to the next poll. -/
  countdown : Nat
  memory : Std.TreeMap String (Value R) := ∅
  stack : Stack (Value R) := .empty "EXPRESSION TOO COMPLEX"
  returns : Stack Nat := .empty "TOO MANY GOSUBS"
  line : Option LineNumber := none

/-- How a run ends. -/
inductive Ending where
  | finished
  | failed (e : Error)
  | panicked
deriving DecidableEq, Repr

/-- Where a run is after some steps. -/
inductive Progress (R : Type) where
  | running (r : Registers R)
  | ended (ending : Ending) (r : Registers R)

namespace Registers

variable {R : Type}

/-- The registers at the next address. -/
def forward (r : Registers R) : Registers R :=
  { r with address := r.address + 1 }

/-- The registers at the given address. -/
def goTo (address : Nat) (r : Registers R) : Registers R :=
  { r with address }

/-- A run that ends with an error, in the current line unless the error knows better. -/
def fail (e : Error) (r : Registers R) : Progress R :=
  .ended (.failed (e.orLine r.line)) r

/-- The run goes on with a value pushed, unless the stack is full. -/
def pushing (v : Value R) (r : Registers R) : Progress R :=
  match r.stack.push v with
  | .ok stack => .running { r with stack }
  | .error e => r.fail e

/-- The run goes on with a result pushed, unless there is an error in its place. -/
def pushingResult (result : Except Error (Value R)) (r : Registers R) : Progress R :=
  match result with
  | .ok v => r.pushing v
  | .error e => r.fail e

variable [NumberSystem R]

/-- The value of a variable. -/
def read (name : String) (r : Registers R) : Value R :=
  (r.memory[name]?).getD (.default name)

/-- The registers after an assignment. -/
def assign (name : String) (v : Value R) (r : Registers R) : Registers R :=
  { r with memory := r.memory.insert name v }

/-- The number that a loop finds in a variable; a variable that was never assigned is zero. -/
def readNumber (name : String) (r : Registers R) : Except Error R :=
  match r.memory[name]? with
  | some v => v.number?
  | none => .ok NumberSystem.zero

end Registers

namespace Machine

variable {R W : Type}

/-- The number of instructions from one poll to the next. -/
def period (m : Machine R W) : Nat :=
  max m.interval 1

/-- What the hook answers; without a hook no run is broken. -/
def poll (m : Machine R W) (w : W) : Bool × W :=
  match m.hook with
  | some hook => hook w
  | none => (false, w)

/-- The run goes on as `next` says, unless the hook breaks it. -/
def polling (m : Machine R W) (r : Registers R) (w : W) (next : Progress R) : Progress R × W :=
  match m.poll w with
  | (true, w) => (r.fail { code := .break }, w)
  | (false, w) => (next, w)

/-- Polls before a branch that does not go forward. -/
def pollingBack (m : Machine R W) (target : Nat) (r : Registers R) (w : W) (next : Progress R) :
    Progress R × W :=
  if target ≤ r.address then m.polling r w next else (next, w)

/-- Binds a native under its name in upper case. -/
def bind (m : Machine R W) (name : String) (native : Native R W) : Machine R W :=
  { m with natives := m.natives.insert (Text.upper name) native }

variable [NumberSystem R]

/-- Makes a script the code of the machine. -/
def load (m : Machine R W) (script : String) : Except Error (Machine R W) := do
  let linked ← LinkedCode.link (← Script.read script)
  return { m with linked }

/-- Calls a native with arguments off the stack. `keep` says what becomes of its result. -/
def callNative (m : Machine R W) (name : String) (count : Nat)
    (keep : Value R → Registers R → Progress R) (r : Registers R) (w : W) : Progress R × W :=
  match r.stack.popN count with
  | (.error e, stack) => ({ r with stack }.fail e, w)
  | (.ok args, stack) =>
    let r := { r with stack }
    match m.natives[name]? with
    | none => (r.fail (ErrorCode.undefinedFunction.error name), w)
    | some native =>
      match native args w with
      | (.value v, w) => (keep v r.forward, w)
      | (.error e, w) => (r.fail e, w)
      | (.panic, w) => (.ended .panicked r, w)

/-- Steps a loop variable. -/
def loop (m : Machine R W) (var limit step : String) (body : Nat) (r : Registers R) (w : W) :
    Progress R × W :=
  let numbers : Except Error (R × R × R) := do
    let limit ← r.readNumber limit
    let step ← r.readNumber step
    return (limit, step, ← r.readNumber var)
  match numbers with
  | .error e => (r.fail e, w)
  | .ok (limit, step, value) =>
    let value := NumberSystem.add value step
    let r := r.assign var (.number value)
    let more :=
      if NumberSystem.atLeastZero step then NumberSystem.atMost value limit
      else NumberSystem.atMost limit value
    if more then m.polling r w (.running (r.goTo body)) else (.running r.forward, w)

/-- Executes one instruction. -/
def execute (m : Machine R W) (i : Instruction R Nat) (r : Registers R) (w : W) :
    Progress R × W :=
  match i with
  | .label _ => (.running r.forward, w)
  | .line number => (.running { r.forward with line := some number }, w)
  | .literal v => (r.forward.pushing v, w)
  | .push name => (r.forward.pushing (r.read name), w)
  | .pop name =>
    match r.stack.pop with
    | (.error e, stack) => ({ r with stack }.fail e, w)
    | (.ok v, stack) =>
      let r := { r with stack }
      if v.type = ValueType.ofName name then (.running (r.forward.assign name v), w)
      else (r.fail { code := .typeMismatch }, w)
  | .jump target => m.pollingBack target r w (.running (r.goTo target))
  | .ifNot target =>
    match r.stack.pop with
    | (.error e, stack) => ({ r with stack }.fail e, w)
    | (.ok v, stack) =>
      let r := { r with stack }
      match v.isTrue? with
      | .error e => (r.fail e, w)
      | .ok true => (.running r.forward, w)
      | .ok false => (.running (r.goTo target), w)
  | .gosub target =>
    m.pollingBack target r w <|
      match r.returns.push (r.address + 1) with
      | .ok returns => .running { r.goTo target with returns }
      | .error e => r.fail e
  | .return =>
    match r.returns.pop with
    | (.ok address, returns) => (.running { r.goTo address with returns }, w)
    | (.error _, returns) => ({ r with returns }.fail { code := .returnWithoutGosub }, w)
  | .next var limit step body => m.loop var limit step body r w
  | .end => (.ended .finished r, w)
  | .call name count => m.callNative name count (fun v r => r.pushing v) r w
  | .exec name count => m.callNative name count (fun _ r => .running r) r w
  | .unary op =>
    match r.stack.pop with
    | (.error e, stack) => ({ r with stack }.fail e, w)
    | (.ok v, stack) => ({ r.forward with stack }.pushingResult (op.apply v), w)
  | .binary op =>
    match r.stack.pop2 with
    | (.error e, stack) => ({ r with stack }.fail e, w)
    | (.ok (x, y), stack) => ({ r.forward with stack }.pushingResult (op.apply x y), w)

/-- One step of a run: a poll if one is due, then an instruction. A run that has left the code is over. -/
def step (m : Machine R W) (r : Registers R) (w : W) : Progress R × W :=
  match m.linked.code[r.address]? with
  | none => (.ended .finished r, w)
  | some i =>
    if r.countdown ≤ 1 then
      let r := { r with countdown := m.period }
      match m.poll w with
      | (true, w) => (r.fail { code := .break }, w)
      | (false, w) => m.execute i r w
    else m.execute i { r with countdown := r.countdown - 1 } w

/-- The registers at the start of a run from an entry label. -/
def start (m : Machine R W) (entry : String) : Except Error (Registers R) :=
  match m.linked.labels[entry]? with
  | some address => .ok { address, countdown := m.period }
  | none => .error (ErrorCode.undefinedLine.error ("NO ENTRY " ++ entry))

/-- At most `fuel` steps of a run. -/
def advance (m : Machine R W) : Nat → Registers R → W → Progress R × W
  | 0, r, w => (.running r, w)
  | fuel + 1, r, w =>
    match m.step r w with
    | (.running r, w) => m.advance fuel r w
    | (.ended ending r, w) => (.ended ending r, w)

end Machine

end LineBasic
