import LineBasic.Program.Code
import LineBasic.Proofs.Trace

/-!
What a program means, told without any code. First every NEXT gets the loop that it closes: loops pair by their place in
the text, so this is settled before a run. Then statements are performed one after the other; all that a run has to
remember of its place is what is left of the line, and the lines behind it.
-/

namespace LineBasic

variable {R W : Type}

/-- A loop: its FOR is the how-manieth of the text, and the variable that it
counts in. -/
structure Loop where
  number : Nat
  name : String
deriving DecidableEq, Repr

/-- A statement that knows its loop. -/
inductive Action (R : Type) where
  | call (name : String) (args : List (Expr R))
  | «end»
  | «for» (loop : Loop) (start limit : Expr R) (step : Option (Expr R))
  | gosub (line : LineNumber)
  | goto (line : LineNumber)
  | branch (condition : Expr R) (thenBody elseBody : List (Action R))
  | assign (name : String) (value : Expr R)
  /-- A NEXT, with the loop that it closes if there is one to close. -/
  | next (loop : Option Loop)
  | rem
  | «return»

structure ActionLine (R : Type) where
  number : LineNumber
  actions : List (Action R)

/-- How many loops the text has had up to some place, and which of them are
open there, the latest first. -/
structure Loops where
  count : Nat := 0
  opened : List Loop := []

namespace Loops

def «open» (name : String) (loops : Loops) : Loops where
  count := loops.count + 1
  opened := ⟨loops.count + 1, name⟩ :: loops.opened

/-- The loop that a NEXT closes, if it names the variable `v` or none at all. -/
def closed (v : Option Variable) (loops : Loops) : Option Loop :=
  match loops.opened with
  | [] => none
  | loop :: _ =>
      match v with
      | some v => if loop.name = v.name then some loop else none
      | none => some loop

def close (loops : Loops) : Loops :=
  { loops with opened := loops.opened.tail }

end Loops

namespace Stmt

mutual

/-- The statement with its loops, and the loops of the text behind it. -/
def pair (loops : Loops) : Stmt R → Action R × Loops
  | call _ name args => (.call name args, loops)
  | .end _ => (.end, loops)
  | .for _ v start limit step =>
      (.for ⟨loops.count + 1, v.name⟩ start limit step, loops.open v.name)
  | gosub _ t => (.gosub t.line, loops)
  | goto _ t => (.goto t.line, loops)
  | .if _ condition thenBody elseBody =>
      let (thenBody, loops) := pairAll loops thenBody
      let (elseBody, loops) := pairAll loops elseBody
      (.branch condition thenBody elseBody, loops)
  | .let _ v e => (.assign v.name e, loops)
  | next _ v => (.next (loops.closed v), loops.close)
  | print _ items => (.call "PRINT" items, loops)
  | rem _ => (.rem, loops)
  | .return _ => (.return, loops)

def pairAll (loops : Loops) : List (Stmt R) → List (Action R) × Loops
  | [] => ([], loops)
  | s :: ss =>
      let (action, loops) := s.pair loops
      let (actions, loops) := pairAll loops ss
      (action :: actions, loops)

end

end Stmt

namespace Program

def pairLines (loops : Loops) : List (ProgramLine R) → List (ActionLine R) × Loops
  | [] => ([], loops)
  | line :: lines =>
      let (actions, loops) := Stmt.pairAll loops line.statements
      let (rest, loops) := pairLines loops lines
      ({ number := line.number, actions } :: rest, loops)

/-- The lines of a program with their loops. -/
def actionLines (p : Program R) : List (ActionLine R) :=
  (pairLines {} p.lines).1

end Program

/-- Something that reads and changes a world, and may end the run. -/
def Effect (W α : Type) : Type :=
  W → Except Verdict α × W

namespace Effect

variable {α β : Type}

instance : Monad (Effect W) where
  pure a w := (.ok a, w)
  bind x f w :=
    match x w with
    | (.ok a, w) => f a w
    | (.error v, w) => (.error v, w)

def stop (v : Verdict) : Effect W α :=
  fun w => (.error v, w)

/-- An error ends the run. -/
def ofExcept (x : Except Error α) : Effect W α :=
  match x with
  | .ok a => pure a
  | .error e => stop (.failed e.code)

@[simp] theorem pure_apply (a : α) (w : W) : (pure a : Effect W α) w = (.ok a, w) :=
  rfl

@[simp] theorem stop_apply (v : Verdict) (w : W) :
    (stop v : Effect W α) w = (.error v, w) :=
  rfl

theorem bind_apply (x : Effect W α) (f : α → Effect W β) (w : W) :
    (x >>= f) w =
      match x w with
      | (.ok a, w) => f a w
      | (.error v, w) => (.error v, w) :=
  rfl

end Effect

abbrev Natives (R W : Type) := String → Option (Native R W)

abbrev Vars (R : Type) := String → Value R

def callEffect (natives : Natives R W) (name : String) (args : List (Value R)) :
    Effect W (Value R) :=
  fun w =>
    match natives name with
    | none => (.error (.failed .undefinedFunction), w)
    | some native =>
        match native args w with
        | (.value v, w) => (.ok v, w)
        | (.error e, w) => (.error (.failed e.code), w)
        | (.panic, w) => (.error .panicked, w)

variable [NumberSystem R]

namespace Expr

mutual

/-- The value of an expression; operands and arguments from left to right. -/
def value (natives : Natives R W) (vars : Vars R) : Expr R → Effect W (Value R)
  | number _ n => pure (.number n)
  | string _ s => pure (.string s)
  | char _ c => pure (.string (String.singleton c))
  | var _ name => pure (vars name)
  | call _ name args => do
      let args ← valueAll natives vars args
      callEffect natives name args
  | unary op _ e => do
      let x ← e.value natives vars
      Effect.ofExcept (op.apply x)
  | binary op _ l r => do
      let x ← l.value natives vars
      let y ← r.value natives vars
      Effect.ofExcept (op.apply x y)

def valueAll (natives : Natives R W) (vars : Vars R) :
    List (Expr R) → Effect W (List (Value R))
  | [] => pure []
  | e :: es => do
      let v ← e.value natives vars
      let vs ← valueAll natives vars es
      pure (v :: vs)

end

end Expr

/-- A place in a program: what is left of the line, and the lines behind it. -/
structure Point (R : Type) where
  rest : List (Action R)
  lines : List (ActionLine R)

mutual

/-- What is left of the line behind the FOR of loop `number`, if that is in the
action, which `after` follows. -/
def Action.behind? (number : Nat) (after : List (Action R)) :
    Action R → Option (List (Action R))
  | .for loop _ _ _ => if loop.number = number then some after else none
  | .branch _ thenBody elseBody =>
      (behindAll? number after thenBody).or (behindAll? number after elseBody)
  | _ => none

def behindAll? (number : Nat) (after : List (Action R)) :
    List (Action R) → Option (List (Action R))
  | [] => none
  | action :: actions =>
      (action.behind? number (actions ++ after)).or (behindAll? number after actions)

end

namespace Point

/-- The place behind the FOR of loop `number`. -/
def behind? (number : Nat) : List (ActionLine R) → Option (Point R)
  | [] => none
  | line :: lines =>
      match behindAll? number [] line.actions with
      | some rest => some ⟨rest, lines⟩
      | none => behind? number lines

/-- The place in front of line `number`. -/
def at? (number : LineNumber) : List (ActionLine R) → Option (Point R)
  | [] => none
  | line :: lines =>
      if line.number = number then some ⟨[], line :: lines⟩ else at? number lines

end Point

/-- What a run has to remember: its place, the variables, the limit and the
step of each loop, and the places behind the GOSUBs that wait for a RETURN,
the latest first. -/
structure Moment (R : Type) where
  point : Point R
  vars : Vars R
  limits : Nat → R
  steps : Nat → R
  returns : List (Point R)

namespace Moment

/-- The start of a run: variables are zero or empty, registers zero. -/
def start (lines : List (ActionLine R)) : Moment R where
  point := ⟨[], lines⟩
  vars := Value.default
  limits _ := NumberSystem.zero
  steps _ := NumberSystem.zero
  returns := []

/-- An assignment; the value has to have the type that the name asks for. -/
def assign (name : String) (v : Value R) (t : Moment R) : Effect W (Moment R) :=
  if v.type = ValueType.ofName name then
    pure { t with vars := Function.update t.vars name v }
  else Effect.stop (.failed .typeMismatch)

/-- The run goes on at a place, or ends with an error if there is none. -/
def goTo (point : Option (Point R)) (otherwise : ErrorCode) (t : Moment R) :
    Effect W (Moment R) :=
  match point with
  | some point => pure { t with point }
  | none => Effect.stop (.failed otherwise)

/-- Remembers the place for a RETURN, unless `depth` places are remembered. -/
def remember (depth : Option Nat) (t : Moment R) : Effect W (Moment R) :=
  if depth.all (t.returns.length < ·) then
    pure { t with returns := t.point :: t.returns }
  else Effect.stop (.failed .outOfMemory)

/-- The rest of a loop's NEXT: the variable gets its step, and the run goes on
behind the FOR unless it has passed the limit in the direction of the step. -/
def turn (lines : List (ActionLine R)) (loop : Loop) (value : R) (t : Moment R) :
    Effect W (Moment R) := do
  let limit := t.limits loop.number
  let step := t.steps loop.number
  let value := NumberSystem.add value step
  let t := { t with vars := Function.update t.vars loop.name (.number value) }
  let more :=
    if NumberSystem.atLeastZero step then NumberSystem.atMost value limit
    else NumberSystem.atMost limit value
  if more then t.goTo (Point.behind? loop.number lines) .nextWithoutFor else pure t

end Moment

/-- The step of a loop, which is one unless the FOR says more. -/
def stepValue (natives : Natives R W) (vars : Vars R) : Option (Expr R) → Effect W (Value R)
  | some e => e.value natives vars
  | none => pure (.number NumberSystem.one)

/-- Performs an action of a program, in a moment whose place is behind it. -/
def Action.perform (natives : Natives R W) (depth : Option Nat)
    (lines : List (ActionLine R)) (t : Moment R) : Action R → Effect W (Moment R)
  | .call name args => do
      let args ← Expr.valueAll natives t.vars args
      let _ ← callEffect natives name args
      pure t
  | .end => Effect.stop .finished
  | .for loop start limit step => do
      let start ← start.value natives t.vars
      let t ← t.assign loop.name start
      let limit ← limit.value natives t.vars
      let limit ← Effect.ofExcept limit.number?
      let step ← stepValue natives t.vars step
      let step ← Effect.ofExcept step.number?
      pure { t with
        limits := Function.update t.limits loop.number limit
        steps := Function.update t.steps loop.number step }
  | .gosub line => do
      let t ← t.remember depth
      t.goTo (Point.at? line lines) .undefinedLine
  | .goto line => t.goTo (Point.at? line lines) .undefinedLine
  | .branch condition thenBody elseBody => do
      let v ← condition.value natives t.vars
      let holds ← Effect.ofExcept v.isTrue?
      let body := if holds then thenBody else elseBody
      pure { t with point := ⟨body ++ t.point.rest, t.point.lines⟩ }
  | .assign name e => do
      let v ← e.value natives t.vars
      t.assign name v
  | .next none => Effect.stop (.failed .nextWithoutFor)
  | .next (some loop) => do
      let value ← Effect.ofExcept (t.vars loop.name).number?
      t.turn lines loop value
  | .rem => pure t
  | .return =>
      match t.returns with
      | [] => Effect.stop (.failed .returnWithoutGosub)
      | point :: returns => pure { t with point, returns }

/-- One step of a run: the next action of the line, or the next line. -/
def Moment.next (natives : Natives R W) (depth : Option Nat)
    (lines : List (ActionLine R)) (t : Moment R) : Effect W (Moment R) :=
  match t.point with
  | ⟨[], []⟩ => Effect.stop .finished
  | ⟨[], line :: later⟩ => pure { t with point := ⟨line.actions, later⟩ }
  | ⟨action :: rest, later⟩ =>
      action.perform natives depth lines { t with point := ⟨rest, later⟩ }

/-- The run of a program as a process, where at most `depth` GOSUBs may wait
for their RETURN. -/
def interpretation (natives : Natives R W) (depth : Option Nat)
    (lines : List (ActionLine R)) : Process (Moment R × W) (Verdict × W) where
  step s :=
    match s.1.next natives depth lines s.2 with
    | (.ok t, w) => .inl (t, w)
    | (.error v, w) => .inr (v, w)

end LineBasic
