import LineBasic.Program
import LineBasic.Script
/-!
The code of a program. A line starts with its label and its line marker; an expression leaves its value on the stack; a
loop keeps its limit and its step in two variables that no program can name.

Code is first laid out as a stream in which a statement that has no code leaves its error. Assembling the stream
stops at the first error, or where the code gets too large.
-/
namespace LineBasic

variable {R : Type}

/-- The label of a line. -/
def lineLabel (number : LineNumber) : String :=
  "L" ++ toString number

/-- The labels and variables of the `k`-th branch or loop of a program. -/
structure Place where
  k : Nat

namespace Place

/-- The label in front of the ELSE body. -/
def otherwise (p : Place) : String := "E" ++ toString p.k

/-- The label behind an IF. -/
def exit (p : Place) : String := "X" ++ toString p.k

/-- The label in front of a loop body. -/
def body (p : Place) : String := "F" ++ toString p.k

/-- The variable that holds the limit of a loop. -/
def limit (p : Place) : String := "%L" ++ toString p.k

/-- The variable that holds the step of a loop. -/
def step (p : Place) : String := "%S" ++ toString p.k

end Place

/-- What is counted while code is laid out: branches, loops, and the loops that are open, the latest first. -/
structure Tally where
  branches : Nat := 0
  loops : Nat := 0
  openLoops : List (Place × String) := []

/-- One piece of a program's code: an instruction, or the reason why there is none; and the line it belongs to,
if it stems from a statement. -/
structure Emission (R : Type) where
  instruction : Except Error (Instruction R String)
  line : Option LineNumber

namespace Expr

mutual

/-- The code that pushes the value of an expression. -/
def code [NumberSystem R] : Expr R → List (Instruction R String)
  | number _ n => [.literal (.number n)]
  | string _ s => [.literal (.string s)]
  | char _ c => [.literal (.string (String.singleton c))]
  | var _ name => [.push name]
  | call _ name args => codeAll args ++ [.call name args.length]
  | unary op _ e => e.code ++ [.unary op]
  | binary op _ l r => l.code ++ r.code ++ [.binary op]

/-- The code that pushes the values of expressions in order. -/
def codeAll [NumberSystem R] : List (Expr R) → List (Instruction R String)
  | [] => []
  | e :: es => e.code ++ codeAll es

end

end Expr

namespace Stmt

variable [NumberSystem R]

/-- Code without errors. -/
def plain (code : List (Instruction R String)) : List (Except Error (Instruction R String)) :=
  code.map .ok

/-- The code of a FOR, which is the loop at `place`. -/
def loopCode (place : Place) (v : Variable) (start limit : Expr R) (step : Option (Expr R)) :
    List (Instruction R String) :=
  start.code ++ [.pop v.name] ++ limit.code ++ [.pop place.limit] ++
    (match step with
      | some step => step.code
      | none => [.literal (.number NumberSystem.one)]) ++
    [.pop place.step, .label place.body]

/-- The NEXT of the loop at `place` over the variable `name`. -/
def nextCode (place : Place) (name : String) : Instruction R String :=
  .next name place.limit place.step place.body

mutual

/-- The code of a statement, and the tally behind it. -/
def code (tally : Tally) : Stmt R → List (Except Error (Instruction R String)) × Tally
  | call _ name args => (plain (Expr.codeAll args ++ [.exec name args.length]), tally)
  | print _ items => (plain (Expr.codeAll items ++ [.exec "PRINT" items.length]), tally)
  | .end _ => (plain [.end], tally)
  | .return _ => (plain [.return], tally)
  | rem _ => ([], tally)
  | goto _ t => (plain [.jump (lineLabel t.line)], tally)
  | gosub _ t => (plain [.gosub (lineLabel t.line)], tally)
  | .let _ v e => (plain (e.code ++ [.pop v.name]), tally)
  | .if _ condition thenBody elseBody =>
    let place : Place := ⟨tally.branches + 1⟩
    let (thenCode, tally) := codeAll { tally with branches := tally.branches + 1 } thenBody
    let front := plain (condition.code ++ [.ifNot place.otherwise]) ++ thenCode
    if elseBody.isEmpty then (front ++ plain [.label place.otherwise], tally)
    else
      let (elseCode, tally) := codeAll tally elseBody
      (front ++ plain [.jump place.exit, .label place.otherwise] ++ elseCode ++
        plain [.label place.exit], tally)
  | .for _ v start limit step =>
    let place : Place := ⟨tally.loops + 1⟩
    (plain (loopCode place v start limit step),
      { tally with
        loops := tally.loops + 1
        openLoops := (place, v.name) :: tally.openLoops })
  | next column v =>
    match tally.openLoops with
    | [] => ([.error { code := .nextWithoutFor, column }], tally)
    | (place, name) :: openLoops =>
      let tally := { tally with openLoops }
      match v with
      | some v =>
        if v.name = name then (plain [nextCode place name], tally)
        else ([.error (ErrorCode.nextWithoutFor.errorAt v.column v.name)], tally)
      | none => (plain [nextCode place name], tally)

/-- The code of statements in order, and the tally behind them. -/
def codeAll (tally : Tally) : List (Stmt R) → List (Except Error (Instruction R String)) × Tally
  | [] => ([], tally)
  | s :: ss =>
    let (code, tally) := s.code tally
    let (rest, tally) := codeAll tally ss
    (code ++ rest, tally)

end

end Stmt

namespace Program

variable [NumberSystem R]

/-- The code of lines in order, and the tally behind them. -/
def lineEmissions (tally : Tally) : List (ProgramLine R) → List (Emission R) × Tally
  | [] => ([], tally)
  | line :: lines =>
    let (code, tally) := Stmt.codeAll tally line.statements
    let (rest, tally) := lineEmissions tally lines
    ({ instruction := .ok (.label (lineLabel line.number)), line := none } ::
      { instruction := .ok (.line line.number), line := none } ::
      code.map (fun i => { instruction := i, line := some line.number }) ++ rest, tally)

/-- The code of a program, from its entry label to the END that stops a run behind the last line. -/
def emissions (p : Program R) : List (Emission R) :=
  let (code, tally) := lineEmissions {} p.lines
  { instruction := .ok (.label Script.entry), line := none } :: code ++
    { instruction := .ok .end, line := none } ::
    (match tally.openLoops with
      | [] => []
      | (_, name) :: _ =>
        [{ instruction := .error (ErrorCode.forWithoutNext.error name), line := none }])

/-- The most instructions that a program may have, labels counted. -/
def maxCode : Nat := 65535

/-- An error of the piece of code in the given line, if that is known. -/
def Emission.locate (line : Option LineNumber) (e : Error) : Error :=
  match line with
  | some n => e.inLine n
  | none => e

/-- Appends the instructions of a stream, up to the first error. -/
def assembleFrom (done : Array (Instruction R String)) :
    List (Emission R) → Except Error (Array (Instruction R String))
  | [] => .ok done
  | piece :: rest =>
    match piece.instruction with
    | .error e => .error (Emission.locate piece.line e)
    | .ok i =>
      if done.size < maxCode then assembleFrom (done.push i) rest
      else .error (Emission.locate piece.line (ErrorCode.outOfMemory.error "PROGRAM TOO LARGE"))

/-- The code of a program. -/
def code (p : Program R) : Except Error (List (Instruction R String)) := do
  return (← assembleFrom #[] p.emissions).toList

end Program

end LineBasic
