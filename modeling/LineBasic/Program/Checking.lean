import LineBasic.Program
import LineBasic.Signature
/-!
Checking a program before it is compiled: targets exist, natives are called as declared, numbers and strings are not
mixed, and every NEXT closes the latest FOR that is still open.
-/
namespace LineBasic

variable {R : Type}

/-- A FOR that no NEXT has closed yet. -/
structure OpenLoop where
  line : LineNumber
  column : Column
  name : String
deriving DecidableEq, Repr

namespace Expr

/-- A type mismatch in the given range. -/
def mismatch (column : Column) : Error :=
  { code := .typeMismatch, column }

/-- The type of `e`, or a mismatch unless it is `type`. -/
def expectType (type found : ValueType) (e : Expr R) : Except Error Unit :=
  if found = type then .ok () else .error (mismatch e.column)

/-- The signature of the native `name` in a call with `count` arguments. -/
def signature? (registry : Registry) (column : Column) (name : String) (count : Nat) :
    Except Error Signature :=
  match registry.get? name with
  | none => .error (ErrorCode.undefinedFunction.errorAt column name)
  | some signature =>
    if signature.accepts count then .ok signature
    else .error (ErrorCode.illegalFunctionCall.errorAt column "WRONG NUMBER OF ARGUMENTS")

mutual

/-- The type of an expression. -/
def check (registry : Registry) : Expr R → Except Error ValueType
  | number _ _ => .ok .number
  | string _ _ => .ok .string
  | char _ _ => .ok .string
  | var _ name => .ok (.ofName name)
  | call column name args => do
    let signature ← signature? registry column name args.length
    checkArgs registry signature 0 args
    match signature.result with
    | some type => .ok type
    | none => .error (ErrorCode.illegalFunctionCall.errorAt column "NO VALUE")
  | unary _ _ e => do
    e.expectType .number (← e.check registry)
    return .number
  | binary .add column l r => do
    let left ← l.check registry
    let right ← r.check registry
    if left = right then .ok left else .error (mismatch column)
  | binary op column l r =>
    match op with
    | .equal | .notEqual | .less | .lessEqual | .greater | .greaterEqual => do
      let left ← l.check registry
      let right ← r.check registry
      if left = right then .ok .number else .error (mismatch column)
    | _ => do
      l.expectType .number (← l.check registry)
      r.expectType .number (← r.check registry)
      return .number

/-- The arguments from position `index` on have the types that the signature asks for. -/
def checkArgs (registry : Registry) (signature : Signature) (index : Nat) :
    List (Expr R) → Except Error Unit
  | [] => .ok ()
  | e :: es => do
    let found ← e.check registry
    match signature.parameter? index with
    | some type => e.expectType type found
    | none => .ok ()
    checkArgs registry signature (index + 1) es

end

/-- An expression is a number. -/
def checkNumber (registry : Registry) (e : Expr R) : Except Error Unit := do
  e.expectType .number (← e.check registry)

end Expr

namespace Stmt

/-- What statements are checked against: the natives, the lines of the program, and the line they stand in. -/
structure Surroundings where
  registry : Registry
  lines : List LineNumber
  line : LineNumber

/-- The line that a target names is there. -/
def checkTarget (around : Surroundings) (t : Target) : Except Error Unit :=
  if around.lines.contains t.line then .ok ()
  else .error (ErrorCode.undefinedLine.errorAt t.column (toString t.line))

/-- All the expressions are well typed. -/
def checkItems (registry : Registry) : List (Expr R) → Except Error Unit
  | [] => .ok ()
  | e :: es => do
    let _ ← e.check registry
    checkItems registry es

mutual

/-- Checks a statement. The loops that are open before it, the latest first, become those open behind it. -/
def check (around : Surroundings) (loops : List OpenLoop) : Stmt R → Except Error (List OpenLoop)
  | .end _ | rem _ | .return _ => .ok loops
  | goto _ t | gosub _ t => do
    checkTarget around t
    return loops
  | print _ items => do
    checkItems around.registry items
    return loops
  | .let _ v e => do
    e.expectType (.ofName v.name) (← e.check around.registry)
    return loops
  | .if _ condition thenBody elseBody => do
    condition.checkNumber around.registry
    let loops ← checkAll around loops thenBody
    checkAll around loops elseBody
  | .for column v start limit step =>
    if namesString v.name then .error (Expr.mismatch v.column)
    else do
      start.checkNumber around.registry
      limit.checkNumber around.registry
      match step with
      | some step => step.checkNumber around.registry
      | none => .ok ()
      return { line := around.line, column, name := v.name } :: loops
  | next column v =>
    match loops, v with
    | [], _ => .error { code := .nextWithoutFor, column }
    | loop :: loops, some v =>
      if loop.name = v.name then .ok loops
      else .error (ErrorCode.nextWithoutFor.errorAt v.column v.name)
    | _ :: loops, none => .ok loops
  | call column name args => do
    let signature ← Expr.signature? around.registry column name args.length
    Expr.checkArgs around.registry signature 0 args
    return loops

/-- Checks statements in order. -/
def checkAll (around : Surroundings) (loops : List OpenLoop) :
    List (Stmt R) → Except Error (List OpenLoop)
  | [] => .ok loops
  | s :: ss => do
    let loops ← s.check around loops
    checkAll around loops ss

end

end Stmt

namespace Program

/-- The numbers of the lines of a program. -/
def numbers (p : Program R) : List LineNumber :=
  p.lines.map ProgramLine.number

/-- Checks lines in order. -/
def checkLines (registry : Registry) (numbers : List LineNumber) (loops : List OpenLoop) :
    List (ProgramLine R) → Except Error (List OpenLoop)
  | [] => .ok loops
  | line :: lines =>
    match Stmt.checkAll { registry, lines := numbers, line := line.number } loops line.statements with
    | .error e => .error (e.orLine line.number)
    | .ok loops => checkLines registry numbers loops lines

/-- Checks a program. A loop that is still open at its end is reported where it was opened. -/
def check (registry : Registry) (p : Program R) : Except Error Unit := do
  match ← checkLines registry p.numbers [] p.lines with
  | [] => return ()
  | loop :: _ =>
    .error ((ErrorCode.forWithoutNext.errorAt loop.column loop.name).inLine loop.line)

end Program

end LineBasic
