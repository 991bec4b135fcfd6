import LineBasic.Error
import LineBasic.Value.Operation
/-!
The tree of a program: expressions, statements, and lines of statements in ascending order. Every part knows the
bytes of its line that it was read from. `visits` walks a statement, children first.
-/
namespace LineBasic

/-- An expression. -/
inductive Expr (R : Type) where
  | number (column : Column) (n : R)
  | string (column : Column) (s : String)
  /-- One character that PRINT adds by itself. -/
  | char (column : Column) (c : Char)
  | var (column : Column) (name : String)
  /-- The call of a native for its result. -/
  | call (column : Column) (name : String) (args : List (Expr R))
  | unary (op : UnaryOp) (column : Column) (operand : Expr R)
  | binary (op : BinaryOp) (column : Column) (left right : Expr R)
deriving Repr, Inhabited

/-- A variable that a statement assigns or names. -/
structure Variable where
  column : Column
  name : String
deriving DecidableEq, Repr, Inhabited

/-- A line number that control may go to. -/
structure Target where
  column : Column
  line : LineNumber
deriving DecidableEq, Repr, Inhabited

/-- A statement. -/
inductive Stmt (R : Type) where
  /-- The call of a native for its effect. -/
  | call (column : Column) (name : String) (args : List (Expr R))
  | «end» (column : Column)
  | «for» (column : Column) (var : Variable) (start limit : Expr R) (step : Option (Expr R))
  | gosub (column : Column) (target : Target)
  | goto (column : Column) (target : Target)
  | «if» (column : Column) (condition : Expr R) (thenBody elseBody : List (Stmt R))
  | «let» (column : Column) (var : Variable) (value : Expr R)
  | next (column : Column) (var : Option Variable)
  | print (column : Column) (items : List (Expr R))
  | rem (column : Column)
  | «return» (column : Column)
deriving Repr, Inhabited

/-- A line of a program. -/
structure ProgramLine (R : Type) where
  number : LineNumber
  statements : List (Stmt R)
deriving Repr, Inhabited

/-- A program, its lines in ascending order. -/
structure Program (R : Type) where
  lines : List (ProgramLine R) := []
deriving Repr, Inhabited

/-- A part of a statement that a walk comes by. -/
inductive Visit (R : Type) where
  | statement (s : Stmt R)
  | variable (v : Variable)
  | target (t : Target)
  | expression (e : Expr R)

variable {R : Type}

namespace Expr

/-- The bytes that an expression is reported at: those of its operator, or of its only token. -/
def column : Expr R → Column
  | number column _ => column
  | string column _ => column
  | char column _ => column
  | var column _ => column
  | call column _ _ => column
  | unary _ column _ => column
  | binary _ column _ _ => column

mutual

/-- The expressions in an expression, operands before their operator. -/
def visits : Expr R → List (Visit R)
  | call column name args => visitsAll args ++ [.expression (call column name args)]
  | unary op column e => e.visits ++ [.expression (unary op column e)]
  | binary op column l r => l.visits ++ r.visits ++ [.expression (binary op column l r)]
  | e => [.expression e]

/-- The expressions in a list of expressions. -/
def visitsAll : List (Expr R) → List (Visit R)
  | [] => []
  | e :: es => e.visits ++ visitsAll es

end

end Expr

namespace Stmt

/-- The bytes of the token that a statement begins with. -/
def column : Stmt R → Column
  | call column _ _ => column
  | .end column => column
  | .for column _ _ _ _ => column
  | gosub column _ => column
  | goto column _ => column
  | .if column _ _ _ => column
  | .let column _ _ => column
  | next column _ => column
  | print column _ => column
  | rem column => column
  | .return column => column

/-- Control never reaches the statement behind this one. -/
def isTerminal : Stmt R → Bool
  | .end _ | goto _ _ | .return _ => true
  | _ => false

mutual

/-- There is a FOR or a NEXT in a statement. -/
def hasLoop : Stmt R → Bool
  | .for _ _ _ _ _ | next _ _ => true
  | .if _ _ thenBody elseBody => anyHasLoop thenBody || anyHasLoop elseBody
  | _ => false

/-- There is a FOR or a NEXT in one of the statements. -/
def anyHasLoop : List (Stmt R) → Bool
  | [] => false
  | s :: ss => s.hasLoop || anyHasLoop ss

end

mutual

/-- The parts of a statement in the order they are written, each after its own parts. -/
def visits : Stmt R → List (Visit R)
  | call column name args => Expr.visitsAll args ++ [.statement (call column name args)]
  | .for column v start limit step =>
    .variable v :: (start.visits ++ limit.visits ++ (step.map Expr.visits).getD [] ++
      [.statement (.for column v start limit step)])
  | gosub column t => [.target t, .statement (gosub column t)]
  | goto column t => [.target t, .statement (goto column t)]
  | .if column condition thenBody elseBody =>
    condition.visits ++ visitsAll thenBody ++ visitsAll elseBody ++
      [.statement (.if column condition thenBody elseBody)]
  | .let column v e => .variable v :: (e.visits ++ [.statement (.let column v e)])
  | next column v => (v.map Visit.variable).toList ++ [.statement (next column v)]
  | print column items => Expr.visitsAll items ++ [.statement (print column items)]
  | s => [.statement s]

/-- The parts of a list of statements. -/
def visitsAll : List (Stmt R) → List (Visit R)
  | [] => []
  | s :: ss => s.visits ++ visitsAll ss

end

end Stmt

/-- The line number that a walk comes by. -/
def Visit.target? : Visit R → Option Target
  | target t => some t
  | _ => none

/-- The line numbers in a list of statements, in the order they are written. -/
def Stmt.targets (statements : List (Stmt R)) : List Target :=
  (visitsAll statements).filterMap Visit.target?

end LineBasic
