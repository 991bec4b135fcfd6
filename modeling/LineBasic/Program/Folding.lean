import LineBasic.Program
/-!
Constant folding: an operator whose operands are literals is replaced by the literal of its result. An operator that fails,
or whose result is not finite, stays, so that the failure is reported when the line runs, if it does.
-/
namespace LineBasic

variable {R : Type} [NumberSystem R]

namespace Expr

/-- The value of a literal. -/
def literal? : Expr R → Option (Value R)
  | number _ n => some (.number n)
  | string _ s => some (.string s)
  | _ => none

/-- The literal of a result, or `e` if there is no result worth one. -/
def orLiteral (e : Expr R) : Except Error (Value R) → Expr R
  | .ok (.number n) => if NumberSystem.isFinite n then number e.column n else e
  | .ok (.string s) => string e.column s
  | .error _ => e

mutual

/-- An expression with its constant parts evaluated. -/
def fold : Expr R → Expr R
  | call column name args => call column name (foldAll args)
  | unary op column e =>
    let e := e.fold
    match e.literal? with
    | some v => (unary op column e).orLiteral (op.apply v)
    | none => unary op column e
  | binary op column l r =>
    let l := l.fold
    let r := r.fold
    match l.literal?, r.literal? with
    | some v, some w => (binary op column l r).orLiteral (op.apply v w)
    | _, _ => binary op column l r
  | e => e

/-- Expressions with their constant parts evaluated. -/
def foldAll : List (Expr R) → List (Expr R)
  | [] => []
  | e :: es => e.fold :: foldAll es

end

end Expr

namespace Stmt

mutual

/-- A statement with the constant parts of its expressions evaluated. -/
def fold : Stmt R → Stmt R
  | call column name args => call column name (Expr.foldAll args)
  | print column items => print column (Expr.foldAll items)
  | .let column v e => .let column v e.fold
  | .for column v start limit step => .for column v start.fold limit.fold (step.map Expr.fold)
  | .if column condition thenBody elseBody =>
    .if column condition.fold (foldAll thenBody) (foldAll elseBody)
  | s => s

/-- Statements with the constant parts of their expressions evaluated. -/
def foldAll : List (Stmt R) → List (Stmt R)
  | [] => []
  | s :: ss => s.fold :: foldAll ss

end

end Stmt

/-- A program with the constant parts of its expressions evaluated. -/
def Program.fold (p : Program R) : Program R :=
  { lines := p.lines.map fun line => { line with statements := Stmt.foldAll line.statements } }

end LineBasic
