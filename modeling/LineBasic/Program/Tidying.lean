import LineBasic.Program
/-!
Tidying a checked program: remarks and assignments of a variable to itself go, and so does what stands behind an END, GOTO
or RETURN on the same line. An IF on a literal gives way to the branch that it takes. FOR and NEXT always stay, since
they pair by their place in the text.
-/
namespace LineBasic

variable {R : Type} [NumberSystem R]

namespace Stmt

/-- An assignment of a variable to itself. -/
def isSelfAssignment : Stmt R → Bool
  | .let _ v (.var _ name) => v.name == name
  | _ => false

/-- A statement that pairs with another one. -/
def pairs : Stmt R → Bool
  | .for _ _ _ _ _ | next _ _ => true
  | _ => false

mutual

/-- What becomes of one statement that control can reach. -/
def tidy : Stmt R → List (Stmt R)
  | rem _ => []
  | .if column condition thenBody elseBody =>
    let thenTidy := tidyAll false thenBody
    let elseTidy := tidyAll false elseBody
    match condition with
    | .number _ n =>
      if anyHasLoop thenBody || anyHasLoop elseBody then
        [.if column condition thenTidy elseTidy]
      else if NumberSystem.isZero n then elseTidy else thenTidy
    | _ => [.if column condition thenTidy elseTidy]
  | s => if s.isSelfAssignment then [] else [s]

/-- What becomes of a list of statements, where `dead` says that control cannot reach the first of them. -/
def tidyAll (dead : Bool) : List (Stmt R) → List (Stmt R)
  | [] => []
  | s :: ss =>
    if dead then if s.pairs then s :: tidyAll true ss else tidyAll true ss
    else
      let kept := s.tidy
      kept ++ tidyAll (kept.any isTerminal) ss

end

end Stmt

/-- A program without what has no effect. -/
def Program.tidy (p : Program R) : Program R :=
  { lines := p.lines.map fun line => { line with statements := Stmt.tidyAll false line.statements } }

end LineBasic
