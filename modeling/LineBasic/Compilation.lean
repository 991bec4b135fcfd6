import LineBasic.Program.Parsing
import LineBasic.Program.Checking
import LineBasic.Program.Folding
import LineBasic.Program.Tidying
import LineBasic.Program.Flow
import LineBasic.Program.Code
/-!
From the text of a program to its script. Every stage works on the result of the one before it, and the first failure
ends the compilation.
-/
namespace LineBasic

/-- The passes that a compilation may leave out. -/
structure Flags where
  /-- Constants are folded. -/
  ast : Bool := true
  /-- Statements without effect are dropped. -/
  peephole : Bool := true
deriving DecidableEq, Repr, Inhabited

/-- The stages that a compilation can fail in. -/
inductive Stage where
  | lex
  | parse
  | semantic
  | codegen
deriving DecidableEq, Repr

/-- The word that a stage is reported with. -/
def Stage.text : Stage → String
  | lex => "lex"
  | parse => "parse"
  | semantic => "semantic"
  | codegen => "codegen"

/-- Why a program was not compiled. -/
structure CompileError where
  stage : Stage
  error : Error
deriving DecidableEq, Repr

/-- The wording of a compile error. -/
def CompileError.message (e : CompileError) : String :=
  e.stage.text ++ " error: " ++ e.error.message

/-- The result of a stage. -/
def Stage.run {α : Type} (stage : Stage) : Except Error α → Except CompileError α
  | .ok a => .ok a
  | .error error => .error { stage, error }

variable {R : Type} [NumberSystem R]

namespace Program

/-- The tree of a program text, checked. -/
def read (registry : Registry) (source : String) : Except CompileError (Program R) := do
  let lines ← Stage.lex.run (LexedLine.lex source)
  let p ← Stage.parse.run (parse lines)
  Stage.semantic.run (p.check registry)
  return p

/-- A checked program, changed as the flags say and without unreachable lines. -/
def optimize (flags : Flags) (p : Program R) : Program R :=
  let p := if flags.ast then p.fold else p
  let p := if flags.peephole then p.tidy else p
  (Flow.ofProgram p).prune p

/-- The instructions of a program text. -/
def instructions (registry : Registry) (flags : Flags) (source : String) :
    Except CompileError (List (Instruction R String)) := do
  let p ← read registry source
  Stage.codegen.run (p.optimize flags).code

end Program

/-- The script of a program text, computing with the numbers of `R`. -/
def compile (R : Type) [NumberSystem R] (registry : Registry) (flags : Flags) (source : String) :
    Except CompileError Script := do
  let code ← Program.instructions (R := R) registry flags source
  Stage.codegen.run (Script.emit code)

end LineBasic
