import LineBasic.Instruction.Text
import LineBasic.LinkedCode
/-!
Scripts: the text in which a program is handed to a machine. There is one instruction a line, labels at the margin and
everything else indented; lines that start with a semicolon are comments.
-/
namespace LineBasic

open Text

/-- The text form of a list of instructions. -/
structure Script where
  text : String
deriving DecidableEq, Repr, Inhabited

namespace Script

/-- The label that every run starts at. -/
def entry : String := "MAIN"

variable {R : Type} [NumberSystem R]

/-- The line of a script that holds an instruction. -/
def lineOf (i : Instruction R String) : String :=
  match i with
  | .label _ => i.text id ++ "\n"
  | _ => "    " ++ i.text id ++ "\n"

/-- The script of a list of instructions, which has to link. -/
def emit (code : List (Instruction R String)) : Except Error Script := do
  let _ ← LinkedCode.link code
  return { text := String.join (code.map lineOf) }

/-- The lines of a script that hold instructions, trimmed. -/
def instructionLines (text : String) : List String :=
  ((lines text).map trimmed).filter fun line => line != "" && line.toList.head? != some ';'

/-- The instructions on the given lines, of which the first is number `index`, behind those of `done`. -/
def readFrom (done : Array (Instruction R String)) :
    List String → Except Error (Array (Instruction R String))
  | [] => .ok done
  | line :: rest =>
    match Instruction.read line with
    | .ok i => readFrom (done.push i) rest
    | .error e =>
      .error { e with text := e.text ++ " AT INSTRUCTION " ++ toString done.size }

/-- The instructions of a script. -/
def read (text : String) : Except Error (List (Instruction R String)) := do
  return (← readFrom #[] (instructionLines text)).toList

end Script

end LineBasic
