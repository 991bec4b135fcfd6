import Std.Data.TreeMap
import Std.Data.TreeSet
import LineBasic.Program
/-!
Control flow between the lines of a program. A line leads to the lines that its statements name and, unless its last
statement is an END, GOTO or RETURN, to the next line; a GOSUB comes back, so it does not keep control from going on.
Lines that control can never reach are dropped.
-/
namespace LineBasic

variable {R : Type}

/-- Where control may go between lines. -/
structure Flow where
  /-- The lines that each line leads to, in the order they are named. -/
  successors : Std.TreeMap LineNumber (List LineNumber) := ∅
  /-- The lines that control can reach, and those that are kept for their loops. -/
  reachable : Std.TreeSet LineNumber := ∅

namespace Flow

/-- The lines that `line` leads to, if `next?` is the line behind it. -/
def leadsTo (line : ProgramLine R) (next? : Option LineNumber) : List LineNumber :=
  let targets := (Stmt.targets line.statements).map Target.line
  if (line.statements.getLast?.map Stmt.isTerminal).getD false then targets
  else targets ++ next?.toList

/-- Where each of the lines leads to. -/
def edges : List (ProgramLine R) → List (LineNumber × List LineNumber)
  | [] => []
  | line :: lines =>
    (line.number, leadsTo line (lines.head?.map ProgramLine.number)) :: edges lines

/-- The lines that are kept in any case: the first one, and those with a FOR or a NEXT, since loops pair by
their place in the text. -/
def seeds (lines : List (ProgramLine R)) : List LineNumber :=
  match lines with
  | [] => []
  | first :: rest =>
    first.number :: (rest.filter fun line => Stmt.anyHasLoop line.statements).map ProgramLine.number

/-- The lines of `reached`, those of `work`, and all that these lead to, if `fuel` suffices. -/
def close (successors : Std.TreeMap LineNumber (List LineNumber)) :
    Nat → List LineNumber → Std.TreeSet LineNumber → Std.TreeSet LineNumber
  | 0, _, reached => reached
  | _, [], reached => reached
  | fuel + 1, line :: work, reached =>
    if reached.contains line then close successors fuel work reached
    else close successors fuel ((successors[line]?).getD [] ++ work) (reached.insert line)

/-- The number of edges. -/
def edgeCount (edges : List (LineNumber × List LineNumber)) : Nat :=
  edges.foldl (fun n edge => n + edge.2.length) 0

/-- The control flow of a program. -/
def ofProgram (p : Program R) : Flow :=
  let edges := edges p.lines
  let successors := edges.foldl (fun m edge => m.insert edge.1 edge.2) ∅
  let seeds := seeds p.lines
  { successors
    reachable := close successors (seeds.length + edgeCount edges + 1) seeds ∅ }

/-- The lines that a line leads to. -/
def successorsOf (flow : Flow) (line : LineNumber) : List LineNumber :=
  (flow.successors[line]?).getD []

/-- A line can be reached, or is kept for its loops. -/
def isReachable (flow : Flow) (line : LineNumber) : Bool :=
  flow.reachable.contains line

/-- The lines that can go, in ascending order. -/
def unreachable (flow : Flow) : List LineNumber :=
  flow.successors.keys.filter fun line => !flow.isReachable line

/-- A program without the lines that can go. -/
def prune (flow : Flow) (p : Program R) : Program R :=
  { lines := p.lines.filter fun line => flow.isReachable line.number }

end Flow

end LineBasic
