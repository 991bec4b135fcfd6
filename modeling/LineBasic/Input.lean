import LineBasic.Line
/-!
What a line is that was typed at the shell: nothing, a line of the program, or a command with its arguments.
-/
namespace LineBasic

open Text

/-- A typed line. -/
inductive Input where
  /-- Blanks only, or a remark behind a number sign. -/
  | empty
  /-- A line for the program. -/
  | numbered (number : LineNumber) (content : String)
  /-- A command, its name in upper case. -/
  | command (name : String) (args : List String)
deriving DecidableEq, Repr

namespace Input

/-- Where the arguments of a command are read. -/
inductive Spot where
  /-- Between two arguments. -/
  | between
  /-- In an argument whose characters so far are `arg` backwards. -/
  | bare (arg : List Char)
  /-- In an argument between quotes. -/
  | quoted (arg : List Char)

/-- The argument that was read at a spot where the line ends. -/
def Spot.last : Spot → List String
  | between => []
  | bare arg => [String.ofList arg.reverse]
  | quoted arg => [String.ofList arg.reverse]

/-- The arguments of a command from the given spot on. -/
def argumentsFrom : Spot → List Char → List String
  | spot, [] => spot.last
  | .between, c :: cs =>
    if isSpace c then argumentsFrom .between cs
    else if c = '"' then argumentsFrom (.quoted []) cs
    else argumentsFrom (.bare [c]) cs
  | .bare arg, c :: cs =>
    if isSpace c then String.ofList arg.reverse :: argumentsFrom .between cs
    else argumentsFrom (.bare (c :: arg)) cs
  | .quoted arg, c :: cs =>
    if c = '"' then String.ofList arg.reverse :: argumentsFrom .between cs
    else argumentsFrom (.quoted (c :: arg)) cs

/-- The arguments of a command: words between blanks. An argument that begins with a double quote may hold blanks; it
reaches to the next double quote, or to the end of the line. -/
def arguments (cs : List Char) : List String :=
  argumentsFrom .between cs

/-- A character that is no blank. -/
def isInk (c : Char) : Bool :=
  !isSpace c

/-- The largest number takes the place of numbers that are too large to be told apart. -/
def saturated (digits : List Char) : LineNumber :=
  (readDigits? maxWord32 digits).getD maxWord32

/-- What a typed line is. -/
def classify (text : String) : Input :=
  let cs := trim text.toList
  if cs.isEmpty || cs.head? == some '#' then empty
  else
    let first := cs.takeWhile isInk
    let rest := cs.dropWhile isInk
    if first.all isDigit then numbered (saturated first) (String.ofList (Line.dropSeparator rest))
    else command (upper (String.ofList first)) (arguments rest)

end Input

end LineBasic
