/-!
What can go wrong: an error has a code, may name a line and a range of its content, and may carry a text
of its own. `Error.message` is the wording that a user sees.
-/
namespace LineBasic

/-- The number that a program line is stored under. -/
abbrev LineNumber := Nat

/-- The largest line number that is accepted. -/
def maxLineNumber : LineNumber := 65529

/-- The longest line that a program file may hold, in bytes. -/
def maxLineLength : Nat := 1024

/-- A range of a line's content, in bytes of UTF-8; the empty range at 0 stands for no range. -/
structure Column where
  start : Nat := 0
  stop : Nat := 0
deriving DecidableEq, Repr, Inhabited

/-- The causes of an error. -/
inductive ErrorCode where
  | nextWithoutFor
  | syntaxError
  | returnWithoutGosub
  | illegalFunctionCall
  | overflow
  | outOfMemory
  | undefinedLine
  | divisionByZero
  | typeMismatch
  | undefinedFunction
  | lineBufferOverflow
  | forWithoutNext
  | internalError
  | fileNotFound
  | diskIoError
  | fileAlreadyExists
  | badFileName
  | directStatementInFile
  | unknownCommand
  | invalidState
  | noCart
  | engineFailure
  | nothingToSave
  | break
deriving DecidableEq, Repr, Inhabited

namespace ErrorCode

/-- All codes. -/
def all : List ErrorCode :=
  [nextWithoutFor, syntaxError, returnWithoutGosub, illegalFunctionCall, overflow, outOfMemory,
    undefinedLine, divisionByZero, typeMismatch, undefinedFunction, lineBufferOverflow,
    forWithoutNext, internalError, fileNotFound, diskIoError, fileAlreadyExists, badFileName,
    directStatementInFile, unknownCommand, invalidState, noCart, engineFailure, nothingToSave,
    «break»]

/-- The number that a code is reported under. -/
def number : ErrorCode → Nat
  | nextWithoutFor => 1
  | syntaxError => 2
  | returnWithoutGosub => 3
  | illegalFunctionCall => 5
  | overflow => 6
  | outOfMemory => 7
  | undefinedLine => 8
  | divisionByZero => 11
  | typeMismatch => 13
  | undefinedFunction => 18
  | lineBufferOverflow => 23
  | forWithoutNext => 26
  | internalError => 51
  | fileNotFound => 53
  | diskIoError => 57
  | fileAlreadyExists => 58
  | badFileName => 64
  | directStatementInFile => 66
  | unknownCommand => 70
  | invalidState => 71
  | noCart => 72
  | engineFailure => 73
  | nothingToSave => 74
  | «break» => 75

/-- The words that a code is reported with. -/
def words : ErrorCode → String
  | nextWithoutFor => "NEXT WITHOUT FOR"
  | syntaxError => "SYNTAX ERROR"
  | returnWithoutGosub => "RETURN WITHOUT GOSUB"
  | illegalFunctionCall => "ILLEGAL FUNCTION CALL"
  | overflow => "OVERFLOW"
  | outOfMemory => "OUT OF MEMORY"
  | undefinedLine => "UNDEFINED LINE"
  | divisionByZero => "DIVISION BY ZERO"
  | typeMismatch => "TYPE MISMATCH"
  | undefinedFunction => "UNDEFINED FUNCTION"
  | lineBufferOverflow => "LINE BUFFER OVERFLOW"
  | forWithoutNext => "FOR WITHOUT NEXT"
  | internalError => "INTERNAL ERROR"
  | fileNotFound => "FILE NOT FOUND"
  | diskIoError => "DISK I/O ERROR"
  | fileAlreadyExists => "FILE ALREADY EXISTS"
  | badFileName => "BAD FILE NAME"
  | directStatementInFile => "DIRECT STATEMENT IN FILE"
  | unknownCommand => "Unknown command"
  | invalidState => "ILLEGAL STATE"
  | noCart => "NO CART OPEN"
  | engineFailure => "ENGINE FAILURE"
  | nothingToSave => "NOTHING TO SAVE"
  | «break» => "BREAK"

end ErrorCode

/-- The broad class of an error, as the shell reports it. -/
inductive ErrorKind where
  /-- A malformed command or argument. -/
  | parse
  /-- A program that the compiler refuses. -/
  | compile
  /-- Raised inside a running program. -/
  | runtime
  /-- An operation that the present state does not allow. -/
  | state
  /-- Trouble with files. -/
  | io
  /-- No engine could be made, or it broke down. -/
  | fatal
deriving DecidableEq, Repr

/-- One error: its cause, and where and how it arose as far as that is known. -/
structure Error where
  code : ErrorCode
  line : Option LineNumber := none
  column : Column := {}
  text : String := ""
deriving DecidableEq, Repr, Inhabited

namespace Error

/-- The class that an error's code belongs to. No code is a compile error by itself. -/
def kind (e : Error) : ErrorKind :=
  match e.code with
  | .syntaxError | .unknownCommand => .parse
  | .fileNotFound | .diskIoError | .fileAlreadyExists | .badFileName | .directStatementInFile => .io
  | .invalidState | .noCart | .nothingToSave => .state
  | .engineFailure => .fatal
  | _ => .runtime

/-- `e` in the given line, unless it names a line already. -/
def orLine (e : Error) (line : Option LineNumber) : Error :=
  match e.line with
  | some _ => e
  | none => { e with line }

/-- `e` in the given line, whatever line it named before. -/
def inLine (e : Error) (line : LineNumber) : Error :=
  { e with line := some line }

/-- Where an error lies, as its message says it: the line, then the range. -/
def place (e : Error) : String :=
  (match e.line with
    | some n => " " ++ toString n
    | none => "") ++
  if e.column = {} then ""
  else " (" ++ toString e.column.start ++ ".." ++ toString e.column.stop ++ ")"

/-- The wording of an error: its code's words, its place, and its text. -/
def message (e : Error) : String :=
  let place := e.place
  if place = "" then
    if e.text = "" then e.code.words else e.code.words ++ ": " ++ e.text
  else if e.text = "" then e.code.words ++ " IN" ++ place
  else e.code.words ++ " IN" ++ place ++ "; " ++ e.text

@[simp] theorem orLine_none (e : Error) : e.orLine none = e := by
  rcases e with ⟨code, line, column, text⟩
  cases line <;> rfl

@[simp] theorem orLine_code (e : Error) (line : Option LineNumber) :
    (e.orLine line).code = e.code := by
  rcases e with ⟨code, line, column, text⟩
  cases line <;> rfl

theorem orLine_line (e : Error) (line : Option LineNumber) :
    (e.orLine line).line = e.line.or line := by
  rcases e with ⟨code, line, column, text⟩
  cases line <;> rfl

end Error

/-- An error of the given code, with no place. -/
def ErrorCode.error (code : ErrorCode) (text : String) : Error :=
  { code, text }

/-- An error of the given code in a range of some line. -/
def ErrorCode.errorAt (code : ErrorCode) (column : Column) (text : String) : Error :=
  { code, column, text }

end LineBasic
