import LineBasic.Token.Lexer
import LineBasic.Text.Blank
/-!
One numbered line of a program: its written form, the line numbers it refers to, and its renumbering.
-/
namespace LineBasic

open Text

/-- A line of a program. -/
structure Line where
  number : LineNumber
  content : String
deriving DecidableEq, Repr, Inhabited

namespace Line

/-- Why a text has no line number in front. -/
inductive NoNumber where
  /-- It starts with no digit. -/
  | missing
  /-- The number is too large. -/
  | tooLarge
deriving DecidableEq, Repr

/-- The error of a line number that is too large. -/
def numberOverflow : Error :=
  ErrorCode.overflow.error "LINE NUMBER"

/-- A text without the one blank that separates a line number from the content. -/
def dropSeparator : List Char → List Char
  | ' ' :: cs => cs
  | cs => cs

/-- The line number in front of a text, blanks skipped, and the content behind it. One blank between the
two is dropped; more of them belong to the content. -/
def split (text : List Char) : Except NoNumber (LineNumber × List Char) :=
  let text := trimLeft text
  let digits := text.takeWhile isDigit
  if digits.isEmpty then .error .missing
  else if value digits ≤ maxLineNumber then
    .ok (value digits, dropSeparator (text.dropWhile isDigit))
  else .error .tooLarge

/-- A line break. -/
def isBreak (c : Char) : Bool :=
  c == '\r' || c == '\n'

/-- A text without the line breaks it ends in. -/
def dropBreaks (cs : List Char) : List Char :=
  (cs.reverse.dropWhile isBreak).reverse

/-- The line that a line of a program file holds. Blanks at its end are no part of it. -/
def parse (text : String) : Except Error Line :=
  let cs := dropBreaks text.toList
  if byteLength cs > maxLineLength then .error { code := .lineBufferOverflow }
  else
    match split cs with
    | .error .missing => .error { code := .directStatementInFile }
    | .error .tooLarge => .error numberOverflow
    | .ok (number, content) => .ok { number, content := String.ofList (trimRight content) }

/-- A line with nothing but blanks behind its number. -/
def isEmpty (l : Line) : Bool :=
  isBlank l.content

/-- The written form of a line. -/
def text (l : Line) : String :=
  if l.content = "" then toString l.number else toString l.number ++ " " ++ l.content

/-- What follows a token: a list of line numbers, as far as commas carry it on. -/
def opensTargets (inTargets : Bool) : Token → Bool
  | .keyword .goto | .keyword .gosub | .keyword .then | .keyword .else => true
  | .number _ | .comma => inTargets
  | _ => false

/-- The line numbers among tokens, where `inTargets` says whether the first of them may be one. -/
def targetsFrom (inTargets : Bool) : List (Column × Token) → List (Column × LineNumber)
  | [] => []
  | (column, token) :: tokens =>
    let rest := targetsFrom (opensTargets inTargets token) tokens
    match token with
    | .number s =>
      if inTargets then
        match readNat? maxWord32 s with
        | some n => (column, n) :: rest
        | none => rest
      else rest
    | _ => rest

/-- The line numbers that a line refers to, with the bytes they occupy: those behind GOTO, GOSUB, THEN and
ELSE. A line that cannot be read refers to none. -/
def references (l : Line) : List (Column × LineNumber) :=
  match Token.lex l.content with
  | .ok tokens => targetsFrom false tokens
  | .error _ => []

/-- The front of a text, `count` bytes long if characters end there, and the rest. -/
def splitBytes (count : Nat) : List Char → List Char × List Char
  | [] => ([], [])
  | c :: cs =>
    if count = 0 then ([], c :: cs)
    else
      let (front, rest) := splitBytes (count - c.utf8Size) cs
      (c :: front, rest)

/-- A text that starts at byte `start` of its line, with each of the given ranges replaced. -/
def replaceFrom (start : Nat) : List (Column × String) → List Char → List Char
  | [], cs => cs
  | (column, new) :: edits, cs =>
    let (front, rest) := splitBytes (column.start - start) cs
    let (_, rest) := splitBytes (column.stop - column.start) rest
    front ++ new.toList ++ replaceFrom column.stop edits rest

/-- The line under its new number, and with a new number for every reference to a line that gets one. -/
def renumber (change : LineNumber → Option LineNumber) (l : Line) : Line :=
  let edits := l.references.filterMap fun (column, old) =>
    (change old).map fun new => (column, toString new)
  { number := (change l.number).getD l.number
    content := String.ofList (replaceFrom 0 edits l.content.toList) }

end Line

/-- A program line broken into tokens. -/
structure LexedLine where
  number : LineNumber
  tokens : List (Column × Token)
deriving DecidableEq, Repr

namespace LexedLine

/-- The tokens of the lines that follow line number `previous`. Blank lines are skipped, and the numbers
have to ascend. -/
def lexAfter (previous : Option LineNumber) : List String → Except Error (List LexedLine)
  | [] => .ok []
  | text :: rest =>
    if isBlank text then lexAfter previous rest
    else
      match Line.split text.toList with
      | .error .missing => .error (ErrorCode.syntaxError.error "MISSING LINE NUMBER")
      | .error .tooLarge => .error Line.numberOverflow
      | .ok (number, content) =>
        if previous.any (number ≤ ·) then
          .error ((ErrorCode.syntaxError.error "LINES OUT OF ORDER").inLine number)
        else
          match Token.lex (String.ofList content) with
          | .error e => .error (e.inLine number)
          | .ok tokens => do
            let lines ← lexAfter (some number) rest
            return { number, tokens } :: lines

/-- The tokens of a program text, line by line. -/
def lex (source : String) : Except Error (List LexedLine) :=
  lexAfter none (lines source)

end LexedLine

end LineBasic
