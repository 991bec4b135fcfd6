import LineBasic.Error
/-!
The tokens of a line. A token keeps enough of its source to be written back, so that a line can be edited without
disturbing its layout.
-/
namespace LineBasic

/-- The reserved words that are not operators. -/
inductive Keyword where
  | «else»
  | «end»
  | «for»
  | gosub
  | goto
  | «if»
  | «let»
  | next
  | print
  | rem
  | «return»
  | step
  | «then»
  | «to»
deriving DecidableEq, Repr

/-- The operator signs and words. -/
inductive Operator where
  | caret
  | times
  | slash
  | mod
  | plus
  | minus
  | equal
  | notEqual
  | less
  | lessEqual
  | greater
  | greaterEqual
  | not
  | and
  | or
deriving DecidableEq, Repr

/-- One token of a line. -/
inductive Token where
  /-- A number, with its letters in upper case. -/
  | number (text : String)
  /-- The characters between two double quotes. -/
  | string (text : String)
  | keyword (word : Keyword)
  | operator (sign : Operator)
  /-- A name in upper case. -/
  | name (name : String)
  /-- The rest of a line that is not read any further. -/
  | remark (text : String)
  | leftParen
  | rightParen
  | comma
  | colon
  | semicolon
deriving DecidableEq, Repr

/-- How a keyword is written. -/
def Keyword.text : Keyword → String
  | «else» => "ELSE"
  | «end» => "END"
  | «for» => "FOR"
  | gosub => "GOSUB"
  | goto => "GOTO"
  | «if» => "IF"
  | «let» => "LET"
  | next => "NEXT"
  | print => "PRINT"
  | rem => "REM"
  | «return» => "RETURN"
  | step => "STEP"
  | «then» => "THEN"
  | «to» => "TO"

namespace Operator

/-- How an operator is written. -/
def text : Operator → String
  | caret => "^"
  | times => "*"
  | slash => "/"
  | mod => "MOD"
  | plus => "+"
  | minus => "-"
  | equal => "="
  | notEqual => "<>"
  | less => "<"
  | lessEqual => "<="
  | greater => ">"
  | greaterEqual => ">="
  | not => "NOT"
  | and => "AND"
  | or => "OR"

end Operator

namespace Token

/-- The token that a whole word in upper case is, unless it is a name. -/
def ofWord? : String → Option Token
  | "ELSE" => some (keyword .else)
  | "END" => some (keyword .end)
  | "FOR" => some (keyword .for)
  | "GOSUB" => some (keyword .gosub)
  | "GOTO" => some (keyword .goto)
  | "IF" => some (keyword .if)
  | "LET" => some (keyword .let)
  | "NEXT" => some (keyword .next)
  | "PRINT" => some (keyword .print)
  | "REM" => some (keyword .rem)
  | "RETURN" => some (keyword .return)
  | "STEP" => some (keyword .step)
  | "THEN" => some (keyword .then)
  | "TO" => some (keyword .to)
  | "MOD" => some (operator .mod)
  | "NOT" => some (operator .not)
  | "AND" => some (operator .and)
  | "OR" => some (operator .or)
  | _ => none

/-- How a token is written. -/
def text : Token → String
  | .number s => s
  | .string s => "\"" ++ s ++ "\""
  | .keyword word => word.text
  | .operator sign => sign.text
  | .name s => s
  | .remark s => s
  | leftParen => "("
  | rightParen => ")"
  | comma => ","
  | colon => ":"
  | semicolon => ";"

theorem text_of_ofWord? {word : String} {token : Token} (h : ofWord? word = some token) :
    token.text = word := by
  unfold ofWord? at h
  split at h <;> first | (cases h; rfl) | cases h

end Token

end LineBasic
