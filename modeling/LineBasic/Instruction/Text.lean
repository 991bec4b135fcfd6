import LineBasic.Instruction
import LineBasic.Text.Blank
/-!
The text form of instructions: a word that names the instruction and its operands, one instruction a line. A string is
quoted, with a backslash before what would end it or break the line.
-/
namespace LineBasic

open Text

namespace Quoted

/-- The characters that stand for `c` between quotes. -/
def encodeChar : Char → List Char
  | '"' => ['\\', '"']
  | '\\' => ['\\', '\\']
  | '\n' => ['\\', 'n']
  | '\t' => ['\\', 't']
  | '\r' => ['\\', 'r']
  | c => [c]

/-- The characters that stand for a text between quotes. -/
def encode : List Char → List Char
  | [] => []
  | c :: cs => encodeChar c ++ encode cs

/-- The character that `c` stands for behind a backslash. -/
def escaped : Char → Char
  | 'n' => '\n'
  | 't' => '\t'
  | 'r' => '\r'
  | c => c

/-- The text that characters between quotes stand for. A backslash at the end stands for nothing. -/
def decode? : List Char → Option (List Char)
  | [] => some []
  | '\\' :: [] => none
  | '\\' :: c :: cs => (decode? cs).map (escaped c :: ·)
  | c :: cs => (decode? cs).map (c :: ·)

/-- A text in quotes. -/
def write (s : String) : String :=
  "\"" ++ String.ofList (encode s.toList) ++ "\""

/-- The text that a word in quotes stands for. -/
def read? (cs : List Char) : Option String :=
  match cs with
  | '"' :: cs =>
    match cs.getLast? with
    | some '"' => (decode? cs.dropLast).map String.ofList
    | _ => none
  | _ => none

theorem decode?_encodeChar (c : Char) (cs : List Char) :
    decode? (encodeChar c ++ cs) = (decode? cs).map (c :: ·) := by
  unfold encodeChar
  split <;> simp_all [decode?, escaped]

theorem decode?_encode (cs : List Char) : decode? (encode cs) = some cs := by
  induction cs with
  | nil => rfl
  | cons c cs ih => rw [encode, decode?_encodeChar, ih, Option.map_some]

end Quoted

namespace Instruction

variable {R T : Type}

/-- The word that an operator is written as. -/
def unaryWord : UnaryOp → String
  | .negate => "NEG"
  | .not => "NOT"

/-- The word that an operator is written as. -/
def binaryWord : BinaryOp → String
  | .power => "POW"
  | .multiply => "MUL"
  | .divide => "DIV"
  | .modulus => "MOD"
  | .add => "ADD"
  | .subtract => "SUB"
  | .equal => "EQ"
  | .notEqual => "NOTEQ"
  | .less => "LT"
  | .lessEqual => "LTEQ"
  | .greater => "GT"
  | .greaterEqual => "GTEQ"
  | .and => "AND"
  | .or => "OR"

/-- The instruction that a word without operands stands for. -/
def ofWord? : String → Option (Instruction R T)
  | "RETURN" => some .return
  | "END" => some .end
  | "NEG" => some (unary .negate)
  | "NOT" => some (unary .not)
  | "POW" => some (binary .power)
  | "MUL" => some (binary .multiply)
  | "DIV" => some (binary .divide)
  | "MOD" => some (binary .modulus)
  | "ADD" => some (binary .add)
  | "SUB" => some (binary .subtract)
  | "EQ" => some (binary .equal)
  | "NOTEQ" => some (binary .notEqual)
  | "LT" => some (binary .less)
  | "LTEQ" => some (binary .lessEqual)
  | "GT" => some (binary .greater)
  | "GTEQ" => some (binary .greaterEqual)
  | "AND" => some (binary .and)
  | "OR" => some (binary .or)
  | _ => none

variable [NumberSystem R]

/-- The text of a literal. -/
def literalText : Value R → String
  | .number n => NumberSystem.write n
  | .string s => Quoted.write s

/-- The text of an instruction, where `target` writes its target. -/
def text (target : T → String) : Instruction R T → String
  | label name => name ++ ":"
  | line number => ".LINE " ++ toString number
  | literal v => "LIT " ++ literalText v
  | push name => "PUSH " ++ name
  | pop name => "POP " ++ name
  | jump t => "JUMP " ++ target t
  | ifNot t => "IFNOT " ++ target t
  | gosub t => "GOSUB " ++ target t
  | .return => "RETURN"
  | next var limit step t => "NEXT " ++ var ++ " " ++ limit ++ " " ++ step ++ " " ++ target t
  | .end => "END"
  | call name count => "CALL " ++ name ++ " " ++ toString count
  | exec name count => "EXEC " ++ name ++ " " ++ toString count
  | unary op => unaryWord op
  | binary op => binaryWord op

/-- The literal that a text stands for: a quoted string or a number. -/
def readLiteral? (cs : List Char) : Option (Value R) :=
  match cs with
  | '"' :: _ => (Quoted.read? cs).map .string
  | _ => (NumberSystem.read? (String.ofList cs)).map .number

/-- The instruction that a word with operands stands for. -/
def ofWords? (word : String) (operands : List String) : Option (Instruction R String) :=
  match word, operands with
  | word, [] => ofWord? word
  | ".LINE", [n] => (readNat? maxWord32 n).map line
  | "PUSH", [name] => some (push name)
  | "POP", [name] => some (pop name)
  | "JUMP", [t] => some (jump t)
  | "IFNOT", [t] => some (ifNot t)
  | "GOSUB", [t] => some (gosub t)
  | "NEXT", [var, limit, step, t] => some (next var limit step t)
  | "CALL", [name, n] => (readNat? maxWord64 n).map (call name)
  | "EXEC", [name, n] => (readNat? maxWord64 n).map (exec name)
  | _, _ => none

/-- The instruction that a trimmed text stands for. What ends in a colon is a label, and has no blank in it. -/
def readTrimmed? (cs : List Char) : Option (Instruction R String) :=
  if cs.getLast? = some ':' then
    let name := cs.dropLast
    if name.isEmpty || name.any isSpace then none else some (label (String.ofList name))
  else
    let word := String.ofList (cs.takeWhile (· != ' '))
    let rest := trim (cs.dropWhile (· != ' '))
    if word = "LIT" then (readLiteral? rest).map literal else ofWords? word (words rest)

/-- The instruction that a line of text stands for. -/
def read (text : String) : Except Error (Instruction R String) :=
  let cs := trim text.toList
  match readTrimmed? cs with
  | some i => .ok i
  | none => .error (ErrorCode.syntaxError.error ("MALFORMED INSTRUCTION " ++ String.ofList cs))

end Instruction

end LineBasic
