import LineBasic.Line
import LineBasic.Program
/-!
Reading the tree of a program from its tokens, one line at a time. The reader looks one token ahead. An error is
reported at the last token that was taken. Every reader is given fuel, which the number of tokens bounds.
-/
namespace LineBasic

/-- The tokens of a line that are still to be taken, and the column of the last one taken. -/
structure Cursor where
  rest : List (Column × Token)
  column : Column := {}
deriving Repr

namespace Cursor

/-- The next token. -/
def peek? (c : Cursor) : Option Token :=
  c.rest.head?.map Prod.snd

/-- The cursor behind the next token; at the end of the line it stays. -/
def skip (c : Cursor) : Cursor :=
  match c.rest with
  | [] => c
  | (column, _) :: rest => { rest, column }

/-- An error at the last token taken. -/
def fail {α : Type} (c : Cursor) (text : String) : Except Error α :=
  .error (ErrorCode.syntaxError.errorAt c.column text)

/-- A statement may end before the next token. -/
def atStatementEnd (c : Cursor) : Bool :=
  match c.peek? with
  | none | some .colon | some (.keyword .else) => true
  | _ => false

/-- What the reader complains of when it finds another token than `token`. -/
def expectation : Token → String
  | .number _ | .string _ => "EXPECTED LITERAL"
  | .keyword .then => "EXPECTED THEN"
  | .keyword .to => "EXPECTED TO"
  | .keyword _ => "EXPECTED RESERVED WORD"
  | .operator _ => "EXPECTED OPERATOR"
  | .name _ => "EXPECTED IDENTIFIER"
  | .remark _ => "UNEXPECTED TOKEN"
  | .leftParen => "EXPECTED LEFT PARENTHESIS"
  | .rightParen => "EXPECTED RIGHT PARENTHESIS"
  | .comma => "EXPECTED COMMA"
  | .colon => "EXPECTED COLON"
  | .semicolon => "EXPECTED SEMICOLON"

/-- Takes the given token. -/
def expect (token : Token) (c : Cursor) : Except Error Cursor :=
  if c.peek? = some token then .ok c.skip else c.skip.fail (expectation token)

/-- Takes a variable. -/
def takeVariable (c : Cursor) : Except Error (Variable × Cursor) :=
  match c.peek? with
  | some (.name name) => .ok ({ column := c.skip.column, name }, c.skip)
  | _ => c.skip.fail "EXPECTED VARIABLE"

/-- Takes a line number. -/
def takeTarget (c : Cursor) : Except Error (Target × Cursor) :=
  match c.peek? with
  | some (.number s) =>
    match Text.readNat? Text.maxWord32 s with
    | some line => .ok ({ column := c.skip.column, line }, c.skip)
    | none => .error (ErrorCode.undefinedLine.errorAt c.skip.column "INVALID LINE NUMBER")
  | _ => c.skip.fail "EXPECTED LINE NUMBER"

end Cursor

namespace Operator

/-- How strongly an operator binds the two operands it stands between. NOT never stands between two. -/
def precedence? : Operator → Option Nat
  | or => some 1
  | and => some 2
  | equal | notEqual | less | lessEqual | greater | greaterEqual => some 4
  | plus | minus => some 5
  | times | slash | mod => some 6
  | caret => some 8
  | not => none

theorem isSome_precedence? {sign : Operator} {precedence : Nat}
    (h : sign.precedence? = some precedence) : sign.precedence?.isSome :=
  Option.isSome_of_eq_some h

/-- The operator on two values that a sign between two operands stands for. -/
def binary : (sign : Operator) → sign.precedence?.isSome → BinaryOp
  | caret, _ => .power
  | times, _ => .multiply
  | slash, _ => .divide
  | mod, _ => .modulus
  | plus, _ => .add
  | minus, _ => .subtract
  | equal, _ => .equal
  | notEqual, _ => .notEqual
  | less, _ => .less
  | lessEqual, _ => .lessEqual
  | greater, _ => .greater
  | greaterEqual, _ => .greaterEqual
  | and, _ => .and
  | or, _ => .or

/-- How strongly the operators in the right operand have to bind. Powers group to the right, everything else to
the left. -/
def rightPrecedence (sign : Operator) (precedence : Nat) : Nat :=
  if sign = caret then precedence else precedence + 1

end Operator

/-- How strongly the operators in the operand of an operator have to bind. -/
def UnaryOp.precedence : UnaryOp → Nat
  | not => 3
  | negate => 7

variable {R : Type} [NumberSystem R]

namespace Cursor

/-- The complaint of a reader that ran out of fuel. -/
def exhausted {α : Type} (c : Cursor) : Except Error α :=
  c.fail "LINE TOO COMPLEX"

mutual

/-- Takes an expression whose operators bind at least as strongly as `least`. -/
def takeExpression : Nat → Nat → Cursor → Except Error (Expr R × Cursor)
  | 0, _, c => c.exhausted
  | fuel + 1, least, c => do
    let (e, c) ← takeOperand fuel c
    takeOperators fuel least e c

/-- Takes operators that bind at least as strongly as `least`, each with its right operand, behind the
expression `left`. -/
def takeOperators : Nat → Nat → Expr R → Cursor → Except Error (Expr R × Cursor)
  | 0, _, _, c => c.exhausted
  | fuel + 1, least, left, c =>
    match c.peek? with
    | some (.operator sign) =>
      match h : sign.precedence? with
      | some precedence =>
        if least ≤ precedence then do
          let column := c.skip.column
          let (right, c) ← takeExpression fuel (sign.rightPrecedence precedence) c.skip
          takeOperators fuel least (.binary (sign.binary (Operator.isSome_precedence? h)) column left right) c
        else .ok (left, c)
      | none => .ok (left, c)
    | _ => .ok (left, c)

/-- Takes an expression without operators on two values around it. -/
def takeOperand : Nat → Cursor → Except Error (Expr R × Cursor)
  | 0, c => c.exhausted
  | fuel + 1, c =>
    let taken := c.skip
    match c.peek? with
    | some (.operator .minus) => do
      let (e, c) ← takeExpression fuel UnaryOp.negate.precedence taken
      return (.unary .negate taken.column e, c)
    | some (.operator .plus) => takeExpression fuel UnaryOp.negate.precedence taken
    | some (.operator .not) => do
      let (e, c) ← takeExpression fuel UnaryOp.not.precedence taken
      return (.unary .not taken.column e, c)
    | some .leftParen => do
      let (e, c) ← takeExpression fuel 0 taken
      return (e, ← c.expect .rightParen)
    | some (.name name) =>
      if taken.peek? = some .leftParen then do
        let (args, c) ← takeArguments fuel taken
        return (.call taken.column name args, c)
      else .ok (.var taken.column name, taken)
    | some (.number s) =>
      match NumberSystem.read? s with
      | some n => .ok (.number taken.column n, taken)
      | none => taken.fail "MALFORMED NUMBER"
    | some (.string s) => .ok (.string taken.column s, taken)
    | _ => taken.fail "EXPECTED EXPRESSION"

/-- Takes a list of expressions in parentheses. -/
def takeArguments : Nat → Cursor → Except Error (List (Expr R) × Cursor)
  | 0, c => c.exhausted
  | fuel + 1, c => do
    let c ← c.expect .leftParen
    if c.peek? = some .rightParen then return ([], c.skip)
    takeMoreArguments fuel c

/-- Takes expressions with commas between them, up to a closing parenthesis. -/
def takeMoreArguments : Nat → Cursor → Except Error (List (Expr R) × Cursor)
  | 0, c => c.exhausted
  | fuel + 1, c => do
    let (e, c) ← takeExpression fuel 0 c
    match c.peek? with
    | some .rightParen => return ([e], c.skip)
    | some .comma =>
      let (es, c) ← takeMoreArguments fuel c.skip
      return (e :: es, c)
    | _ => c.skip.fail "EXPECTED END OR SEPARATOR"

end

theorem takeOperators_of_sign {fuel least precedence : Nat} {sign : Operator} {c : Cursor} (left : Expr R)
    (hpeek : c.peek? = some (.operator sign)) (h : sign.precedence? = some precedence)
    (hleast : least ≤ precedence) :
    takeOperators (fuel + 1) least left c = (do
      let (right, c') ← takeExpression fuel (sign.rightPrecedence precedence) c.skip
      takeOperators fuel least
        (.binary (sign.binary (Operator.isSome_precedence? h)) c.skip.column left right) c') := by
  rw [takeOperators, hpeek]
  dsimp only
  split
  · rename_i precedence' h'
    obtain rfl : precedence' = precedence := Option.some.inj (h'.symm.trans h)
    exact if_pos hleast
  · rename_i h'
    cases h'.symm.trans h

theorem takeOperators_of_end {least : Nat} {c : Cursor} (fuel : Nat) (left : Expr R)
    (hend : ∀ sign precedence, c.peek? = some (.operator sign) → sign.precedence? = some precedence →
      precedence < least) :
    takeOperators (fuel + 1) least left c = .ok (left, c) := by
  rw [takeOperators]
  split
  · rename_i sign hpeek
    split
    · rename_i precedence h
      exact if_neg (Nat.not_le.mpr (hend sign precedence hpeek h))
    · rfl
  · rfl

/-- Takes the expressions of a call without parentheses: one, and more as long as commas follow. -/
def takeBareArguments : Nat → Cursor → Except Error (List (Expr R) × Cursor)
  | 0, c => c.exhausted
  | fuel + 1, c => do
    let (e, c) ← takeExpression fuel 0 c
    if c.peek? = some .comma then
      let (es, c) ← takeBareArguments fuel c.skip
      return (e :: es, c)
    else return ([e], c)

/-- Takes what PRINT prints. A comma prints a tab; the list ends in a line feed unless a separator was
its last token. -/
def takeItems (lineFeed : Bool) : Nat → Cursor → Except Error (List (Expr R) × Cursor)
  | 0, c => c.exhausted
  | fuel + 1, c =>
    if c.atStatementEnd then
      .ok (if lineFeed then [.char ⟨c.column.stop, c.column.stop⟩ '\n'] else [], c)
    else
      match c.peek? with
      | some .semicolon => takeItems false fuel c.skip
      | some .comma => do
        let (es, c') ← takeItems false fuel c.skip
        return (.char c.skip.column '\t' :: es, c')
      | _ => do
        let (e, c) ← takeExpression fuel 0 c
        let (es, c) ← takeItems true fuel c
        return (e :: es, c)

/-- Takes an equals sign and the value of an assignment. -/
def takeAssignment (fuel : Nat) (column : Column) (v : Variable) (c : Cursor) :
    Except Error (Stmt R × Cursor) := do
  let c ← c.expect (.operator .equal)
  let (e, c) ← takeExpression fuel 0 c
  return (.let column v e, c)

/-- Takes the arguments of a native that is called as a statement. -/
def takeNativeCall (fuel : Nat) (column : Column) (name : String) (c : Cursor) :
    Except Error (Stmt R × Cursor) := do
  if c.peek? = some .leftParen then
    let (args, c) ← takeArguments fuel c
    return (.call column name args, c)
  else if c.atStatementEnd then return (.call column name [], c)
  else
    let (args, c) ← takeBareArguments fuel c
    return (.call column name args, c)

/-- Takes the rest of a FOR. -/
def takeLoop (fuel : Nat) (column : Column) (c : Cursor) : Except Error (Stmt R × Cursor) := do
  let (v, c) ← c.takeVariable
  let c ← c.expect (.operator .equal)
  let (start, c) ← takeExpression fuel 0 c
  let c ← c.expect (.keyword .to)
  let (limit, c) ← takeExpression fuel 0 c
  if c.peek? = some (.keyword .step) then
    let (step, c) ← takeExpression fuel 0 c.skip
    return (.for column v start limit (some step), c)
  else return (.for column v start limit none, c)

mutual

/-- Takes a statement. -/
def takeStatement : Nat → Cursor → Except Error (Stmt R × Cursor)
  | 0, c => c.exhausted
  | fuel + 1, c =>
    let taken := c.skip
    let column := taken.column
    match c.peek? with
    | some (.name name) =>
      if taken.peek? = some (.operator .equal) then
        takeAssignment fuel column { column, name } taken
      else takeNativeCall fuel column name taken
    | some (.remark _) => .ok (.rem column, taken)
    | some (.keyword .print) => do
      let (items, c) ← takeItems true fuel taken
      return (.print column items, c)
    | some (.keyword .let) => do
      let (v, c) ← taken.takeVariable
      takeAssignment fuel column v c
    | some (.keyword .goto) => do
      let (t, c) ← taken.takeTarget
      return (.goto column t, c)
    | some (.keyword .gosub) => do
      let (t, c) ← taken.takeTarget
      return (.gosub column t, c)
    | some (.keyword .return) => .ok (.return column, taken)
    | some (.keyword .end) => .ok (.end column, taken)
    | some (.keyword .if) => do
      let (condition, c) ← takeExpression fuel 0 taken
      let (thenBody, c) ← takeThenBody fuel c
      if c.peek? = some (.keyword .else) then
        let (elseBody, c) ← takeBody fuel c.skip
        return (.if column condition thenBody elseBody, c)
      else return (.if column condition thenBody [], c)
    | some (.keyword .for) => takeLoop fuel column taken
    | some (.keyword .next) =>
      if taken.atStatementEnd then .ok (.next column none, taken)
      else do
        let (v, c) ← taken.takeVariable
        return (.next column (some v), c)
    | some (.keyword .rem) =>
      match taken.peek? with
      | some (.remark _) => .ok (.rem column, taken.skip)
      | _ => .ok (.rem column, taken)
    | _ => taken.fail "EXPECTED STATEMENT"

/-- Takes what follows the condition of an IF: a GOTO, or THEN and a body. -/
def takeThenBody : Nat → Cursor → Except Error (List (Stmt R) × Cursor)
  | 0, c => c.exhausted
  | fuel + 1, c => do
    if c.peek? = some (.keyword .goto) then
      let (t, c') ← c.skip.takeTarget
      return ([.goto c.skip.column t], c')
    else
      let c ← c.expect (.keyword .then)
      takeBody fuel c

/-- Takes the body of THEN or ELSE: a line number, or statements up to ELSE or the end of the line. -/
def takeBody : Nat → Cursor → Except Error (List (Stmt R) × Cursor)
  | 0, c => c.exhausted
  | fuel + 1, c =>
    match c.peek? with
    | some (.number _) => do
      let (t, c) ← c.takeTarget
      return ([.goto t.column t], c)
    | _ => takeBodyStatements fuel c

/-- Takes the statements of a body. Colons may stand between them. -/
def takeBodyStatements : Nat → Cursor → Except Error (List (Stmt R) × Cursor)
  | 0, c => c.exhausted
  | fuel + 1, c =>
    match c.peek? with
    | none | some (.keyword .else) => .ok ([], c)
    | some .colon => takeBodyStatements fuel c.skip
    | some _ => do
      let (s, c) ← takeStatement fuel c
      let (ss, c) ← takeBodyStatements fuel c
      return (s :: ss, c)

end

/-- Takes the statements of a line, which colons separate. -/
def takeStatements : Nat → Cursor → Except Error (List (Stmt R))
  | 0, c => c.exhausted
  | fuel + 1, c =>
    match c.peek? with
    | none => .ok []
    | some .colon => takeStatements fuel c.skip
    | some _ => do
      let (s, c) ← takeStatement fuel c
      match c.peek? with
      | none | some .colon =>
        let ss ← takeStatements fuel c
        return s :: ss
      | some _ => c.skip.fail "EXPECTED END OF STATEMENT"

end Cursor

/-- The statements of a line with the given tokens. -/
def Stmt.parse (tokens : List (Column × Token)) : Except Error (List (Stmt R)) :=
  Cursor.takeStatements (4 * tokens.length + 8) { rest := tokens }

namespace Program

/-- The lines of a program. -/
def parseLines : List LexedLine → Except Error (List (ProgramLine R))
  | [] => .ok []
  | line :: lines =>
    match Stmt.parse line.tokens with
    | .error e => .error (e.inLine line.number)
    | .ok statements => do
      let rest ← parseLines lines
      return { number := line.number, statements } :: rest

/-- The tree of a program. -/
def parse (lines : List LexedLine) : Except Error (Program R) := do
  return { lines := ← parseLines lines }

end Program

end LineBasic
