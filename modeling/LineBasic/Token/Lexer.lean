import LineBasic.Error
import LineBasic.Numeral
import LineBasic.Token
/-!
Breaking the content of a line into tokens. `scan` takes one lexeme off the front of a text; `Token.lex` takes one
after the other and notes the bytes that each of them occupies.
-/
namespace LineBasic.Token

open Text

/-- The characters that separate tokens. -/
def isSeparator (c : Char) : Bool :=
  c == ' ' || c == '\t'

/-- A letter or a digit. -/
def isNamePart (c : Char) : Bool :=
  isLetter c || isDigit c

/-- The characters that belong to a number at the front of a text, given whether a point or an exponent was seen:
digits, one point before the exponent, and one exponent letter with a sign directly behind it. -/
def numberSpan (point exponent : Bool) : List Char → List Char
  | [] => []
  | c :: cs =>
    if isDigit c then c :: numberSpan point exponent cs
    else if c == '.' && !point && !exponent then c :: numberSpan true exponent cs
    else if (c == 'E' || c == 'e') && !exponent then
      match cs with
      | '+' :: cs => c :: '+' :: numberSpan point true cs
      | '-' :: cs => c :: '-' :: numberSpan point true cs
      | cs => c :: numberSpan point true cs
    else []

/-- The characters of a word at the front of a text: a run of letters if that is a reserved word, else a
name, which goes on with letters and digits and may end in a dollar sign. -/
def wordSpan (cs : List Char) : List Char :=
  let letters := cs.takeWhile isLetter
  match ofWord? (upper (String.ofList letters)) with
  | some _ => letters
  | none =>
    let name := cs.takeWhile isNamePart
    match cs.drop name.length with
    | '$' :: _ => name ++ ['$']
    | _ => name

/-- The sign at the front of a text and how many characters it takes. -/
def sign? : List Char → Option (Token × Nat)
  | '<' :: '>' :: _ => some (operator .notEqual, 2)
  | '<' :: '=' :: _ => some (operator .lessEqual, 2)
  | '>' :: '=' :: _ => some (operator .greaterEqual, 2)
  | '<' :: _ => some (operator .less, 1)
  | '>' :: _ => some (operator .greater, 1)
  | '=' :: _ => some (operator .equal, 1)
  | '+' :: _ => some (operator .plus, 1)
  | '-' :: _ => some (operator .minus, 1)
  | '*' :: _ => some (operator .times, 1)
  | '/' :: _ => some (operator .slash, 1)
  | '^' :: _ => some (operator .caret, 1)
  | '(' :: _ => some (leftParen, 1)
  | ')' :: _ => some (rightParen, 1)
  | ',' :: _ => some (comma, 1)
  | ':' :: _ => some (colon, 1)
  | ';' :: _ => some (semicolon, 1)
  | '?' :: _ => some (keyword .print, 1)
  | _ => none

/-- What the front of a text was taken for: a token, or what is wrong with it; and the characters taken. -/
structure Lexeme where
  token : Except String Token
  taken : List Char

/-- The lexeme at the front of a text that starts with neither a separator nor a remark. -/
def scan (cs : List Char) : Lexeme :=
  match cs with
  | [] => { token := .error "UNEXPECTED CHARACTER", taken := [] }
  | c :: rest =>
    if isDigit c || c == '.' then
      let taken := numberSpan false false cs
      let text := upper (String.ofList taken)
      { token := if (Numeral.read? text).isSome then .ok (number text) else .error "MALFORMED NUMBER"
        taken }
    else if isLetter c then
      let taken := wordSpan cs
      let text := upper (String.ofList taken)
      { token := .ok ((ofWord? text).getD (name text)), taken }
    else if c == '"' then
      let inside := rest.takeWhile (· != '"')
      if inside.length < rest.length then
        { token := .ok (string (String.ofList inside)), taken := '"' :: (inside ++ ['"']) }
      else { token := .error "UNTERMINATED STRING", taken := cs }
    else
      match sign? cs with
      | some (token, length) => { token := .ok token, taken := cs.take length }
      | none => { token := .error "UNEXPECTED CHARACTER", taken := [c] }

/-- The rest of a line as a remark, unless nothing is left. -/
def remarkFrom (start : Nat) (cs : List Char) : List (Column × Token) :=
  if cs.isEmpty then [] else [(⟨start, start + byteLength cs⟩, remark (String.ofList cs))]

/-- The tokens of a text that starts at byte `start` of its line, at most `fuel` of them, separators counted. -/
def lexFrom : Nat → Nat → List Char → Except Error (List (Column × Token))
  | 0, _, _ => .ok []
  | _, _, [] => .ok []
  | fuel + 1, start, c :: cs =>
    if isSeparator c then lexFrom fuel (start + c.utf8Size) cs
    else if c == '\'' then .ok (remarkFrom start (c :: cs))
    else
      let lexeme := scan (c :: cs)
      let stop := start + byteLength lexeme.taken
      let rest := (c :: cs).drop lexeme.taken.length
      match lexeme.token with
      | .error text => .error (ErrorCode.syntaxError.errorAt ⟨start, stop⟩ text)
      | .ok token =>
        if token = keyword .rem then .ok ((⟨start, stop⟩, token) :: remarkFrom stop rest)
        else do
          let tokens ← lexFrom fuel stop rest
          return (⟨start, stop⟩, token) :: tokens

/-- The tokens of a line's content, with the bytes that each of them occupies. Everything behind REM is one
remark, and so is everything from an apostrophe on. -/
def lex (content : String) : Except Error (List (Column × Token)) :=
  let cs := content.toList
  lexFrom cs.length 0 cs

end LineBasic.Token
