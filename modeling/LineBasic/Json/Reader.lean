import LineBasic.Json
/-!
Reading JSON values. A text in a JSON value need not be one that can be written down: its escapes may not form characters,
or the bytes that it is read from may not. Such a text does no harm where nobody asks for it.
-/
namespace LineBasic.Json

open Text

/-- What is read: characters, and `none` for a byte that is part of no character. -/
abbrev Source := List (Option Char)

/-- A value as it is read. A text that is no sequence of characters is `none`. -/
abbrev Found := Json (Option String)

/-- One of the characters that may stand between the parts of a value. -/
def isFiller (c : Option Char) : Bool :=
  c == some ' ' || c == some '\n' || c == some '\t' || c == some '\r'

/-- A source without the filling characters in front. -/
def skipFiller (cs : Source) : Source :=
  cs.dropWhile isFiller

/-- One piece of a text between quotes. -/
inductive Piece where
  | char (c : Char)
  /-- A 16-bit unit that is written with its number. -/
  | unit (n : Nat)
  /-- A byte that is part of no character. -/
  | broken

/-- The 16-bit unit that four digits write. -/
def unit? (a b c d : Option Char) : Option Piece := do
  let a ← hexValue? (← a)
  let b ← hexValue? (← b)
  let c ← hexValue? (← c)
  let d ← hexValue? (← d)
  return .unit (((a * 16 + b) * 16 + c) * 16 + d)

/-- The character that `c` stands for behind a backslash. -/
def escaped? (c : Option Char) : Option Char :=
  match c with
  | some '"' => some '"'
  | some '\\' => some '\\'
  | some '/' => some '/'
  | some 'b' => some '\x08'
  | some 'f' => some '\x0c'
  | some 'n' => some '\n'
  | some 'r' => some '\r'
  | some 't' => some '\t'
  | _ => none

/-- The pieces of a text up to the quote that ends it, and the source behind that. -/
def takePieces : Source → Option (List Piece × Source)
  | some '"' :: cs => some ([], cs)
  | some '\\' :: some 'u' :: a :: b :: c :: d :: cs => do
    let piece ← unit? a b c d
    let (pieces, rest) ← takePieces cs
    return (piece :: pieces, rest)
  | some '\\' :: c :: cs => do
    let c ← escaped? c
    let (pieces, rest) ← takePieces cs
    return (.char c :: pieces, rest)
  | some c :: cs =>
    if c.toNat < 0x20 || c = '\\' then none
    else do
      let (pieces, rest) ← takePieces cs
      return (.char c :: pieces, rest)
  | none :: cs => do
    let (pieces, rest) ← takePieces cs
    return (.broken :: pieces, rest)
  | [] => none

/-- The first unit of a character that takes two. -/
def isHighUnit (n : Nat) : Bool :=
  0xD800 ≤ n && n < 0xDC00

/-- The second unit of a character that takes two. -/
def isLowUnit (n : Nat) : Bool :=
  0xDC00 ≤ n && n < 0xE000

/-- The characters that pieces form, if they form any. -/
def charsOf? : List Piece → Option (List Char)
  | [] => some []
  | .char c :: pieces => (charsOf? pieces).map (c :: ·)
  | .broken :: _ => none
  | .unit n :: .unit m :: pieces =>
    if isHighUnit n then
      if isLowUnit m then
        (charsOf? pieces).map
          (Char.ofNat (0x10000 + (n - 0xD800) * 0x400 + (m - 0xDC00)) :: ·)
      else none
    else if isLowUnit n then none
    else (charsOf? (.unit m :: pieces)).map (Char.ofNat n :: ·)
  | .unit n :: pieces =>
    if isHighUnit n || isLowUnit n then none else (charsOf? pieces).map (Char.ofNat n :: ·)

/-- The text behind a quote, and the source behind it. -/
def takeText (cs : Source) : Option (Option String × Source) :=
  (takePieces cs).map fun (pieces, rest) => ((charsOf? pieces).map String.ofList, rest)

/-- The digits in front of a source, and the rest. -/
def takeDigits : Source → List Char × Source
  | some c :: cs =>
    if isDigit c then
      let (digits, rest) := takeDigits cs
      (c :: digits, rest)
    else ([], some c :: cs)
  | cs => ([], cs)

/-- At least one digit. -/
def takeSomeDigits (cs : Source) : Option (List Char × Source) :=
  match takeDigits cs with
  | ([], _) => none
  | found => some found

/-- A whole number without needless zeros in front. -/
def takeWhole (cs : Source) : Option (List Char × Source) :=
  match takeDigits cs with
  | ([], _) => none
  | ('0' :: _ :: _, _) => none
  | found => some found

/-- A decimal point and the digits behind it, if there is one. -/
def takeFraction : Source → Option (List Char × Source)
  | some '.' :: cs => (takeSomeDigits cs).map fun (digits, rest) => ('.' :: digits, rest)
  | cs => some ([], cs)

/-- The sign of an exponent, if there is one. -/
def takeSign : Source → List Char × Source
  | some '+' :: cs => (['+'], cs)
  | some '-' :: cs => (['-'], cs)
  | cs => ([], cs)

/-- An exponent, if there is one. -/
def takeExponent : Source → Option (List Char × Source)
  | some 'e' :: cs | some 'E' :: cs => do
    let (sign, cs) := takeSign cs
    let (digits, cs) ← takeSomeDigits cs
    return ('e' :: sign ++ digits, cs)
  | cs => some ([], cs)

/-- A number, as it is written except for the letter case of its exponent. -/
def takeNumber (cs : Source) : Option (Found × Source) := do
  let (sign, cs) := match cs with
    | some '-' :: cs => (['-'], cs)
    | cs => ([], cs)
  let (whole, cs) ← takeWhole cs
  let (fraction, cs) ← takeFraction cs
  let (exponent, cs) ← takeExponent cs
  return (number (String.ofList (sign ++ whole ++ fraction ++ exponent)), cs)

mutual

/-- The value in front of a source, and the rest. `fuel` bounds the depth and the length of what is read. -/
def takeValue : Nat → Source → Option (Found × Source)
  | 0, _ => none
  | fuel + 1, cs =>
    match skipFiller cs with
    | some 'n' :: some 'u' :: some 'l' :: some 'l' :: cs => some (null, cs)
    | some 't' :: some 'r' :: some 'u' :: some 'e' :: cs => some (bool true, cs)
    | some 'f' :: some 'a' :: some 'l' :: some 's' :: some 'e' :: cs => some (bool false, cs)
    | some '"' :: cs => (takeText cs).map fun (text, rest) => (string text, rest)
    | some '[' :: cs =>
      match skipFiller cs with
      | some ']' :: cs => some (array [], cs)
      | cs => (takeItems fuel cs).map fun (items, rest) => (array items, rest)
    | some '\x7b' :: cs =>
      match skipFiller cs with
      | some '\x7d' :: cs => some (object [], cs)
      | cs => (takeMembers fuel cs).map fun (members, rest) => (object members, rest)
    | cs => takeNumber cs

/-- The items of an array up to its closing bracket, at least one. -/
def takeItems : Nat → Source → Option (List Found × Source)
  | 0, _ => none
  | fuel + 1, cs => do
    let (item, cs) ← takeValue fuel cs
    match skipFiller cs with
    | some ']' :: cs => return ([item], cs)
    | some ',' :: cs =>
      let (items, cs) ← takeItems fuel cs
      return (item :: items, cs)
    | _ => none

/-- The members of an object up to its closing brace, at least one. -/
def takeMembers : Nat → Source → Option (List (Option String × Found) × Source)
  | 0, _ => none
  | fuel + 1, cs => do
    let (key, cs) ← match skipFiller cs with
      | some '"' :: cs => takeText cs
      | _ => none
    let cs ← match skipFiller cs with
      | some ':' :: cs => some cs
      | _ => none
    let (value, cs) ← takeValue fuel cs
    match skipFiller cs with
    | some '\x7d' :: cs => return ([(key, value)], cs)
    | some ',' :: cs =>
      let (members, cs) ← takeMembers fuel cs
      return ((key, value) :: members, cs)
    | _ => none

end

/-- The value that a source holds, with nothing but filling characters around it. -/
def read? (cs : Source) : Option Found :=
  match takeValue (2 * cs.length + 1) cs with
  | some (j, rest) => if (skipFiller rest).isEmpty then some j else none
  | none => none

/-- The natural number at most `bound` that a value is. It is written with digits only. -/
def nat? {T : Type} (bound : Nat) : Json T → Option Nat
  | number literal => readDigits? bound literal.toList
  | _ => none

/-- The truth value that a value is. -/
def bool? {T : Type} : Json T → Option Bool
  | bool b => some b
  | _ => none

/-- The text that a value is. -/
def text? : Found → Option String
  | string text => text
  | _ => none

/-- The members of an object under one key. -/
def membersAt (key : String) (members : List (Option String × Found)) : List Found :=
  (members.filter fun member => member.1 == some key).map Prod.snd

/-- The fields of a record with the given names, each with its value if it has one. A record is an object in which no
field occurs twice, and in which other members are not looked at; or it is an array of the fields' values in order, which
may be cut short. -/
def record? (names : List String) : Found → Option (List (Option Found))
  | array items =>
    if items.length ≤ names.length then
      some (names.zipIdx.map fun (_, i) => items[i]?)
    else none
  | object members =>
    if members.all fun member => member.1.isSome then
      names.mapM fun name =>
        match membersAt name members with
        | [] => some none
        | [value] => some (some value)
        | _ => none
    else none
  | _ => none

/-- The value of a field that may be absent. -/
def fieldD {α : Type} (decode : Found → Option α) (default : α) : Option Found → Option α
  | some value => decode value
  | none => some default

end LineBasic.Json
