import LineBasic.Text.Hex
/-!
JSON values, and their written form with one member or item a line and an indent of two blanks.
-/
namespace LineBasic

/-- A JSON value whose texts are of type `T`. A number is kept as it is written. -/
inductive Json (T : Type) where
  | null
  | bool (b : Bool)
  | number (literal : String)
  | string (text : T)
  | array (items : List (Json T))
  | object (members : List (T × Json T))
deriving Inhabited

namespace Json

open Text

/-- The characters that stand for `c` between quotes. -/
def escape (c : Char) : List Char :=
  match c with
  | '"' => ['\\', '"']
  | '\\' => ['\\', '\\']
  | '\n' => ['\\', 'n']
  | '\r' => ['\\', 'r']
  | '\t' => ['\\', 't']
  | '\x08' => ['\\', 'b']
  | '\x0c' => ['\\', 'f']
  | c =>
    if c.toNat < 0x20 then '\\' :: 'u' :: hexDigits 4 c.toNat else [c]

/-- A text in quotes. -/
def quoted (s : String) : List Char :=
  '"' :: s.toList.flatMap escape ++ ['"']

/-- The start of a line at the given depth. -/
def newLine (depth : Nat) : List Char :=
  '\n' :: List.replicate (2 * depth) ' '

mutual

/-- The written form of a value at the given depth. -/
def write (depth : Nat) : Json String → List Char
  | null => ['n', 'u', 'l', 'l']
  | bool true => ['t', 'r', 'u', 'e']
  | bool false => ['f', 'a', 'l', 's', 'e']
  | number literal => literal.toList
  | string text => quoted text
  | array [] => ['[', ']']
  | array (item :: items) =>
    '[' :: newLine (depth + 1) ++ write (depth + 1) item ++ writeItems (depth + 1) items ++
      newLine depth ++ [']']
  | object [] => ['\x7b', '\x7d']
  | object (member :: members) =>
    '\x7b' :: newLine (depth + 1) ++ writeMember (depth + 1) member ++
      writeMembers (depth + 1) members ++ newLine depth ++ ['\x7d']

/-- The written form of the items behind the first one. -/
def writeItems (depth : Nat) : List (Json String) → List Char
  | [] => []
  | item :: items => ',' :: newLine depth ++ write depth item ++ writeItems depth items

/-- The written form of a member. -/
def writeMember (depth : Nat) : String × Json String → List Char
  | (key, value) => quoted key ++ [':', ' '] ++ write depth value

/-- The written form of the members behind the first one. -/
def writeMembers (depth : Nat) : List (String × Json String) → List Char
  | [] => []
  | member :: members => ',' :: newLine depth ++ writeMember depth member ++ writeMembers depth members

end

/-- The written form of a value. -/
def text (j : Json String) : String :=
  String.ofList (write 0 j)

/-- A natural number. -/
def ofNat {T : Type} (n : Nat) : Json T :=
  number (toString n)

end Json

end LineBasic
