/-!
Blank characters, and the ways a text is cut at them: trimming an end, and splitting into words.
-/
namespace LineBasic.Text

/-- The twenty-five characters with the Unicode property White_Space. -/
def isSpace (c : Char) : Bool :=
  let n := c.toNat
  (0x09 ≤ n && n ≤ 0x0D) || n == 0x20 || n == 0x85 || n == 0xA0 || n == 0x1680 ||
    (0x2000 ≤ n && n ≤ 0x200A) || n == 0x2028 || n == 0x2029 || n == 0x202F || n == 0x205F ||
    n == 0x3000

/-- `cs` without the blanks it starts with. -/
def trimLeft (cs : List Char) : List Char :=
  cs.dropWhile isSpace

/-- `cs` without the blanks it ends in. -/
def trimRight (cs : List Char) : List Char :=
  (cs.reverse.dropWhile isSpace).reverse

/-- `cs` without the blanks at either end. -/
def trim (cs : List Char) : List Char :=
  trimRight (trimLeft cs)

/-- `s` without the blanks at either end. -/
def trimmed (s : String) : String :=
  String.ofList (trim s.toList)

/-- Nothing but blanks, or nothing at all. -/
def isBlank (s : String) : Bool :=
  s.toList.all isSpace

/-- The words of a text whose current word, read so far, is `word` backwards. -/
def wordsFrom (word : List Char) : List Char → List String
  | [] => if word.isEmpty then [] else [String.ofList word.reverse]
  | c :: cs =>
    if isSpace c then
      if word.isEmpty then wordsFrom [] cs else String.ofList word.reverse :: wordsFrom [] cs
    else wordsFrom (c :: word) cs

/-- The longest runs of characters without a blank, in order. -/
def words (cs : List Char) : List String :=
  wordsFrom [] cs

/-- The lines of a text whose current line, read so far, is `line` backwards. -/
def linesFrom (line : List Char) : List Char → List (List Char)
  | [] => if line.isEmpty then [] else [line.reverse]
  | c :: cs =>
    if c = '\n' then
      (match line with
        | '\r' :: line => line.reverse
        | line => line.reverse) :: linesFrom [] cs
    else linesFrom (c :: line) cs

/-- The lines of a text. A line ends at a line feed, which takes one carriage return before it
along; the text after the last line feed is a line unless it is empty. -/
def lines (s : String) : List String :=
  (linesFrom [] s.toList).map String.ofList

end LineBasic.Text
