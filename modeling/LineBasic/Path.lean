import LineBasic.Text.Digits
/-!
Paths as texts. A slash separates the names; a path that starts with one is absolute. Repeated slashes, slashes at the end,
and single dots behind a slash do not count.
-/
namespace LineBasic.Path

/-- A path, backwards, without what does not count at its end. -/
def dropTail : List Char → List Char
  | '/' :: cs => dropTail cs
  | '.' :: '/' :: cs => dropTail cs
  | cs => cs

/-- A character that belongs to a name. -/
def isNameChar (c : Char) : Bool :=
  c != '/'

/-- A path is absolute. -/
def isAbsolute (path : String) : Bool :=
  path.toList.head? == some '/'

/-- The place that `path` names when it is taken from `base`. -/
def join (base path : String) : String :=
  if isAbsolute path then path
  else
    match base.toList.getLast? with
    | none | some '/' => base ++ path
    | some _ => base ++ "/" ++ path

/-- The name that a path ends in, if it is not one of the dots that stand for directories. -/
def fileName? (path : String) : Option String :=
  let name := String.ofList ((dropTail path.toList.reverse).takeWhile isNameChar).reverse
  if name = "" || name = "." || name = ".." then none else some name

/-- The directory that a path lies in. -/
def parent? (path : String) : Option String :=
  let cs := dropTail path.toList.reverse
  if cs.isEmpty then none
  else
    let front := dropTail (cs.dropWhile isNameChar)
    if front.isEmpty && isAbsolute path then some "/" else some (String.ofList front.reverse)

/-- There is a dot in a name behind its first character. -/
def hasExtension (name : String) : Bool :=
  name.toList.tail.contains '.'

/-- A path with an extension added to the name that it ends in. What does not count behind the name is dropped. -/
def addExtension (extension path : String) : String :=
  String.ofList (dropTail path.toList.reverse).reverse ++ "." ++ extension

/-- The place of the program that a user calls `name`: relative to `base`, and with the extension of program files if it
has none. -/
def ofProgram (base name : String) : String :=
  let path := join base name
  match fileName? path with
  | some file => if hasExtension file then path else addExtension "bas" path
  | none => path

end LineBasic.Path
