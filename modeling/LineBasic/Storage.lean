import LineBasic.Error
import LineBasic.Timestamp
/-!
Where programs and carts are kept: the operations of a file system, in whatever monad they take place.
-/
namespace LineBasic

/-- What a file system refuses. -/
inductive FileError where
  | notFound
  | alreadyExists
  | notDirectory
  | isDirectory
  | nameTooLong
  /-- There is a NUL in the path. -/
  | invalidName
  /-- What is to be copied is no file. -/
  | notCopied
  /-- The file is no text. -/
  | notText
  | other (text : String)
deriving DecidableEq, Repr

namespace FileError

/-- The wording of the system. -/
def text : FileError → String
  | notFound => "No such file or directory (os error 2)"
  | alreadyExists => "File exists (os error 17)"
  | notDirectory => "Not a directory (os error 20)"
  | isDirectory => "Is a directory (os error 21)"
  | nameTooLong => "File name too long (os error 36)"
  | invalidName => "file name contained an unexpected NUL byte"
  | notCopied => "the source path is neither a regular file nor a symlink to a regular file"
  | notText => "stream did not contain valid UTF-8"
  | other text => text

/-- The code that a refusal is reported with. -/
def code : FileError → ErrorCode
  | notFound => .fileNotFound
  | alreadyExists => .fileAlreadyExists
  | _ => .diskIoError

/-- The error that a refusal is reported as. -/
def toError (e : FileError) : Error :=
  e.code.error e.text

end FileError

/-- One row of a directory. -/
structure Entry where
  name : String
  isDirectory : Bool := false
  size : Nat := 0
  modified : Option Timestamp := none
deriving Repr

namespace Entry

/-- A text with blanks in front, `width` characters long at least. -/
def alignRight (width : Nat) (s : String) : String :=
  String.ofList (List.replicate (width - s.length) ' ') ++ s

/-- A row as it is shown: time, size, name. -/
def text (e : Entry) : String :=
  alignRight 16 ((e.modified.map Timestamp.shortText).getD "") ++ "  " ++
    alignRight 10 (if e.isDirectory then "<DIR>" else toString e.size) ++ "  " ++
    e.name ++ (if e.isDirectory then "/" else "")

end Entry

/-- A file system and a clock, and the words for a manifest that cannot be read. -/
structure Storage (m : Type → Type) where
  read : String → ExceptT Error m ByteArray
  write : String → ByteArray → ExceptT Error m Unit
  /-- The rows of a directory in the order of their names. -/
  list : String → ExceptT Error m (List Entry)
  /-- Copies a file, and says how many bytes it has. -/
  copy : String → String → ExceptT Error m Nat
  /-- Makes a directory and those that it lies in. -/
  createDirectory : String → ExceptT Error m Unit
  exists? : String → m Bool
  now : m Timestamp
  /-- What is wrong with the bytes of a manifest, if they are none. -/
  complaint : ByteArray → String := fun _ => ""

end LineBasic
