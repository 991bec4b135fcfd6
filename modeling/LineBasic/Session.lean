import LineBasic.AutoCursor
import LineBasic.Cart
import LineBasic.Command
import LineBasic.Config
import LineBasic.Listing
/-!
What a user of the shell works on: the stored program, automatic line numbers, switches, and the open cart. Every command
but RUN and STOP acts on a session and on a storage; one that fails changes nothing in the session but the manifest of the
open cart.
-/
namespace LineBasic

/-- A session. -/
structure Session where
  listing : Listing := .empty
  auto : AutoCursor := {}
  /-- The directory that programs and carts are looked for in. -/
  directory : String
  verbose : Bool
  flags : Flags
  /-- The file that was saved or loaded last. -/
  lastFile : Option String := none
  cart : Option Cart := none
deriving DecidableEq

namespace Session

/-- The session that a shell starts with. -/
def new (config : Config) : Session :=
  { directory := config.scriptsDirectory, verbose := config.verbose, flags := config.flags }

/-- The session with a line stored, or removed if it is empty. -/
def enter (number : LineNumber) (content : String) (s : Session) : Session :=
  { s with listing := s.listing.store { number, content } }

/-- The session with a line stored that was typed with its number. -/
def enterNumbered (number : LineNumber) (content : String) (s : Session) :
    Except Error (String × Session) :=
  if maxLineNumber < number then .error Line.numberOverflow
  else
    let s := s.enter number content
    .ok ("", { s with auto := s.auto.follow number })

/-- The session with a line stored under the number that AUTO gives. -/
def enterBare (content : String) (s : Session) : Session :=
  match s.auto.take with
  | some (number, auto) => { s.enter number content with auto }
  | none => s

/-- The session with AUTO switched off. -/
def stopAuto (s : Session) : Session :=
  { s with auto := s.auto.stop }

/-- The word for the state of a switch. -/
def onOff (on : Bool) : String :=
  if on then "ON" else "OFF"

/-- The state of a pass as it is shown. -/
def passText (flags : Flags) : Pass → String
  | .ast => Pass.ast.name ++ " " ++ onOff flags.ast
  | .peephole => Pass.peephole.name ++ " " ++ onOff flags.peephole

/-- The session with a pass switched, and the state of that pass; without a switch the pass stays as it is. -/
def switchPass (pass : Pass) (on : Option Bool) (s : Session) : String × Session :=
  let flags := match pass with
    | .ast => { s.flags with ast := on.getD s.flags.ast }
    | .peephole => { s.flags with peephole := on.getD s.flags.peephole }
  (passText flags pass, { s with flags })

/-- The session with AUTO switched on. -/
def startAuto (config : Config) (isRunning : Bool) (start increment : Option Nat) (s : Session) :
    Except Error (String × Session) :=
  let start := start.getD config.autoStart
  let increment := increment.getD config.autoIncrement
  if isRunning then .error (ErrorCode.invalidState.error "PROGRAM IS RUNNING")
  else if increment = 0 then .error (ErrorCode.illegalFunctionCall.error "INCREMENT")
  else if maxLineNumber < start then .error Line.numberOverflow
  else .ok ("", { s with auto := .start start increment })

/-- The text of the lines between two numbers. -/
def listText (first last : Option LineNumber) (s : Session) : String :=
  "\n".intercalate
    ((s.listing.range (first.getD 0) (last.getD Text.maxWord32)).map Line.text)

/-- There is no open cart. -/
def noCart : Error :=
  { code := .noCart }

section Files

variable {m : Type → Type} [Monad m]

/-- The file that SAVE writes. -/
def saveTarget (name : Option String) (s : Session) : Except Error String :=
  match name, s.lastFile with
  | some name, _ => .ok (Path.ofProgram s.directory name)
  | none, some file => .ok file
  | none, none => .error (ErrorCode.nothingToSave.error "NO FILE NAME")

/-- Writes the program into a file. -/
def save (storage : Storage m) (name : Option String) (s : Session) :
    ExceptT Error m (String × Session) := do
  let file ← ExceptT.mk (return s.saveTarget name)
  storage.write file s.listing.text.toUTF8
  return ("", { s with lastFile := some file })

/-- The program in a file. -/
def readProgram (storage : Storage m) (file : String) : ExceptT Error m Listing := do
  match String.fromUTF8? (← storage.read file) with
  | some text => ExceptT.mk (return Listing.read text)
  | none => throw (ErrorCode.diskIoError.error "NOT A TEXT FILE")

/-- Reads the program from a file. -/
def load (storage : Storage m) (name : String) (s : Session) :
    ExceptT Error m (String × Session) := do
  let file := Path.ofProgram s.directory name
  let listing ← readProgram storage file
  return ("", { s with listing, lastFile := some file })

/-- The rows of the directory as they are shown. -/
def directoryText (storage : Storage m) (s : Session) : ExceptT Error m (String × Session) := do
  let entries ← storage.list s.directory
  return ("\n".intercalate (entries.map Entry.text), s)

/-- Makes a cart and opens it. -/
def createCart (storage : Storage m) (path : String) (s : Session) :
    ExceptT Error m (String × Session) := do
  let cart ← Cart.create storage (Path.join s.directory path)
  return ("", { s with cart := some cart })

/-- Opens a cart, and takes over the program in it if there is one. -/
def useCart (storage : Storage m) (path : String) (s : Session) :
    ExceptT Error m (String × Session) := do
  let cart ← Cart.open storage (Path.join s.directory path)
  let listing ← match ← cart.program? storage with
    | some text => ExceptT.mk (return Listing.read text)
    | none => pure s.listing
  return ("CART " ++ cart.manifest.name, { s with listing, cart := some cart })

/-- The result of an operation that changes the session only if it succeeds. -/
def attempt (operation : ExceptT Error m (String × Session)) (s : Session) :
    m (Except Error String × Session) := do
  match ← operation.run with
  | .ok (output, s) => return (.ok output, s)
  | .error e => return (.error e, s)

/-- The result of an operation on the open cart. -/
def onCart (operation : Cart → m (Except Error String × Cart)) (s : Session) :
    m (Except Error String × Session) := do
  match s.cart with
  | none => return (.error noCart, s)
  | some cart =>
    let (result, cart) ← operation cart
    return (result, { s with cart := some cart })

/-- Saves the program into a cart. -/
def saveCart (storage : Storage m) (program : String) (cart : Cart) :
    m (Except Error String × Cart) := do
  let (result, cart) ← cart.save storage program
  return (result.map fun _ => "", cart)

/-- How an asset is shown. -/
def assetText (asset : Asset) : String :=
  asset.kind.name ++ "/" ++ asset.name ++ " " ++ Checksum.text asset.checksum

/-- Copies a file into a cart. -/
def copyAsset (storage : Storage m) (kind : AssetKind) (source name : String) (cart : Cart) :
    m (Except Error String × Cart) := do
  let (result, cart) ← cart.copy storage kind source name
  return (result.map assetText, cart)

/-- What a command that is neither RUN nor STOP answers, and the session behind it. -/
def perform (config : Config) (isRunning : Bool) (storage : Storage m) (command : Command)
    (s : Session) : m (Except Error String × Session) :=
  match command with
  | .list first last => return (.ok (s.listText first last), s)
  | .new => return (.ok "", { s with listing := .empty, lastFile := none })
  | .run | .stop => return (.ok "", s)
  | .save name => s.attempt (s.save storage name)
  | .load name => s.attempt (s.load storage name)
  | .auto start increment =>
    s.attempt (ExceptT.mk (return s.startAuto config isRunning start increment))
  | .delete first last => return (.ok "", { s with listing := (s.listing.delete first last).2 })
  | .renum start increment first =>
    s.attempt <| ExceptT.mk <| return do
      let listing ← s.listing.renumber (start.getD 10) (increment.getD 10) (first.getD 0)
      return ("", { s with listing })
  | .dir => s.attempt (s.directoryText storage)
  | .createCart path => s.attempt (s.createCart storage path)
  | .useCart path => s.attempt (s.useCart storage path)
  | .saveCart => s.onCart (saveCart storage s.listing.text)
  | .closeCart =>
    match s.cart with
    | none => return (.error noCart, s)
    | some _ => return (.ok "", { s with cart := none })
  | .copy kind source name =>
    s.onCart (copyAsset storage kind (Path.join s.directory source) name)
  | .verbose on =>
    let verbose := on.getD s.verbose
    return (.ok ("VERBOSE " ++ onOff verbose), { s with verbose })
  | .optimize none =>
    return (.ok (passText s.flags .ast ++ "\n" ++ passText s.flags .peephole), s)
  | .optimize (some (pass, on)) =>
    let (output, s) := s.switchPass pass on
    return (.ok output, s)
  | .unknown name => return (.error (ErrorCode.unknownCommand.error name), s)

end Files

end Session

end LineBasic
