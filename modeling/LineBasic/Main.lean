import LineBasic.Binary64
import LineBasic.Shell
import Std.Time.DateTime.Timestamp
/-!
The command line: a shell on the standard streams and the local disk. A program in the background goes on while the next
line is waited for.
-/
namespace LineBasic.Main

/-- What programs leave for the terminal, and where their random numbers come from. -/
structure Terminal where
  seed : StdGen
  written : String := ""

/-- The sinks of the shell. -/
def sinks : Sinks Terminal where
  write s t := { t with written := t.written ++ s }
  random t :=
    let (draw, seed) := randNat t.seed 0 0x1FFFFFFFFFFFFF
    (draw, { t with seed })
  fail s t := { t with written := t.written ++ s ++ "\n" }
  status _ t := t

/-- What the system refuses. -/
def refusal : IO.Error → FileError
  | .noFileOrDirectory _ _ _ => .notFound
  | .noSuchThing _ _ _ => .notFound
  | .alreadyExists _ _ _ => .alreadyExists
  | e => .other (toString e)

/-- An operation of the system whose refusals are reported as errors. -/
def attempt {α : Type} (operation : IO α) : ExceptT Error IO α :=
  ExceptT.mk do
    match ← operation.toBaseIO with
    | .ok a => return .ok a
    | .error e => return .error (refusal e).toError

/-- The point in time that a file was changed at. -/
def timeOf (t : IO.FS.SystemTime) : Timestamp :=
  { seconds := t.sec, nanos := t.nsec.toNat }

/-- The rows of a directory. -/
def rows (path : String) : IO (List Entry) := do
  let entries ← (← IO.FS.realPath path).readDir
  entries.toList.mapM fun entry => do
    let data ← entry.path.metadata
    return {
      name := entry.fileName
      isDirectory := data.type == .dir
      size := data.byteSize.toNat
      modified := some (timeOf data.modified) }

/-- Copies a file, and says how many bytes it has. -/
def copyFile (source target : String) : IO Nat := do
  let input ← IO.FS.Handle.mk source .read
  let output ← IO.FS.Handle.mk target .write
  let bytes ← input.readBinToEnd
  output.write bytes
  return bytes.size

/-- The present time. -/
def now : IO Timestamp := do
  let t ← Std.Time.Timestamp.now
  return { seconds := t.val.second.val, nanos := t.val.nano.val.toNat }

/-- The local disk. -/
def disk : Storage IO where
  read path := attempt (IO.FS.readBinFile path)
  write path bytes := attempt (IO.FS.writeBinFile path bytes)
  list path := do
    return (← attempt (rows path)).mergeSort fun a b => a.name ≤ b.name
  copy source target := attempt (copyFile source target)
  createDirectory path := attempt (IO.FS.createDirAll path)
  exists? path := do
    match ← (IO.FS.realPath path).toBaseIO with
    | .ok file => file.pathExists
    | .error _ => return false
  now := now

/-- The shell of this program. -/
abbrev LocalShell := Shell Float Terminal

/-- The shell after everything that its programs left was written. -/
def flush (shell : LocalShell) : IO LocalShell := do
  let out ← IO.getStdout
  out.putStr shell.controller.shared.signals.world.written
  out.flush
  return shell.report fun t => { t with written := "" }

/-- The steps that a program takes before its output is written. -/
def slice : Nat := 10000

/-- The reply to a line whose program is running. -/
partial def finish (shell : LocalShell) : IO (Reply × LocalShell) := do
  let (reply, shell) := shell.finish slice
  let shell ← flush shell
  match reply with
  | some reply => return (reply, shell)
  | none => finish shell

/-- The line that a task reads, and the shell at that time. -/
partial def await (line : Task (Except IO.Error String)) (shell : LocalShell) :
    IO (String × LocalShell) := do
  if !shell.controller.isRunning || (← IO.hasFinished line) then
    return (← IO.ofExcept line.get, shell)
  else
    await line (← flush { shell with controller := shell.controller.advance slice })

/-- Takes lines until the input ends. -/
partial def loop (shell : LocalShell) : IO Unit := do
  let out ← IO.getStdout
  if let some number := shell.autoPrompt then
    out.putStr (toString number ++ " ")
    out.flush
  let input ← IO.getStdin
  let (line, shell) ← await (← IO.asTask input.getLine) shell
  if line.isEmpty then return
  let (turn, shell) ← shell.takeLine disk line
  let (reply, shell) ← match turn with
    | .done reply => pure (reply, ← flush shell)
    | .running => finish shell
  match reply with
  | .ok "" => pure ()
  | .ok output => out.putStrLn output
  | .error e => out.putStrLn e.message
  if let (.command _ _, none) := (Input.classify line, shell.autoPrompt) then
    out.putStrLn "READY."
  loop shell

/-- The settings that the environment asks for. -/
def settings : IO Config := do
  let directory ← IO.getEnv "CARTBASIC_SCRIPTS"
  let verbose ← IO.getEnv "CARTBASIC_VERBOSE"
  let background ← IO.getEnv "CARTBASIC_BACKGROUND"
  let look (name : String) : Option String :=
    match name with
    | "CARTBASIC_SCRIPTS" => directory
    | "CARTBASIC_VERBOSE" => verbose
    | "CARTBASIC_BACKGROUND" => background
    | _ => none
  let config ← match ← IO.getEnv "CARTBASIC_CONFIG" with
    | none => pure {}
    | some path =>
      match ← (Config.load disk path).run with
      | .ok config => pure config
      | .error e =>
        IO.eprintln (path ++ ": " ++ e.message)
        pure {}
  return config.withVariables look

end LineBasic.Main

/-- Runs a shell on the standard streams. -/
def main : IO Unit := do
  let config ← LineBasic.Main.settings
  IO.println "READY."
  let seed := mkStdGen (← IO.rand 0 0x7FFFFFFF)
  LineBasic.Main.loop (.new config LineBasic.Main.sinks { seed } [])
