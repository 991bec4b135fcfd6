import LineBasic.Controller
import LineBasic.Input
import LineBasic.Session
/-!
The shell takes one line at a time. It edits the stored program, performs a command, or runs the program; and it answers
each line with an output or a failure. What a running program writes, its errors in the background, and the start and the
end of every run go to three sinks.
-/
namespace LineBasic

/-- Where a shell reports to, in a world `W`. What programs write goes to the console. -/
structure Sinks (W : Type) extends Console W where
  /-- Takes the errors of runs in the background. -/
  fail : String → W → W
  /-- Is told `true` when a run starts, and `false` when it is over. -/
  status : Bool → W → W

/-- Why a line failed. -/
inductive Failure where
  | command (e : Error)
  | compile (e : CompileError)
deriving DecidableEq, Repr

/-- The wording of a failure. -/
def Failure.message : Failure → String
  | command e => e.message
  | compile e => e.message

/-- What a line is answered with. -/
abbrev Reply := Except Failure String

/-- What a line has led to. -/
inductive Turn where
  | done (reply : Reply)
  /-- The program is running, and the reply is due when it has ended. -/
  | running

/-- A shell, with the worlds of its runs. -/
structure Shell (R W : Type) where
  config : Config
  session : Session
  controller : Controller R W
  /-- A machine for the next run, or the reason why there is none. -/
  machine : Except Error (Machine R (Signals W))
  natives : List (NativeSet R (Signals W))
  sinks : Sinks W
  /-- What the system says when it has no thread for the next run. -/
  threadError : Option String := none

namespace Shell

variable {R W : Type} [NumberSystem R]

/-- A new shell. Programs can call the standard natives and those of `more`. -/
def new (config : Config) (sinks : Sinks W) (world : W)
    (more : List (NativeSet R (Signals W))) : Shell R W where
  config := config
  session := .new config
  controller := .new world
  machine := .ok { interval := config.pollInterval }
  natives := .standard sinks.toConsole.onSignals :: more
  sinks := sinks

/-- The signatures of all natives. -/
def registry (shell : Shell R W) : Registry :=
  NativeSet.registry shell.natives

/-- The number that AUTO would give to the next line. -/
def autoPrompt (shell : Shell R W) : Option LineNumber :=
  shell.session.auto.peek

/-- The shell with a part of its controller's world changed. -/
def report (f : W → W) (shell : Shell R W) : Shell R W :=
  { shell with controller := shell.controller.onWorld f }

/-- What is reported when a run is over: the error of a run in the background, and the end of the run. -/
def reportEnd (shell : Shell R W) (outcome : Outcome) (world : W) : W :=
  shell.sinks.status false <|
    match shell.config.backgroundRun, outcome with
    | true, .failed e => shell.sinks.fail e.message world
    | _, _ => world

/-- What a run of the shell consists of. -/
def job (shell : Shell R W) : Controller.Job R W where
  machine := shell.machine
  natives := shell.natives
  threadError := shell.threadError
  duties := { report := fun outcome world => some (shell.reportEnd outcome world) }

/-- Starts a run of a script. -/
def start (script : Script) (shell : Shell R W) : Turn × Shell R W :=
  let shell := if shell.session.verbose then shell.report (shell.sinks.write script.text) else shell
  let shell := shell.report (shell.sinks.status true)
  match shell.controller.start shell.job script with
  | (.error e, controller) =>
    (.done (.error (.command e)), { shell with controller }.report (shell.sinks.status false))
  | (.ok (), controller) =>
    (if shell.config.backgroundRun then .done (.ok "") else .running, { shell with controller })

/-- Runs the stored program. A program that is still running is stopped first. -/
def run (shell : Shell R W) : Turn × Shell R W :=
  let shell := { shell with controller := shell.controller.halt }
  match compile R shell.registry shell.session.flags shell.session.listing.source with
  | .error e => (.done (.error (.compile e)), shell)
  | .ok script => shell.start script

/-- The reply to a line whose program has ended. -/
def replyOf : Outcome → Reply
  | .completed => .ok ""
  | .stopped => .ok (Error.message { code := .break })
  | .failed e => .error (.command e)

/-- Waits for the end of the program that is running, at most `fuel` steps. The reply is that to the line that started
it. -/
def finish (fuel : Nat) (shell : Shell R W) : Option Reply × Shell R W :=
  match shell.controller.worker with
  | none => (some (.ok ""), shell)
  | some _ =>
    let (outcome, controller) := shell.controller.wait fuel
    (outcome.map replyOf, { shell with controller })

/-- Waits for the end of a run, at most `fuel` steps, and takes its outcome. -/
def wait (fuel : Nat) (shell : Shell R W) : Option Outcome × Shell R W :=
  let (outcome, controller) := shell.controller.wait fuel
  (outcome, { shell with controller })

section Lines

variable {m : Type → Type} [Monad m]

/-- Performs a command. -/
def perform (storage : Storage m) (command : Command) (shell : Shell R W) :
    m (Turn × Shell R W) :=
  match command with
  | .run => return shell.run
  | .stop => return (.done (.ok ""), { shell with controller := shell.controller.requestStop })
  | command => do
    let (result, session) ←
      shell.session.perform shell.config shell.controller.isRunning storage command
    return (.done (result.mapError .command), { shell with session })

/-- Takes a line. While AUTO is on, a line that is neither numbered nor a command goes into the program, and a command
switches AUTO off. -/
def takeLine (storage : Storage m) (text : String) (shell : Shell R W) : m (Turn × Shell R W) :=
  let session := shell.session
  match Input.classify text with
  | .empty => return (.done (.ok ""), { shell with session := session.stopAuto })
  | .numbered number content =>
    match session.enterNumbered number content with
    | .ok (output, session) => return (.done (.ok output), { shell with session })
    | .error e => return (.done (.error (.command e)), shell)
  | .command name args =>
    if session.auto.active && !Command.isKnown name then
      return (.done (.ok ""), { shell with session := session.enterBare (Text.trimmed text) })
    else
      let shell := { shell with session := session.stopAuto }
      match Command.parse name args with
      | .error e => return (.done (.error (.command e)), shell)
      | .ok command => shell.perform storage command

end Lines

end Shell

end LineBasic
