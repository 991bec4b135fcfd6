import LineBasic.Worker
/-!
A controller runs one program at a time on a worker of its own. A run is started with a new machine; while it goes on, no
other one is started. Its outcome is handed to whoever waits for it first.

A request to stop is kept until the machine sees it at a poll, until a run ends, or until it is withdrawn.
-/
namespace LineBasic

/-- A controller, and the worker whose outcome nobody has waited for yet. -/
structure Controller (R W : Type) where
  shared : Shared W
  worker : Option (Worker R W) := none

namespace Controller

variable {R W : Type}

/-- A controller that never ran anything, in the given world. -/
def new (world : W) : Controller R W :=
  { shared := { signals := { world } } }

/-- A run is going on. -/
def isRunning (c : Controller R W) : Bool :=
  c.shared.phase == .running

/-- A stop is requested. -/
def isStopRequested (c : Controller R W) : Bool :=
  c.shared.signals.stop

/-- The controller with its signals changed. -/
def onSignals (f : Signals W → Signals W) (c : Controller R W) : Controller R W :=
  { c with shared := { c.shared with signals := f c.shared.signals } }

/-- Requests that the run be stopped, or the next one if none is going on. -/
def requestStop (c : Controller R W) : Controller R W :=
  c.onSignals Signals.requestStop

/-- Withdraws a request to stop. -/
def clearStop (c : Controller R W) : Controller R W :=
  c.onSignals Signals.clearStop

/-- The controller with its world changed. -/
def onWorld (f : W → W) (c : Controller R W) : Controller R W :=
  c.onSignals (Signals.onWorld f)

/-- What is to be run: a new machine, or the reason why there is none; the natives for it; and what the worker does when
the run is over. -/
structure Job (R W : Type) where
  machine : Except Error (Machine R (Signals W))
  natives : List (NativeSet R (Signals W)) := []
  duties : Worker.Duties W
  /-- What the system says when it has no thread for the worker. -/
  threadError : Option String := none

/-- The machine of a job with its natives bound. Its runs are broken when a stop is requested. -/
def Job.bound (job : Job R W) (machine : Machine R (Signals W)) : Machine R (Signals W) :=
  job.natives.foldl (fun m set => set.bindTo m)
    { machine with hook := some fun signals => (signals.stop, signals) }

/-- The signals after the natives of a job were bound. -/
def Job.bindSignals (job : Job R W) (signals : Signals W) : Signals W :=
  job.natives.foldl (fun signals set => set.onBind signals) signals

/-- A start while a run is going on. -/
def alreadyRunning : Error :=
  ErrorCode.invalidState.error "PROGRAM IS RUNNING"

variable [NumberSystem R]

/-- At most `fuel` steps of the worker. -/
def advance (c : Controller R W) (fuel : Nat) : Controller R W :=
  match c.worker with
  | none => c
  | some worker =>
    let (worker, shared) := worker.advance c.shared fuel
    { shared, worker := some worker }

/-- The steps that a worker takes at most after it has left the running phase. -/
def stepsToFinish : Nat := 2

/-- The controller without a worker. One that has left the running phase is let finish first. -/
def reap (c : Controller R W) : Controller R W :=
  { c.advance stepsToFinish with worker := none }

/-- Starts a run of a script, unless one is going on, no machine can be made, the script is malformed, or there is no
thread for the worker. A request to stop that is there already is kept for the run. -/
def start (job : Job R W) (script : Script) (c : Controller R W) :
    Except Error Unit × Controller R W :=
  if c.isRunning then (.error alreadyRunning, c)
  else
    let c := c.reap
    match job.machine with
    | .error e => (.error (ErrorCode.engineFailure.error e.text), c)
    | .ok machine =>
      let signals := job.bindSignals c.shared.signals
      match (job.bound machine).load script.text with
      | .error e => (.error e, { c with shared := { c.shared with signals } })
      | .ok machine =>
        match job.threadError with
        | some reason =>
          (.error (ErrorCode.engineFailure.error reason), { c with shared := { phase := .idle, signals } })
        | none =>
          (.ok (),
            { shared := { phase := .running, signals }
              worker := some (Worker.begin machine job.duties) })

/-- The outcome of a worker, if it is over, taken from the controller. After a worker that broke down the controller is
idle. -/
def collect (c : Controller R W) : Option Outcome × Controller R W :=
  match c.worker with
  | none => (none, c)
  | some worker =>
    match worker.state with
    | .finished outcome => (some outcome, { c with worker := none })
    | .died =>
      (some (.failed Outcome.breakdown),
        { shared := { c.shared with phase := .idle }, worker := none })
    | _ => (none, c)

/-- The steps that a worker takes at most to its end once a stop is requested: a poll is due within a period, and then the
worker clears up. -/
def stepsToStop (c : Controller R W) : Nat :=
  match c.worker.map Worker.state with
  | some (.calling machine _) => machine.period + 4
  | _ => 4

/-- Waits for the end of the run, if one has been started, and takes its outcome. The run has to end within `fuel`
steps; otherwise it goes on. -/
def wait (fuel : Nat) (c : Controller R W) : Option Outcome × Controller R W :=
  (c.advance fuel).collect

/-- The controller after its run, if there is one, was stopped and waited for. No request to stop is left. -/
def halt (c : Controller R W) : Controller R W :=
  (c.requestStop.wait c.stepsToStop).2.clearStop

end Controller

end LineBasic
