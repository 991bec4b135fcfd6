import LineBasic.Native
/-!
A worker takes a loaded machine through one run and then clears up, step by step: it calls the entry label, drops the
machine, withdraws the stop request, leaves the running phase, and reports how the run ended.

Between two steps of a worker anything else may happen, so each step is a function on what the worker shares with its
surroundings.
-/
namespace LineBasic

/-- How a run ended, as far as its owner is told. -/
inductive Outcome where
  | completed
  /-- The run was broken. -/
  | stopped
  | failed (e : Error)
deriving DecidableEq, Repr

namespace Outcome

/-- The error of a machine that broke down. -/
def breakdown : Error :=
  ErrorCode.engineFailure.error "ENGINE PANICKED"

/-- The outcome of a run that ended in the given way. -/
def ofEnding : Ending → Outcome
  | .finished => completed
  | .failed e => if e.code = .break then stopped else failed e
  | .panicked => failed breakdown

end Outcome

/-- What natives and hooks act on: the request to stop, and a world. -/
structure Signals (W : Type) where
  stop : Bool := false
  world : W
deriving Repr

/-- The signals with a stop requested. -/
def Signals.requestStop {W : Type} (s : Signals W) : Signals W :=
  { s with stop := true }

/-- The signals with the request withdrawn. -/
def Signals.clearStop {W : Type} (s : Signals W) : Signals W :=
  { s with stop := false }

/-- The signals with a part of their world changed. -/
def Signals.onWorld {W : Type} (f : W → W) (s : Signals W) : Signals W :=
  { s with world := f s.world }

/-- A console in a world, for natives that also have a stop request in reach. -/
def Console.onSignals {W : Type} (console : Console W) : Console (Signals W) where
  write s signals := signals.onWorld (console.write s)
  random signals :=
    let (draw, world) := console.random signals.world
    (draw, { signals with world })

/-- Whether a run is going on. -/
inductive Phase where
  | idle
  | running
deriving DecidableEq, Repr

/-- What a worker shares with its surroundings. -/
structure Shared (W : Type) where
  phase : Phase := .idle
  signals : Signals W
deriving Repr

/-- Where a worker is. -/
inductive Worker.State (R W : Type) where
  /-- The machine is running. -/
  | calling (machine : Machine R (Signals W)) (registers : Registers R)
  /-- The run is over, and the machine is still there. -/
  | dropping (outcome : Outcome)
  /-- The machine is gone, and the stop request is still to be withdrawn. -/
  | clearing (outcome : Outcome)
  /-- The running phase is still to be left. -/
  | idling (outcome : Outcome)
  /-- The outcome is still to be reported. -/
  | reporting (outcome : Outcome)
  | finished (outcome : Outcome)
  /-- The worker broke down, and its outcome is lost. -/
  | died

/-- What else a worker does in its world. Either of it may break down, which yields no world. -/
structure Worker.Duties (W : Type) where
  /-- What happens when the machine is dropped. -/
  drop : W → Option W := some
  /-- The report of the outcome. -/
  report : Outcome → W → Option W

/-- A worker. -/
structure Worker (R W : Type) where
  state : Worker.State R W
  duties : Worker.Duties W

namespace Worker

variable {R W : Type} [NumberSystem R]

/-- The worker of a loaded machine. -/
def begin (machine : Machine R (Signals W)) (duties : Duties W) : Worker R W :=
  match machine.start Script.entry with
  | .ok registers => { state := .calling machine registers, duties }
  | .error e => { state := .dropping (.failed e), duties }

/-- The worker in state `next` and its world after a duty was done, or dead if that broke down. -/
def doing (duty : W → Option W) (next : State R W) (worker : Worker R W) (shared : Shared W) :
    Worker R W × Shared W :=
  match duty shared.signals.world with
  | some world =>
    ({ worker with state := next }, { shared with signals := { shared.signals with world } })
  | none => ({ worker with state := .died }, shared)

/-- One step of a worker. -/
def step (worker : Worker R W) (shared : Shared W) : Worker R W × Shared W :=
  match worker.state with
  | .calling machine registers =>
    let ⟨phase, signals⟩ := shared
    match machine.step registers signals with
    | (.running registers, signals) =>
      ({ worker with state := .calling machine registers }, { phase, signals })
    | (.ended ending _, signals) =>
      ({ worker with state := .dropping (.ofEnding ending) }, { phase, signals })
  | .dropping outcome => worker.doing worker.duties.drop (.clearing outcome) shared
  | .clearing outcome =>
    ({ worker with state := .idling outcome },
      { shared with signals := shared.signals.clearStop })
  | .idling outcome => ({ worker with state := .reporting outcome }, { shared with phase := .idle })
  | .reporting outcome => worker.doing (worker.duties.report outcome) (.finished outcome) shared
  | .finished _ | .died => (worker, shared)

/-- What is heard of a worker once it is over. -/
def result? (worker : Worker R W) : Option Outcome :=
  match worker.state with
  | .finished outcome => some outcome
  | .died => some (.failed Outcome.breakdown)
  | _ => none

/-- A worker whose machine still exists. -/
def hasMachine (worker : Worker R W) : Bool :=
  match worker.state with
  | .calling _ _ | .dropping _ => true
  | _ => false

/-- At most `fuel` steps of a worker. -/
def advance (worker : Worker R W) (shared : Shared W) : Nat → Worker R W × Shared W
  | 0 => (worker, shared)
  | fuel + 1 =>
    match worker.result? with
    | some _ => (worker, shared)
    | none =>
      let (worker, shared) := worker.step shared
      worker.advance shared fuel

end Worker

end LineBasic
