import LineBasic.Proofs.Exclusion
import LineBasic.Proofs.Saving

/-!
A client types lines to a shell, one after another, while other threads wait for runs and request that they be stopped. RUN
is taken apart into what it does with the controller, so that anything may come in between.
-/

namespace LineBasic

/-- What the client is doing. Of RUN, what it does next. -/
inductive Errand where
  /-- Nothing. The last line was answered, and may have started a run. -/
  | resting (answer : Option (Reply × Option Nat))
  | requesting
  /-- RUN requests that the run before be stopped. -/
  | stopping
  | halting
  /-- It withdraws its request, and compiles the program. -/
  | clearing
  | listing (script : Script)
  | announcing (script : Script)
  | starting (script : Script)
  /-- It reports that the run is over which was not started. -/
  | failing (e : Error)
  /-- It waits for the run that it has started. -/
  | finishing (n : Nat)

/-- The first wait of RUN is over, and its run has not been started yet. -/
def Errand.IsPrepared : Errand → Prop
  | clearing | listing _ | announcing _ | starting _ => True
  | _ => False

namespace Shell

variable {R W : Type} [NumberSystem R]

/-- What RUN does when it has compiled the program. -/
def compiled (shell : Shell R W) : Errand :=
  match compile R shell.registry shell.session.flags shell.session.listing.source with
  | .error e => .resting (some (.error (.compile e), none))
  | .ok script => if shell.session.verbose then .listing script else .announcing script

omit [NumberSystem R] in
/-- What RUN does when its start has returned. -/
def launched (shell : Shell R W) (n : Nat) : Except Error Unit → Errand
  | .error e => .failing e
  | .ok () => if shell.config.backgroundRun then .resting (some (.ok "", some n)) else .finishing n

end Shell

/-- An action of a worker, or of a thread that is not the client's: it may wait, request a stop and act on the world. -/
def Scene.Action.IsOther {R W : Type} : Scene.Action R W → Prop
  | .work _ => True
  | .requestStop t | .onWorld t _ | .miss t | .take t _ | .join t _ | .lose t _ | .leave t _ => t ≠ 0
  | _ => False

namespace Scene

variable {R W : Type} [NumberSystem R]

/-- What the client may do on an errand, and what it does next. -/
inductive Follows (s : Scene R W) (shell : Shell R W) : Errand → Action R W → Errand → Prop
  | request : Follows s shell .requesting (.requestStop 0) (.resting (some (.ok "", none)))
  | stop : Follows s shell .stopping (.requestStop 0) .halting
  | halt {a : Action R W} (h : s.Waits 0 a none) : Follows s shell .halting a .halting
  | halted {a : Action R W} {outcome : Option Outcome} (h : s.Waits 0 a (some outcome)) :
      Follows s shell .halting a .clearing
  | clear : Follows s shell .clearing (.clearStop 0) shell.compiled
  | list (script : Script) :
      Follows s shell (.listing script) (.onWorld 0 (shell.sinks.write script.text))
        (.announcing script)
  | announce (script : Script) :
      Follows s shell (.announcing script) (.onWorld 0 (shell.sinks.status true)) (.starting script)
  | enter (script : Script) :
      Follows s shell (.starting script) (.enter 0 shell.job script) (.starting script)
  | start {script : Script} {a : Action R W} {result : Except Error Unit}
      (h : s.Starts 0 shell.job script a result) :
      Follows s shell (.starting script) a (shell.launched s.workers.length result)
  | fail (e : Error) :
      Follows s shell (.failing e) (.onWorld 0 (shell.sinks.status false))
        (.resting (some (.error (.command e), none)))
  | finish {a : Action R W} {n : Nat} (h : s.Waits 0 a none) :
      Follows s shell (.finishing n) a (.finishing n)
  | finished {a : Action R W} {n : Nat} {outcome : Option Outcome} (h : s.Waits 0 a (some outcome)) :
      Follows s shell (.finishing n) a
        (.resting (some (outcome.elim (.ok "") Shell.replyOf, some n)))

end Scene

/-- A shell, what its client is doing, and the controller that they share with other threads. The controller of the shell
itself does not count. -/
structure Dialog (R W : Type) where
  shell : Shell R W
  scene : Scene R W
  errand : Errand

namespace Dialog

variable {R W σ : Type} [NumberSystem R]

def new (config : Config) (sinks : Sinks W) (world : W) (more : List (NativeSet R (Signals W))) :
    Dialog R W where
  shell := .new config sinks world more
  scene := .new world
  errand := .resting none

omit [NumberSystem R] in
def view (d : Dialog R W) : Shell R W :=
  { d.shell with controller := d.scene.controller }

/-- What the client, other threads and workers make of a dialog, the last action first, each with the scene in which it is
taken. -/
inductive Leads (storage : Storage (StateM σ)) (start : Dialog R W) :
    List (Scene R W × Scene.Action R W) → Dialog R W → Prop
  | refl : Leads storage start [] start
  /-- A line that has nothing to do with the controller but to look whether a run is going on. -/
  | line {past : List (Scene R W × Scene.Action R W)} {d : Dialog R W} (h : Leads storage start past d)
      {answer : Option (Reply × Option Nat)} (hrest : d.errand = .resting answer) {text : String}
      (hrun : Input.command? text ≠ some .run) (hstop : Input.command? text ≠ some .stop)
      {reply : Reply} {shell : Shell R W} {s t : σ}
      (hline : (d.view.takeLine storage text).run s = ((.done reply, shell), t)) :
      Leads storage start past { d with shell, errand := .resting (some (reply, none)) }
  | stop {past : List (Scene R W × Scene.Action R W)} {d : Dialog R W} (h : Leads storage start past d)
      {answer : Option (Reply × Option Nat)} (hrest : d.errand = .resting answer) {text : String}
      (hstop : Input.command? text = some .stop) :
      Leads storage start past { d with shell := d.shell.stopAuto, errand := .requesting }
  | run {past : List (Scene R W × Scene.Action R W)} {d : Dialog R W} (h : Leads storage start past d)
      {answer : Option (Reply × Option Nat)} (hrest : d.errand = .resting answer) {text : String}
      (hrun : Input.command? text = some .run) :
      Leads storage start past { d with shell := d.shell.stopAuto, errand := .stopping }
  /-- What the next run gets: a machine or none, and a thread or none. -/
  | supply {past : List (Scene R W × Scene.Action R W)} {d : Dialog R W} (h : Leads storage start past d)
      {answer : Option (Reply × Option Nat)} (hrest : d.errand = .resting answer)
      (machine : Except Error (Machine R (Signals W))) (threadError : Option String) :
      Leads storage start past { d with shell := { d.shell with machine, threadError } }
  | client {past : List (Scene R W × Scene.Action R W)} {d : Dialog R W} (h : Leads storage start past d)
      {a : Scene.Action R W} (ha : d.scene.Allows a) {errand : Errand}
      (herrand : d.scene.Follows d.shell d.errand a errand) :
      Leads storage start ((d.scene, a) :: past) { d with scene := d.scene.after a, errand }
  | other {past : List (Scene R W × Scene.Action R W)} {d : Dialog R W} (h : Leads storage start past d)
      {a : Scene.Action R W} (ha : d.scene.Allows a) (hother : a.IsOther) :
      Leads storage start ((d.scene, a) :: past) { d with scene := d.scene.after a }

end Dialog

end LineBasic
