import LineBasic.Proofs.WorkerSteps
import Mathlib.Data.List.Basic
import Mathlib.Logic.Equiv.Basic

/-!
Threads that share a controller. A start keeps other threads out until it has succeeded or failed. A wait takes the worker
from the controller, lets the others in again, and returns when the worker is over. A request to stop is made and withdrawn
at any time. Between two such actions the workers go on.
-/

namespace LineBasic

/-- What a thread is doing with the controller. Workers are numbered in the order of their starts. -/
inductive Scene.Task (R W : Type) where
  | free
  /-- It waits for a worker that it has taken from the controller. -/
  | waiting (n : Nat)
  /-- The worker that it waited for broke down, and the running phase is still to be left. -/
  | leaving (n : Nat)
  /-- It starts a run and keeps other threads out. The worker that the controller had before is to be over first. -/
  | starting (before : Option Nat) (job : Controller.Job R W) (script : Script)

namespace Scene.Task

variable {R W : Type}

/-- The worker that only this thread can wait for. -/
def worker? : Task R W → Option Nat
  | free => none
  | waiting n | leaving n => some n
  | starting before _ _ => before

def isStarting : Task R W → Bool
  | starting _ _ _ => true
  | _ => false

end Scene.Task

/-- A controller that threads share, and what they are doing with it. -/
structure Scene (R W : Type) where
  shared : Shared W
  /-- All workers so far. -/
  workers : List (Worker R W) := []
  /-- The worker that nobody has waited for yet. -/
  held : Option Nat := none
  task : Nat → Scene.Task R W := fun _ => .free

/-- What a thread, or a worker, does without any other one in between. -/
inductive Scene.Action (R W : Type) where
  | requestStop (t : Nat)
  | clearStop (t : Nat)
  | onWorld (t : Nat) (f : W → W)
  | work (n : Nat)
  /-- A wait finds no worker and returns. -/
  | miss (t : Nat)
  | take (t n : Nat)
  /-- A wait returns after its worker has finished. -/
  | join (t n : Nat)
  | lose (t n : Nat)
  /-- A wait whose worker broke down leaves the running phase and returns. -/
  | leave (t n : Nat)
  /-- A start fails as a run is going on. -/
  | refuse (t : Nat) (job : Controller.Job R W) (script : Script)
  | enter (t : Nat) (job : Controller.Job R W) (script : Script)
  /-- A start gets to its end. -/
  | launch (t : Nat) (before : Option Nat) (job : Controller.Job R W) (script : Script)

namespace Scene

variable {R W : Type}

/-- A controller that never ran anything, and threads that do nothing with it yet. -/
def new (world : W) : Scene R W :=
  { shared := { signals := { world } } }

def controller (s : Scene R W) : Controller R W :=
  { shared := s.shared, worker := s.held.bind fun n => s.workers[n]? }

/-- No start keeps other threads out. -/
def Open (s : Scene R W) : Prop :=
  ∀ t, (s.task t).isStarting = false

def Is (s : Scene R W) (n : Nat) (p : Worker R W → Bool) : Prop :=
  ∃ worker, s.workers[n]? = some worker ∧ p worker

/-- The worker that the controller (`none`) or a thread can wait for. -/
def handle (s : Scene R W) : Option Nat → Option Nat
  | none => s.held
  | some t => (s.task t).worker?

def assign (s : Scene R W) (t : Nat) (task : Task R W) : Scene R W :=
  { s with task := Function.update s.task t task }

def unheld (s : Scene R W) : Scene R W :=
  { s with held := none }

def onSignals (s : Scene R W) (f : Signals W → Signals W) : Scene R W :=
  { s with shared := { s.shared with signals := f s.shared.signals } }

def leavePhase (s : Scene R W) : Scene R W :=
  { s with shared := { s.shared with phase := .idle } }

def Allows (s : Scene R W) : Action R W → Prop
  | .requestStop t | .clearStop t | .onWorld t _ => s.task t = .free
  | .work n => ∃ worker, s.workers[n]? = some worker ∧ (worker.isIdling → s.Open)
  | .miss t => s.Open ∧ s.task t = .free ∧ s.held = none
  | .take t n => s.Open ∧ s.task t = .free ∧ s.held = some n
  | .join t n => s.task t = .waiting n ∧
      ∃ worker outcome, s.workers[n]? = some worker ∧ worker.state = .finished outcome
  | .lose t n => s.task t = .waiting n ∧ s.Is n Worker.hasDied
  | .leave t n => s.Open ∧ s.task t = .leaving n
  | .refuse t _ _ => s.Open ∧ s.task t = .free ∧ s.shared.phase = .running
  | .enter t _ _ => s.Open ∧ s.task t = .free ∧ s.shared.phase = .idle
  | .launch t before job script => s.task t = .starting before job script ∧
      ∀ n, before = some n → s.Is n fun worker => worker.result?.isSome

/-- What a thread does while it waits, and what the wait returns if it is over then. -/
inductive Waits (s : Scene R W) (t : Nat) : Action R W → Option (Option Outcome) → Prop
  | take (n : Nat) : Waits s t (.take t n) none
  | lose (n : Nat) : Waits s t (.lose t n) none
  | miss : Waits s t (.miss t) (some none)
  | join {n : Nat} {worker : Worker R W} {outcome : Outcome} (hworker : s.workers[n]? = some worker)
      (hfinished : worker.state = .finished outcome) : Waits s t (.join t n) (some (some outcome))
  | leave (n : Nat) : Waits s t (.leave t n) (some (some (.failed Outcome.breakdown)))

section

variable {s s' : Scene R W} {owner : Option Nat} {n : Nat}

theorem Is.of_getElem? {p : Worker R W → Bool} (h : s.Is n p) {worker : Worker R W}
    (hworker : s.workers[n]? = some worker) : p worker := by
  obtain ⟨_, hworker', hp⟩ := h
  obtain rfl := Option.some.inj (hworker.symm.trans hworker')
  exact hp

theorem Is.imp {n : Nat} {p q : Worker R W → Bool} (h : s.Is n p)
    (hpq : ∀ worker, p worker → q worker) : s.Is n q := by
  obtain ⟨worker, hworker, hp⟩ := h
  exact ⟨worker, hworker, hpq worker hp⟩

@[simp]
theorem task_assign (s : Scene R W) (t : Nat) (task : Task R W) :
    (s.assign t task).task t = task := by
  simp [assign]

theorem task_assign_of_ne (s : Scene R W) {t t' : Nat} (task : Task R W) (h : t' ≠ t) :
    (s.assign t task).task t' = s.task t' := by
  simp [assign, h]

@[simp]
theorem handle_assign (s : Scene R W) (t : Nat) (task : Task R W) :
    (s.assign t task).handle = Function.update s.handle (some t) task.worker? := by
  funext owner
  cases owner with
  | none => simp [handle, assign]
  | some t' =>
      by_cases h : t' = t
      · subst h
        simp [handle, assign]
      · simp [handle, assign, h]

@[simp]
theorem handle_unheld (s : Scene R W) : s.unheld.handle = Function.update s.handle none none := by
  funext owner
  cases owner <;> simp [handle, unheld]

theorem handle_unheld_assign {t : Nat} (hfree : s.handle (some t) = none) {task : Task R W}
    (htask : task.worker? = s.held) :
    (s.unheld.assign t task).handle = s.handle ∘ Equiv.swap none (some t) := by
  rw [handle_assign, handle_unheld, htask]
  funext owner
  cases owner with
  | none => simp [hfree]
  | some t' =>
      by_cases h : t' = t
      · subst h
        simp [handle]
      · rw [Function.comp_apply, Equiv.swap_apply_of_ne_of_ne (by simp) (by simpa using h)]
        simp [h]

theorem handle_of_task {t : Nat} {task : Task R W} (h : s.task t = task) :
    s.handle (some t) = task.worker? :=
  congrArg Task.worker? h

/-- While a start keeps other threads out, no run is going on and the controller has no worker. -/
def IsGuarded (s : Scene R W) : Prop :=
  ∀ t, (s.task t).isStarting → s.shared.phase = .idle ∧ s.held = none ∧
    ∀ t', (s.task t').isStarting → t' = t

theorem isGuarded_of_open {s : Scene R W} (h : s.Open) : s.IsGuarded := by
  intro t ht
  rw [h t] at ht
  cases ht

theorem Open.assign {s : Scene R W} (h : s.Open) (t : Nat) (task : Task R W)
    (htask : task.isStarting = false) : (s.assign t task).Open := by
  intro t'
  by_cases hne : t' = t
  · subst hne
    simpa using htask
  · rw [task_assign_of_ne s task hne]
    exact h t'

theorem IsGuarded.assign {s : Scene R W} (h : s.IsGuarded) (t : Nat) {task : Task R W}
    (htask : task.isStarting = false) : (s.assign t task).IsGuarded := by
  have hstarting : ∀ t', ((s.assign t task).task t').isStarting → (s.task t').isStarting := by
    intro t' ht'
    by_cases hne : t' = t
    · subst hne
      simp [htask] at ht'
    · rwa [task_assign_of_ne s task hne] at ht'
  intro t' ht'
  obtain ⟨hphase, hheld, halone⟩ := h t' (hstarting t' ht')
  exact ⟨hphase, hheld, fun t'' ht'' => halone t'' (hstarting t'' ht'')⟩

theorem isStarting_of_allows {t : Nat} {before : Option Nat} {job : Controller.Job R W}
    {script : Script} (ha : s.Allows (.launch t before job script)) : (s.task t).isStarting := by
  rw [ha.1]
  rfl

theorem IsGuarded.open_assign {s : Scene R W} (h : s.IsGuarded) {t : Nat}
    (ht : (s.task t).isStarting) : (s.assign t .free).Open := by
  intro t'
  by_cases hne : t' = t
  · subst hne
    simp [Task.isStarting]
  · rw [task_assign_of_ne s .free hne, Bool.eq_false_iff]
    intro ht'
    exact hne ((h t ht).2.2 t' ht')

def IsHeld (s : Scene R W) (n : Nat) : Prop :=
  ∃ owner, s.handle owner = some n

/-- Every worker that can be waited for has been started, and only one can wait for it. -/
structure HasHandles (s : Scene R W) : Prop where
  lt_length : ∀ owner n, s.handle owner = some n → n < s.workers.length
  sole : ∀ owner owner' n, s.handle owner = some n → s.handle owner' = some n → owner = owner'

theorem isHeld_congr (hhandle : s'.handle = s.handle) : s'.IsHeld n ↔ s.IsHeld n := by
  unfold IsHeld
  rw [hhandle]

theorem isHeld_of_passes {owners : Equiv.Perm (Option Nat)} (hhandle : s'.handle = s.handle ∘ owners) :
    s'.IsHeld n ↔ s.IsHeld n := by
  unfold IsHeld
  rw [hhandle]
  exact owners.exists_congr_left.trans (by simp)

theorem handle_eq_some_iff_of_drops (hhandle : s'.handle = Function.update s.handle owner none)
    {owner' : Option Nat} :
    s'.handle owner' = some n ↔ owner' ≠ owner ∧ s.handle owner' = some n := by
  rw [hhandle]
  by_cases h : owner' = owner <;> simp [h]

theorem isHeld_of_drops (h : s.HasHandles) (hhandle : s'.handle = Function.update s.handle owner none) :
    s'.IsHeld n ↔ s.IsHeld n ∧ s.handle owner ≠ some n := by
  constructor
  · rintro ⟨owner', howner'⟩
    obtain ⟨hne, howner⟩ := (handle_eq_some_iff_of_drops hhandle).mp howner'
    exact ⟨⟨owner', howner⟩, fun heq => hne (h.sole owner' owner n howner heq)⟩
  · rintro ⟨⟨owner', howner'⟩, hne⟩
    refine ⟨owner', (handle_eq_some_iff_of_drops hhandle).mpr ⟨?_, howner'⟩⟩
    rintro rfl
    exact hne howner'

/-- Who can wait for a worker when a run was started: the controller for the new one. -/
theorem handle_eq_some_of_starts {t : Nat}
    (hhandle : s'.handle = Function.update (Function.update s.handle (some t) none) none
      (some s.workers.length)) (howner : s'.handle owner = some n) :
    owner = none ∧ n = s.workers.length ∨ owner ≠ none ∧ s.handle owner = some n := by
  rw [hhandle] at howner
  cases owner with
  | none =>
      rw [Function.update_self] at howner
      exact .inl ⟨rfl, (Option.some.inj howner).symm⟩
  | some t' =>
      rw [Function.update_of_ne (by simp)] at howner
      by_cases hne : t' = t
      · simp [hne] at howner
      · exact .inr ⟨by simp, by simpa [hne] using howner⟩

theorem open_new (world : W) : (new world : Scene R W).Open :=
  fun _ => rfl

theorem hasHandles_new (world : W) : (new world : Scene R W).HasHandles := by
  have hnone : ∀ owner, (new world : Scene R W).handle owner = none := by
    rintro (_ | _) <;> rfl
  exact ⟨fun owner n howner => absurd ((hnone owner).symm.trans howner) (by simp),
    fun owner _ n howner => absurd ((hnone owner).symm.trans howner) (by simp)⟩

end

variable [NumberSystem R]

def work (s : Scene R W) (n : Nat) : Scene R W :=
  match s.workers[n]? with
  | none => s
  | some worker =>
    let (worker, shared) := worker.step s.shared
    { s with shared, workers := s.workers.set n worker }

/-- What comes of a start once there is no worker at the controller. -/
def started (s : Scene R W) (job : Controller.Job R W) (script : Script) :
    Except Error Unit × Controller R W :=
  Controller.start job script { shared := s.shared }

def launch (s : Scene R W) (job : Controller.Job R W) (script : Script) : Scene R W :=
  let controller := (s.started job script).2
  { s with
    shared := controller.shared
    workers := s.workers ++ controller.worker.toList
    held := controller.worker.map fun _ => s.workers.length }

def after (s : Scene R W) : Action R W → Scene R W
  | .requestStop _ => s.onSignals Signals.requestStop
  | .clearStop _ => s.onSignals Signals.clearStop
  | .onWorld _ f => s.onSignals (Signals.onWorld f)
  | .work n => s.work n
  | .miss _ | .refuse _ _ _ => s
  | .take t n => s.unheld.assign t (.waiting n)
  | .join t _ => s.assign t .free
  | .lose t n => s.assign t (.leaving n)
  | .leave t _ => s.leavePhase.assign t .free
  | .enter t job script => s.unheld.assign t (.starting s.held job script)
  | .launch t _ job script => (s.launch job script).assign t .free

inductive Starts (s : Scene R W) (t : Nat) (job : Controller.Job R W) (script : Script) :
    Action R W → Except Error Unit → Prop
  | refuse : Starts s t job script (.refuse t job script) (.error Controller.alreadyRunning)
  | launch (before : Option Nat) :
      Starts s t job script (.launch t before job script) (s.started job script).1

/-- Actions one after another, the last one first, each with the scene in which it is taken. -/
inductive Leads (start : Scene R W) : List (Scene R W × Action R W) → Scene R W → Prop
  | refl : Leads start [] start
  | step {past : List (Scene R W × Action R W)} {s : Scene R W} (h : Leads start past s)
      {a : Action R W} (ha : s.Allows a) : Leads start ((s, a) :: past) (s.after a)

variable {s s' : Scene R W}

theorem work_of_getElem? {n : Nat} {worker : Worker R W} (h : s.workers[n]? = some worker) :
    s.work n = { s with
      shared := (worker.step s.shared).2
      workers := s.workers.set n (worker.step s.shared).1 } := by
  simp [work, h]

theorem handle_work (s : Scene R W) (n : Nat) : (s.work n).handle = s.handle := by
  unfold work
  cases s.workers[n]? with
  | none => rfl
  | some worker =>
      funext owner
      cases owner <;> rfl

theorem length_work (s : Scene R W) (n : Nat) : (s.work n).workers.length = s.workers.length := by
  unfold work
  cases s.workers[n]? with
  | none => rfl
  | some worker => exact List.length_set

theorem IsGuarded.work {s : Scene R W} (h : s.IsGuarded) {n : Nat} {worker : Worker R W}
    (hworker : s.workers[n]? = some worker) : (s.work n).IsGuarded := by
  rw [work_of_getElem? hworker]
  intro t ht
  obtain ⟨hphase, hrest⟩ := h t ht
  refine ⟨?_, hrest⟩
  have hmoves := worker.moves s.shared
  generalize worker.step s.shared = next at hmoves
  cases hmoves <;> first | exact hphase | rfl

theorem IsGuarded.after {s : Scene R W} (h : s.IsGuarded) {a : Action R W} (ha : s.Allows a) :
    (s.after a).IsGuarded := by
  cases a with
  | requestStop t => exact h
  | clearStop t => exact h
  | onWorld t f => exact h
  | work n =>
      obtain ⟨worker, hworker, -⟩ := ha
      exact h.work hworker
  | miss t => exact h
  | take t n =>
      have hopen : s.unheld.Open := ha.1
      exact isGuarded_of_open (hopen.assign t _ rfl)
  | join t n => exact h.assign t rfl
  | lose t n => exact h.assign t rfl
  | leave t n =>
      have hopen : s.leavePhase.Open := ha.1
      exact isGuarded_of_open (hopen.assign t _ rfl)
  | refuse t job script => exact h
  | enter t job script =>
      obtain ⟨hopen, -, hphase⟩ := ha
      have halone : ∀ t', ((s.after (.enter t job script)).task t').isStarting → t' = t := by
        intro t' ht'
        by_contra hne
        have hopen' := hopen t'
        simp [Scene.after, Scene.assign, Scene.unheld, hne, hopen'] at ht'
      intro t' ht'
      obtain rfl := halone t' ht'
      exact ⟨hphase, rfl, halone⟩
  | launch t before job script =>
      exact isGuarded_of_open (h.open_assign (isStarting_of_allows ha))

/-- A thread gets a new task only by its own actions. -/
theorem task_after (s : Scene R W) (a : Action R W) (t : Nat) :
    (s.after a).task t = s.task t ∨ (s.after a).task t = .free ∨
      (∃ n, a = .take t n ∧ (s.after a).task t = .waiting n) ∨
      (∃ n, a = .lose t n ∧ (s.after a).task t = .leaving n) ∨
      ∃ job script, a = .enter t job script ∧
        (s.after a).task t = .starting s.held job script := by
  have hassign : ∀ (s' : Scene R W) (t' : Nat) (task : Task R W), s'.task = s.task →
      (s'.assign t' task).task t = s.task t ∨ t' = t ∧ (s'.assign t' task).task t = task := by
    intro s' t' task htask
    by_cases h : t = t'
    · subst h
      exact .inr ⟨rfl, task_assign s' t task⟩
    · exact .inl ((task_assign_of_ne s' task h).trans (congrFun htask t))
  cases a with
  | requestStop t' => exact .inl rfl
  | clearStop t' => exact .inl rfl
  | onWorld t' f => exact .inl rfl
  | work n =>
      refine .inl ?_
      show (s.work n).task t = s.task t
      unfold work
      cases s.workers[n]? <;> rfl
  | miss t' => exact .inl rfl
  | take t' n =>
      rcases hassign s.unheld t' (.waiting n) rfl with h | ⟨rfl, h⟩
      · exact .inl h
      · exact .inr (.inr (.inl ⟨n, rfl, h⟩))
  | join t' n =>
      rcases hassign s t' .free rfl with h | ⟨rfl, h⟩
      · exact .inl h
      · exact .inr (.inl h)
  | lose t' n =>
      rcases hassign s t' (.leaving n) rfl with h | ⟨rfl, h⟩
      · exact .inl h
      · exact .inr (.inr (.inr (.inl ⟨n, rfl, h⟩)))
  | leave t' n =>
      rcases hassign s.leavePhase t' .free rfl with h | ⟨rfl, h⟩
      · exact .inl h
      · exact .inr (.inl h)
  | refuse t' job script => exact .inl rfl
  | enter t' job script =>
      rcases hassign s.unheld t' (.starting s.held job script) rfl with h | ⟨rfl, h⟩
      · exact .inl h
      · exact .inr (.inr (.inr (.inr ⟨job, script, rfl, h⟩)))
  | launch t' before job script =>
      rcases hassign (s.launch job script) t' .free rfl with h | ⟨rfl, h⟩
      · exact .inl h
      · exact .inr (.inl h)

/-- What a start comes to that was let in. -/
inductive Launches (s : Scene R W) (job : Controller.Job R W) :
    Except Error Unit × Controller R W → Prop
  | fails (e : Error) (signals : Signals W) :
      Launches s job (.error e, { shared := { phase := .idle, signals } })
  | succeeds (machine : Machine R (Signals W)) (signals : Signals W) :
      Launches s job (.ok (), {
        shared := { phase := .running, signals }
        worker := some (Worker.begin machine job.duties) })

theorem launches {s : Scene R W} (h : s.shared.phase = .idle) (job : Controller.Job R W)
    (script : Script) : s.Launches job (s.started job script) := by
  obtain ⟨⟨_, signals⟩, workers, held, task⟩ := s
  obtain rfl := h
  unfold started Controller.start Controller.isRunning Controller.reap Controller.advance
  rw [if_neg (by simp)]
  dsimp only
  cases job.machine with
  | error e => exact .fails _ _
  | ok machine =>
      dsimp only
      cases (job.bound machine).load script.text with
      | error e => exact .fails _ _
      | ok machine =>
          cases job.threadError with
          | some reason => exact .fails _ _
          | none => exact .succeeds _ _

/-- What an action makes of the phase, of the workers, and of those who can wait for them. -/
inductive Effect (s : Scene R W) : Action R W → Scene R W → Prop
  | keeps {a : Action R W} {s' : Scene R W} (hphase : s'.shared.phase = s.shared.phase)
      (hworkers : s'.workers = s.workers) (hhandle : s'.handle = s.handle) : Effect s a s'
  | works {a : Action R W} {n : Nat} {worker : Worker R W}
      (hworker : s.workers[n]? = some worker) : Effect s a (s.work n)
  | passes {a : Action R W} {s' : Scene R W} {t : Nat}
      (hphase : s'.shared.phase = s.shared.phase) (hworkers : s'.workers = s.workers)
      (hhandle : s'.handle = s.handle ∘ Equiv.swap none (some t)) : Effect s a s'
  | joins {a : Action R W} {s' : Scene R W} {t n : Nat} {worker : Worker R W} {outcome : Outcome}
      (ht : s.handle (some t) = some n) (hworker : s.workers[n]? = some worker)
      (hfinished : worker.state = .finished outcome)
      (hphase : s'.shared.phase = s.shared.phase) (hworkers : s'.workers = s.workers)
      (hhandle : s'.handle = Function.update s.handle (some t) none) : Effect s a s'
  | leaves {s' : Scene R W} {t n : Nat} (ht : s.task t = .leaving n)
      (hphase : s'.shared.phase = .idle) (hworkers : s'.workers = s.workers)
      (hhandle : s'.handle = Function.update s.handle (some t) none) :
      Effect s (.leave t n) s'
  /-- A start fails after it was let in. -/
  | fails {a : Action R W} {s' : Scene R W} {t : Nat} (hphase : s.shared.phase = .idle)
      (hphase' : s'.shared.phase = .idle) (hworkers : s'.workers = s.workers)
      (hhandle : s'.handle = Function.update s.handle (some t) none) : Effect s a s'
  | starts {a : Action R W} {s' : Scene R W} {t : Nat} {before : Option Nat}
      {job : Controller.Job R W} {script : Script} {worker : Worker R W}
      (ht : s.task t = .starting before job script)
      (hphase : s.shared.phase = .idle) (hphase' : s'.shared.phase = .running)
      (hduties : worker.duties = job.duties) (hbusy : worker.isBusy)
      (hworkers : s'.workers = s.workers ++ [worker])
      (hhandle : s'.handle = Function.update (Function.update s.handle (some t) none) none
        (some s.workers.length)) : Effect s a s'

theorem handle_launch (s : Scene R W) (job : Controller.Job R W) (script : Script) :
    (s.launch job script).handle = Function.update s.handle none
      ((s.started job script).2.worker.map fun _ => s.workers.length) := by
  funext owner
  cases owner <;> simp [handle, launch]

theorem IsGuarded.effect_launch {s : Scene R W} (h : s.IsGuarded) {t : Nat} {before : Option Nat}
    {job : Controller.Job R W} {script : Script} (ha : s.Allows (.launch t before job script)) :
    s.Effect (.launch t before job script) (s.after (.launch t before job script)) := by
  obtain ⟨hphase, hheld, -⟩ := h t (isStarting_of_allows ha)
  have hlaunches := launches hphase job script
  have hhandle : (s.after (.launch t before job script)).handle =
      Function.update (Function.update s.handle (some t) none) none
        ((s.started job script).2.worker.map fun _ => s.workers.length) := by
    rw [Function.update_comm (by simp), ← handle_launch]
    exact handle_assign _ t .free
  have hshared : (s.after (.launch t before job script)).shared =
    (s.started job script).2.shared := rfl
  have hworkers : (s.after (.launch t before job script)).workers =
    s.workers ++ (s.started job script).2.worker.toList := rfl
  generalize s.started job script = result at hlaunches hhandle hshared hworkers
  cases hlaunches with
  | fails e signals =>
      refine .fails (t := t) hphase (congrArg Shared.phase hshared) (by simpa using hworkers) ?_
      rw [hhandle]
      exact Function.update_eq_self_iff.mpr (by simp [handle, hheld])
  | succeeds machine signals =>
      exact .starts ha.1 hphase (congrArg Shared.phase hshared)
        (Worker.duties_begin machine job.duties)
        (Worker.isBusy_of_hasMachine (Worker.hasMachine_begin machine job.duties))
        hworkers hhandle

theorem IsGuarded.effect {s : Scene R W} (h : s.IsGuarded) {a : Action R W} (ha : s.Allows a) :
    s.Effect a (s.after a) := by
  cases a with
  | requestStop t => exact .keeps rfl rfl rfl
  | clearStop t => exact .keeps rfl rfl rfl
  | onWorld t f => exact .keeps rfl rfl rfl
  | work n =>
      obtain ⟨worker, hworker, -⟩ := ha
      exact .works hworker
  | miss t => exact .keeps rfl rfl rfl
  | take t n =>
      obtain ⟨-, hfree, hheld⟩ := ha
      refine .passes (t := t) rfl rfl ?_
      exact handle_unheld_assign (handle_of_task hfree) hheld.symm
  | join t n =>
      obtain ⟨ht, worker, outcome, hworker, hfinished⟩ := ha
      refine .joins (handle_of_task ht) hworker hfinished rfl rfl ?_
      simp [Scene.after, Task.worker?]
  | lose t n =>
      refine .keeps rfl rfl ?_
      rw [Scene.after, handle_assign, Function.update_eq_self_iff]
      exact (handle_of_task ha.1).symm
  | leave t n =>
      refine .leaves ha.2 rfl rfl ?_
      exact handle_assign _ t .free
  | refuse t job script => exact .keeps rfl rfl rfl
  | enter t job script =>
      refine .passes (t := t) rfl rfl ?_
      exact handle_unheld_assign (handle_of_task ha.2.1) rfl
  | launch t before job script =>
      exact h.effect_launch ha

theorem HasHandles.effect {a : Action R W} (h : s.HasHandles) (heffect : s.Effect a s') :
    s'.HasHandles := by
  have hdrops : ∀ {owner : Option Nat}, s'.workers = s.workers →
      s'.handle = Function.update s.handle owner none → s'.HasHandles := by
    intro owner hworkers hhandle
    have hbefore : ∀ {owner' n}, s'.handle owner' = some n → s.handle owner' = some n :=
      fun howner' => ((handle_eq_some_iff_of_drops hhandle).mp howner').2
    constructor
    · intro owner' n howner'
      exact hworkers ▸ h.lt_length owner' n (hbefore howner')
    · intro owner' owner'' n howner' howner''
      exact h.sole owner' owner'' n (hbefore howner') (hbefore howner'')
  cases heffect with
  | keeps hphase hworkers hhandle =>
      constructor
      · rw [hhandle, hworkers]
        exact h.lt_length
      · rw [hhandle]
        exact h.sole
  | works hworker =>
      constructor
      · rw [handle_work, length_work]
        exact h.lt_length
      · rw [handle_work]
        exact h.sole
  | passes hphase hworkers hhandle =>
      constructor
      · intro owner n howner
        rw [hhandle] at howner
        exact hworkers ▸ h.lt_length _ n howner
      · intro owner owner' n howner howner'
        rw [hhandle] at howner howner'
        exact (Equiv.swap _ _).injective (h.sole _ _ n howner howner')
  | joins ht hworker hfinished hphase hworkers hhandle => exact hdrops hworkers hhandle
  | leaves ht hphase hworkers hhandle => exact hdrops hworkers hhandle
  | fails hphase hphase' hworkers hhandle => exact hdrops hworkers hhandle
  | starts ht hphase hphase' hduties hbusy hworkers hhandle =>
      constructor
      · intro owner n howner
        rw [hworkers, List.length_append, List.length_singleton]
        rcases handle_eq_some_of_starts hhandle howner with ⟨-, rfl⟩ | ⟨-, hold⟩
        · exact Nat.lt_succ_self _
        · exact Nat.lt_succ_of_lt (h.lt_length owner n hold)
      · -- an old number is less than the new one
        intro owner owner' n howner howner'
        rcases handle_eq_some_of_starts hhandle howner with ⟨rfl, rfl⟩ | ⟨-, hold⟩
        · rcases handle_eq_some_of_starts hhandle howner' with ⟨rfl, -⟩ | ⟨-, hold'⟩
          · rfl
          · exact absurd (h.lt_length _ _ hold') (Nat.lt_irrefl _)
        · rcases handle_eq_some_of_starts hhandle howner' with ⟨-, rfl⟩ | ⟨-, hold'⟩
          · exact absurd (h.lt_length _ _ hold) (Nat.lt_irrefl _)
          · exact h.sole owner owner' n hold hold'

variable {world : W} {past : List (Scene R W × Action R W)}

theorem Leads.induction {start : Scene R W} {P : Scene R W → Prop} (hstart : P start)
    (hstep : ∀ {s : Scene R W} {a : Action R W}, P s → s.Allows a → P (s.after a))
    (h : start.Leads past s) : P s := by
  induction h with
  | refl => exact hstart
  | step h ha ih => exact hstep ih ha

theorem Leads.isGuarded (h : (new world).Leads past s) : s.IsGuarded :=
  h.induction (isGuarded_of_open (open_new world)) fun hguarded ha => hguarded.after ha

theorem Leads.hasHandles (h : (new world).Leads past s) : s.HasHandles := by
  have hboth := h.induction (P := fun s => s.IsGuarded ∧ s.HasHandles)
    ⟨isGuarded_of_open (open_new world), hasHandles_new world⟩
    fun ⟨hguarded, hhandles⟩ ha =>
      ⟨hguarded.after ha, hhandles.effect (hguarded.effect ha)⟩
  exact hboth.2

theorem Leads.trans {start : Scene R W} {past' : List (Scene R W × Action R W)}
    (h : start.Leads past s) (h' : s.Leads past' s') : start.Leads (past' ++ past) s' := by
  induction h' with
  | refl => exact h
  | step _ ha ih => exact ih.step ha

omit [NumberSystem R] in
theorem update_task_free {t : Nat} (hfree : s.task t = .free) (task : Task R W) :
    Function.update (Function.update s.task t task) t .free = s.task := by
  rw [Function.update_idem, Function.update_eq_self_iff]
  exact hfree.symm

theorem after_enter_launch {t : Nat} (hfree : s.task t = .free) (job : Controller.Job R W)
    (script : Script) :
    (s.after (.enter t job script)).after (.launch t s.held job script) = s.launch job script := by
  simp only [Scene.after, assign, launch, unheld, started, update_task_free hfree]

theorem allows_launch {t : Nat} {job : Controller.Job R W} {script : Script}
    (hover : ∀ n, s.held = some n → s.Is n fun worker => worker.result?.isSome) :
    (s.after (.enter t job script)).Allows (.launch t s.held job script) :=
  ⟨by simp [Scene.after, assign], hover⟩

/-- A start that no other thread gets in the way of. -/
theorem leads_launch (hopen : s.Open) {t : Nat} (hfree : s.task t = .free)
    (hphase : s.shared.phase = .idle)
    (hover : ∀ n, s.held = some n → s.Is n fun worker => worker.result?.isSome)
    (job : Controller.Job R W) (script : Script) :
    s.Leads [(s.after (.enter t job script), .launch t s.held job script), (s, .enter t job script)]
      (s.launch job script) := by
  have henter : s.Allows (.enter t job script) := ⟨hopen, hfree, hphase⟩
  rw [← after_enter_launch hfree]
  exact (Leads.refl.step henter).step (allows_launch hover)

end Scene

end LineBasic
