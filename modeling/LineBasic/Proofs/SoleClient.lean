import LineBasic.Proofs.Replacement
import LineBasic.Proofs.WorldSteps

namespace LineBasic

namespace Dialog

variable {R W σ : Type} [NumberSystem R]

/-- What a client does between two actions: it types a line, or chooses what its next run gets. The natives of its machines
change the world only as is permitted. -/
inductive Types (storage : Storage (StateM σ)) (permits : Signals W → Signals W → Prop) (d : Dialog R W) :
    Dialog R W → Prop
  | line {answer : Option (Reply × Option Nat)} (hrest : d.errand = .resting answer)
      (hfree : d.scene.task 0 = .free) {text : String} (hrun : Input.command? text ≠ some .run)
      (hstop : Input.command? text ≠ some .stop) {reply : Reply} {shell : Shell R W} {s t : σ}
      (hline : (d.view.takeLine storage text).run s = ((.done reply, shell), t)) :
      Types storage permits d
        { d with shell := { d.shell with session := shell.session }, errand := .resting (some (reply, none)) }
  | stop {answer : Option (Reply × Option Nat)} (hrest : d.errand = .resting answer)
      (hfree : d.scene.task 0 = .free) {text : String} (hstop : Input.command? text = some .stop) :
      Types storage permits d { d with shell := d.shell.stopAuto, errand := .requesting }
  | run {answer : Option (Reply × Option Nat)} (hrest : d.errand = .resting answer)
      (hfree : d.scene.task 0 = .free) {text : String} (hrun : Input.command? text = some .run) :
      Types storage permits d { d with shell := d.shell.stopAuto, errand := .stopping }
  | supply {answer : Option (Reply × Option Nat)} (hrest : d.errand = .resting answer)
      (hfree : d.scene.task 0 = .free) {machine : Except Error (Machine R (Signals W))}
      (hmachine : ∀ m, machine = .ok m → m.NativesRespect permits) (threadError : Option String) :
      Types storage permits d { d with shell := { d.shell with machine, threadError } }

/-- What is done at the controller, and what the client does next. -/
inductive Acts (d : Dialog R W) : Scene.Action R W → Errand → Prop
  | client {a : Scene.Action R W} {errand : Errand} (herrand : d.scene.Follows d.shell d.errand a errand) :
      Acts d a errand
  | wait {answer : Option (Reply × Option Nat)} (hrest : d.errand = .resting answer) {a : Scene.Action R W}
      {outcome : Option (Option Outcome)} (hwaits : d.scene.Waits 0 a outcome) : Acts d a d.errand
  | work (n : Nat) : Acts d (.work n) d.errand
  | request {t : Nat} (ht : t ≠ 0) : Acts d (.requestStop t) d.errand

/-- What a client makes of a dialog that has the controller for itself, the last action first, each with the dialog in which it
is taken. -/
inductive Alone (storage : Storage (StateM σ)) (permits : Signals W → Signals W → Prop) (start : Dialog R W) :
    List (Dialog R W × Scene.Action R W) → Dialog R W → Prop
  | refl : Alone storage permits start [] start
  | types {past : List (Dialog R W × Scene.Action R W)} {d d' : Dialog R W}
      (h : Alone storage permits start past d) (htypes : d.Types storage permits d') :
      Alone storage permits start past d'
  | acts {past : List (Dialog R W × Scene.Action R W)} {d : Dialog R W}
      (h : Alone storage permits start past d) {a : Scene.Action R W} (ha : d.scene.Allows a) {errand : Errand}
      (hacts : d.Acts a errand) :
      Alone storage permits start ((d, a) :: past) { d with scene := d.scene.after a, errand }

end Dialog

namespace Worker

variable {R W : Type} {workers : List (Worker R W)} {m n : Nat} {worker worker' : Worker R W}

/-- After a worker was added, every other one was there before. -/
theorem of_getElem?_concat (h : (workers ++ [worker'])[n]? = some worker) :
    workers[n]? = some worker ∨ n = workers.length ∧ worker = worker' := by
  rw [List.getElem?_append] at h
  split at h
  · exact .inl h
  · rw [List.getElem?_singleton] at h
    split at h
    · cases h
      exact .inr ⟨by omega, rfl⟩
    · cases h

/-- After a step of one worker, every other one is as before. -/
theorem of_getElem?_set (h : (workers.set m worker')[n]? = some worker) :
    m = n ∧ worker = worker' ∨ m ≠ n ∧ workers[n]? = some worker := by
  by_cases hne : m = n
  · rw [List.getElem?_set, if_pos hne] at h
    split at h
    · cases h
      exact .inl ⟨hne, rfl⟩
    · cases h
  · rw [List.getElem?_set_ne hne] at h
    exact .inr ⟨hne, h⟩

end Worker

namespace Scene

variable {R W : Type} {s : Scene R W} {n : Nat}

/-- Only the client has to do with the controller, and for each run that is not over it waits, or it can still do so. -/
structure IsMinded (s : Scene R W) : Prop where
  others : ∀ t, t ≠ 0 → s.task t = .free
  pending : ∀ n worker, s.workers[n]? = some worker → worker.result? = none →
    s.held = some n ∨ s.task 0 = .waiting n

/-- Where the client is with the controller when it is on an errand. -/
def Stage (s : Scene R W) : Errand → Prop
  | .resting _ | .halting => s.task 0 = .free ∨ s.held = none ∧ ∃ n, s.task 0 = .waiting n
  | .requesting | .stopping => s.task 0 = .free
  | .clearing | .listing _ | .announcing _ | .failing _ => s.task 0 = .free ∧ s.held = none
  | .starting _ => s.held = none ∧
      (s.task 0 = .free ∨ ∃ job script, s.task 0 = .starting none job script)
  | .finishing n => s.task 0 = .free ∧ s.held = some n ∨ s.held = none ∧ s.task 0 = .waiting n

/-- Every worker was bound by the controller, and reports as is said. -/
def Binds (s : Scene R W) (permits : Signals W → Signals W → Prop) (report : Outcome → W → W) : Prop :=
  ∀ (n : Nat) (worker : Worker R W), s.workers[n]? = some worker → worker.IsBound permits report

theorem IsMinded.of_eq (h : s.IsMinded) {s' : Scene R W} (hworkers : s'.workers = s.workers)
    (hheld : s'.held = s.held) (htask : s'.task = s.task) : s'.IsMinded := by
  refine ⟨?_, ?_⟩
  · rw [htask]
    exact h.others
  · rw [hworkers, hheld, htask]
    exact h.pending

theorem IsMinded.assign (h : s.IsMinded) {task : Task R W}
    (hpending : ∀ n worker, s.workers[n]? = some worker → worker.result? = none →
      s.held = some n ∨ task = .waiting n) : (s.assign 0 task).IsMinded := by
  refine ⟨fun t ht => ?_, fun n worker hworker hresult => ?_⟩
  · rw [task_assign_of_ne s task ht]
    exact h.others t ht
  · rw [task_assign]
    exact hpending n worker hworker hresult

/-- While the client has no worker to wait for, every run is over. -/
theorem IsMinded.result? (h : s.IsMinded) (hheld : s.held = none) (htask : ∀ n, s.task 0 ≠ .waiting n)
    {worker : Worker R W} (hworker : s.workers[n]? = some worker) : worker.result?.isSome := by
  rw [Option.isSome_iff_ne_none]
  intro hresult
  rcases h.pending n worker hworker hresult with hn | hn
  · cases hheld.symm.trans hn
  · exact htask n hn

theorem Stage.of_eq {errand : Errand} (h : s.Stage errand) {s' : Scene R W} (hheld : s'.held = s.held)
    (htask : s'.task = s.task) : s'.Stage errand := by
  unfold Stage at h ⊢
  rw [hheld, htask]
  exact h

theorem Stage.held {errand : Errand} (h : s.Stage errand) (htask : s.task 0 = .waiting n) : s.held = none := by
  cases errand with
  | resting | halting =>
      rcases h with hfree | ⟨hheld, -⟩
      · cases htask.symm.trans hfree
      · exact hheld
  | requesting | stopping => cases htask.symm.trans h
  | clearing | listing | announcing | failing => exact h.2
  | starting => exact h.1
  | finishing m =>
      rcases h with ⟨hfree, -⟩ | ⟨hheld, -⟩
      · cases htask.symm.trans hfree
      · exact hheld

theorem Stage.task {errand : Errand} (h : s.Stage errand) : s.task 0 ≠ .leaving n := by
  intro htask
  cases errand with
  | resting | halting =>
      rcases h with hfree | ⟨-, m, hwaiting⟩
      · cases htask.symm.trans hfree
      · cases htask.symm.trans hwaiting
  | requesting | stopping => cases htask.symm.trans h
  | clearing | listing | announcing | failing => cases htask.symm.trans h.1
  | starting =>
      rcases h.2 with hfree | ⟨job, script, hstarting⟩
      · cases htask.symm.trans hfree
      · cases htask.symm.trans hstarting
  | finishing m =>
      rcases h with ⟨hfree, -⟩ | ⟨-, hwaiting⟩
      · cases htask.symm.trans hfree
      · cases htask.symm.trans hwaiting

/-- What a wait of the client does when no worker breaks down. -/
inductive Attends (s : Scene R W) : Action R W → Option (Option Outcome) → Scene R W → Prop
  | takes {n : Nat} (hfree : s.task 0 = .free) (hheld : s.held = some n) :
      Attends s (.take 0 n) none (s.unheld.assign 0 (.waiting n))
  | misses (hfree : s.task 0 = .free) (hheld : s.held = none) : Attends s (.miss 0) (some none) s
  | joins {n : Nat} {worker : Worker R W} {outcome : Outcome} (htask : s.task 0 = .waiting n)
      (hworker : s.workers[n]? = some worker) (hfinished : worker.state = .finished outcome) :
      Attends s (.join 0 n) (some (some outcome)) (s.assign 0 .free)

variable [NumberSystem R] {permits : Signals W → Signals W → Prop} {report : Outcome → W → W}
  {errand : Errand} {a : Action R W}

theorem Waits.attends {outcome : Option (Option Outcome)} (hwaits : s.Waits 0 a outcome) (ha : s.Allows a)
    (hstage : s.Stage errand) (hbinds : s.Binds permits report) : s.Attends a outcome (s.after a) := by
  cases hwaits with
  | take n => exact .takes ha.2.1 ha.2.2
  | lose n =>
      obtain ⟨-, worker, hworker, hdied⟩ := ha
      rw [(hbinds n worker hworker).hasDied] at hdied
      cases hdied
  | miss => exact .misses ha.2.1 ha.2.2
  | join hworker hfinished => exact .joins ha.1 hworker hfinished
  | leave n => exact absurd ha.2 hstage.task

omit [NumberSystem R] in
theorem IsMinded.attends {outcome : Option (Option Outcome)} {s' : Scene R W} (h : s.IsMinded)
    (hattends : s.Attends a outcome s') : s'.IsMinded := by
  cases hattends with
  | @takes n hfree hheld =>
      refine ⟨fun t ht => ?_, fun m worker hworker hresult => ?_⟩
      · rw [task_assign_of_ne _ _ ht]
        exact h.others t ht
      · rw [task_assign]
        rcases h.pending m worker hworker hresult with hm | hm
        · exact .inr (congrArg Task.waiting (Option.some.inj (hheld.symm.trans hm)))
        · cases hfree.symm.trans hm
  | misses => exact h
  | @joins n worker outcome htask hworker hfinished =>
      refine h.assign fun m worker' hworker' hresult => ?_
      rcases h.pending m worker' hworker' hresult with hm | hm
      · exact .inl hm
      · cases htask.symm.trans hm
        cases hworker.symm.trans hworker'
        simp [Worker.result?, hfinished] at hresult

theorem IsMinded.work (h : s.IsMinded) {worker : Worker R W} (hworker : s.workers[n]? = some worker) :
    (s.work n).IsMinded := by
  rw [work_of_getElem? hworker]
  refine ⟨h.others, fun m worker' hworker' hresult => ?_⟩
  rcases Worker.of_getElem?_set hworker' with ⟨rfl, rfl⟩ | ⟨-, hother⟩
  · refine h.pending n worker hworker ?_
    by_contra hover
    rw [Worker.step_of_result? (Option.isSome_iff_ne_none.mpr hover)] at hresult
    exact hover hresult
  · exact h.pending m worker' hother hresult

omit [NumberSystem R] in
/-- A start that is let in finds every run over. -/
theorem IsMinded.enter (h : s.IsMinded) (hfree : s.task 0 = .free) (hheld : s.held = none)
    (job : Controller.Job R W) (script : Script) :
    (s.unheld.assign 0 (.starting none job script)).IsMinded := by
  refine ⟨fun t ht => ?_, fun m worker hworker hresult => ?_⟩
  · rw [task_assign_of_ne _ _ ht]
    exact h.others t ht
  · have hover := h.result? hheld (by simp [hfree]) hworker
    rw [hresult] at hover
    cases hover

omit [NumberSystem R] in
theorem IsMinded.sets {result : Except Error Unit} {s' : Scene R W} {job : Controller.Job R W} (h : s.IsMinded)
    (hheld : s.held = none) (htask : ∀ n, s.task 0 ≠ .waiting n)
    (hsets : s.Sets permits 0 job (result, s')) : s'.IsMinded := by
  have hothers : ∀ t, t ≠ 0 → Function.update s.task 0 .free t = .free := by
    intro t ht
    rw [Function.update_of_ne ht]
    exact h.others t ht
  have hover {m : Nat} {worker : Worker R W} (hworker : s.workers[m]? = some worker) : worker.result? ≠ none :=
    Option.isSome_iff_ne_none.mp (h.result? hheld htask hworker)
  cases hsets with
  | fails => exact ⟨hothers, fun m worker hworker hresult => absurd hresult (hover hworker)⟩
  | @succeeds machine =>
      refine ⟨hothers, fun m worker hworker hresult => .inl ?_⟩
      rcases Worker.of_getElem?_concat hworker with hbefore | ⟨rfl, -⟩
      · exact absurd hresult (hover hbefore)
      · rfl

end Scene

/-- RUN has waited for the run before, and has not started its own. -/
def Errand.IsAhead : Errand → Prop
  | .clearing | .listing _ | .announcing _ | .starting _ | .failing _ => True
  | _ => False

namespace Dialog

variable {R W σ : Type}

/-- Every run is waited for, and all that is bound for the runs keeps to what is permitted. -/
structure IsAttended (permits : Signals W → Signals W → Prop) (d : Dialog R W) : Prop where
  guarded : d.scene.IsGuarded
  minded : d.scene.IsMinded
  stage : d.scene.Stage d.errand
  binds : d.scene.Binds permits d.shell.reportEnd
  job : d.shell.job.Respects permits

variable {permits : Signals W → Signals W → Prop} {d d' : Dialog R W}

/-- At most one run is not over. -/
theorem IsAttended.sole (h : d.IsAttended permits) {m n : Nat} {worker worker' : Worker R W}
    (hworker : d.scene.workers[m]? = some worker) (hresult : worker.result? = none)
    (hworker' : d.scene.workers[n]? = some worker') (hresult' : worker'.result? = none) : m = n := by
  rcases h.minded.pending m worker hworker hresult with hm | hm <;>
    rcases h.minded.pending n worker' hworker' hresult' with hn | hn
  · exact Option.some.inj (hm.symm.trans hn)
  · cases hm.symm.trans (h.stage.held hn)
  · cases hn.symm.trans (h.stage.held hm)
  · cases hm.symm.trans hn
    rfl

/-- When RUN comes to its start, every run before is over. -/
theorem IsAttended.result? (h : d.IsAttended permits) (hahead : d.errand.IsAhead) {n : Nat}
    {worker : Worker R W} (hworker : d.scene.workers[n]? = some worker) : worker.result?.isSome := by
  have hstage := h.stage
  cases herrand : d.errand with
  | clearing | listing | announcing | failing =>
      rw [herrand] at hstage
      exact h.minded.result? hstage.2 (by simp [hstage.1]) hworker
  | starting script =>
      rw [herrand] at hstage
      refine h.minded.result? hstage.1 (fun m hm => ?_) hworker
      rcases hstage.2 with hfree | ⟨job, script, hstarting⟩
      · cases hm.symm.trans hfree
      · cases hm.symm.trans hstarting
  | resting | requesting | stopping | halting | finishing =>
      rw [herrand] at hahead
      exact hahead.elim

variable [NumberSystem R]

/-- What an action makes of the scene, and what the client does next. -/
inductive Moves (permits : Signals W → Signals W → Prop) (d : Dialog R W) :
    Scene.Action R W → Scene R W → Errand → Prop
  | request (t : Nat) : Moves permits d (.requestStop t) (d.scene.onSignals Signals.requestStop) d.errand
  | ask (h : d.errand = .requesting) :
      Moves permits d (.requestStop 0) (d.scene.onSignals Signals.requestStop) (.resting (some (.ok "", none)))
  | stop (h : d.errand = .stopping) :
      Moves permits d (.requestStop 0) (d.scene.onSignals Signals.requestStop) .halting
  | halt {a : Scene.Action R W} {s : Scene R W} (h : d.errand = .halting) (hattends : d.scene.Attends a none s) :
      Moves permits d a s .halting
  | halted {a : Scene.Action R W} {outcome : Option Outcome} {s : Scene R W} (h : d.errand = .halting)
      (hattends : d.scene.Attends a (some outcome) s) : Moves permits d a s .clearing
  | clear (h : d.errand = .clearing) :
      Moves permits d (.clearStop 0) (d.scene.onSignals Signals.clearStop) d.shell.compiled
  | list {script : Script} (h : d.errand = .listing script) :
      Moves permits d (.onWorld 0 (d.shell.sinks.write script.text))
        (d.scene.onSignals (Signals.onWorld (d.shell.sinks.write script.text))) (.announcing script)
  | announce {script : Script} (h : d.errand = .announcing script) :
      Moves permits d (.onWorld 0 (d.shell.sinks.status true))
        (d.scene.onSignals (Signals.onWorld (d.shell.sinks.status true))) (.starting script)
  | refuse {script : Script} (h : d.errand = .starting script) (hfree : d.scene.task 0 = .free) :
      Moves permits d (.refuse 0 d.shell.job script) d.scene (.failing Controller.alreadyRunning)
  | enter {script : Script} (h : d.errand = .starting script) (hfree : d.scene.task 0 = .free)
      (hheld : d.scene.held = none) :
      Moves permits d (.enter 0 d.shell.job script)
        (d.scene.unheld.assign 0 (.starting none d.shell.job script)) (.starting script)
  | launch {script : Script} {before : Option Nat} {s : Scene R W} (h : d.errand = .starting script)
      (hsets : d.scene.Sets permits 0 d.shell.job ((d.scene.started d.shell.job script).1, s)) :
      Moves permits d (.launch 0 before d.shell.job script) s
        (d.shell.launched d.scene.workers.length (d.scene.started d.shell.job script).1)
  | fail {e : Error} (h : d.errand = .failing e) :
      Moves permits d (.onWorld 0 (d.shell.sinks.status false))
        (d.scene.onSignals (Signals.onWorld (d.shell.sinks.status false)))
        (.resting (some (.error (.command e), none)))
  | finish {n : Nat} {s : Scene R W} (h : d.errand = .finishing n) (hattends : d.scene.Attends (.take 0 n) none s) :
      Moves permits d (.take 0 n) s (.finishing n)
  | finished {n : Nat} {outcome : Outcome} {s : Scene R W} (h : d.errand = .finishing n)
      (hattends : d.scene.Attends (.join 0 n) (some (some outcome)) s) :
      Moves permits d (.join 0 n) s (.resting (some (Shell.replyOf outcome, some n)))
  | wait {answer : Option (Reply × Option Nat)} {a : Scene.Action R W} {outcome : Option (Option Outcome)}
      {s : Scene R W} (h : d.errand = .resting answer) (hattends : d.scene.Attends a outcome s) :
      Moves permits d a s (.resting answer)
  | work {n : Nat} {worker : Worker R W} (hworker : d.scene.workers[n]? = some worker) :
      Moves permits d (.work n) { d.scene with
        shared := (worker.step d.scene.shared).2
        workers := d.scene.workers.set n (worker.step d.scene.shared).1 } d.errand

variable {storage : Storage (StateM σ)} {a : Scene.Action R W} {errand : Errand}

theorem Moves.minded {s : Scene R W} (h : d.IsAttended permits) (hmoves : d.Moves permits a s errand) :
    s.IsMinded := by
  have hstage := h.stage
  cases hmoves with
  | request | ask | stop | clear | list | announce | fail => exact h.minded.of_eq rfl rfl rfl
  | halt _ hattends | halted _ hattends | finish _ hattends | finished _ hattends | wait _ hattends =>
      exact h.minded.attends hattends
  | refuse => exact h.minded
  | enter _ hfree hheld => exact h.minded.enter hfree hheld _ _
  | launch hstarting hsets =>
      rw [hstarting] at hstage
      refine h.minded.sets hstage.1 (fun n hn => ?_) hsets
      rcases hstage.2 with hfree | ⟨job, script, hlaunch⟩
      · cases hn.symm.trans hfree
      · cases hn.symm.trans hlaunch
  | work hworker =>
      rw [← Scene.work_of_getElem? hworker]
      exact h.minded.work hworker

theorem Moves.stage {s : Scene R W} (h : d.IsAttended permits) (hmoves : d.Moves permits a s errand) :
    s.Stage errand := by
  have hstage := h.stage
  cases hmoves with
  | request => exact hstage.of_eq rfl rfl
  | ask herrand | stop herrand =>
      rw [herrand] at hstage
      exact .inl hstage
  | halt _ hattends =>
      cases hattends with
      | takes => exact .inr ⟨rfl, _, Scene.task_assign _ 0 _⟩
  | halted herrand hattends =>
      rw [herrand] at hstage
      cases hattends with
      | misses hfree hheld => exact ⟨hfree, hheld⟩
      | joins htask => exact ⟨by simp, hstage.held htask⟩
  | clear herrand =>
      rw [herrand] at hstage
      unfold Shell.compiled
      split
      · exact .inl hstage.1
      · split <;> exact hstage
  | list herrand =>
      rw [herrand] at hstage
      exact hstage
  | announce herrand =>
      rw [herrand] at hstage
      exact ⟨hstage.2, .inl hstage.1⟩
  | refuse herrand hfree =>
      rw [herrand] at hstage
      exact ⟨hfree, hstage.1⟩
  | enter => exact ⟨rfl, .inr ⟨_, _, Scene.task_assign _ 0 _⟩⟩
  | launch herrand hsets =>
      generalize (d.scene.started d.shell.job _).1 = result at hsets
      cases hsets with
      | fails => exact ⟨by simp, rfl⟩
      | succeeds =>
          unfold Shell.launched
          dsimp only
          split
          · exact .inl (by simp)
          · exact .inl ⟨by simp, rfl⟩
  | fail herrand =>
      rw [herrand] at hstage
      exact .inl hstage.1
  | finish _ hattends =>
      cases hattends with
      | takes => exact .inr ⟨rfl, by simp⟩
  | finished _ hattends =>
      cases hattends with
      | joins => exact .inl (by simp)
  | wait herrand hattends =>
      rw [herrand] at hstage
      cases hattends with
      | takes => exact .inr ⟨rfl, _, Scene.task_assign _ 0 _⟩
      | misses => exact hstage
      | joins => exact .inl (by simp)
  | work => exact hstage.of_eq rfl rfl

/-- A new shell. -/
theorem isAttended_new {config : Config} {sinks : Sinks W} {world : W} {more : List (NativeSet R (Signals W))}
    (hstandard : (NativeSet.standard (R := R) sinks.toConsole.onSignals).Respects permits)
    (hmore : ∀ set ∈ more, set.Respects permits) :
    (new config sinks world more).IsAttended permits where
  guarded := Scene.isGuarded_of_open (Scene.open_new world)
  minded := ⟨fun t _ => rfl, by rintro n worker ⟨⟩⟩
  stage := .inl rfl
  binds := by rintro n worker ⟨⟩
  job := by
    refine ⟨?_, List.forall_mem_cons.mpr ⟨hstandard, hmore⟩⟩
    rintro machine ⟨⟩ name native hnative
    simp at hnative

theorem IsAttended.types (h : d.IsAttended permits) (htypes : d.Types storage permits d') :
    d'.IsAttended permits := by
  cases htypes with
  | line hrest hfree | stop hrest hfree | run hrest hfree =>
      refine ⟨h.guarded, h.minded, ?_, h.binds, h.job⟩
      first | exact .inl hfree | exact hfree
  | supply hrest hfree hmachine =>
      exact ⟨h.guarded, h.minded, h.stage, h.binds, hmachine, h.job.natives⟩

variable [IsPreorder (Signals W) permits]

theorem IsAttended.moves (h : d.IsAttended permits) (ha : d.scene.Allows a) (hacts : d.Acts a errand) :
    d.Moves permits a (d.scene.after a) errand := by
  have hstage := h.stage
  cases hacts with
  | client herrand =>
      generalize herrand' : d.errand = before at herrand hstage
      cases herrand with
      | request => exact .ask herrand'
      | stop => exact .stop herrand'
      | halt hwaits => exact .halt herrand' (hwaits.attends ha hstage h.binds)
      | halted hwaits => exact .halted herrand' (hwaits.attends ha hstage h.binds)
      | clear => exact .clear herrand'
      | list script => exact .list herrand'
      | announce script => exact .announce herrand'
      | enter script =>
          rw [Scene.after, hstage.1]
          exact .enter herrand' ha.2.1 hstage.1
      | start hstarts =>
          cases hstarts with
          | refuse => exact .refuse herrand' ha.2.1
          | launch before =>
              have hphase := (h.guarded 0 (Scene.isStarting_of_allows ha)).1
              exact .launch herrand' (Scene.sets hphase h.job 0 before _)
      | fail e => exact .fail herrand'
      | @finish _ n hwaits =>
          have hattends := hwaits.attends ha hstage h.binds
          generalize d.scene.after a = s at hattends ⊢
          cases id hattends with
          | takes hfree hheld =>
              rcases hstage with ⟨-, hown⟩ | ⟨hnone, -⟩
              · obtain rfl := Option.some.inj (hheld.symm.trans hown)
                exact .finish herrand' hattends
              · cases hnone.symm.trans hheld
      | @finished _ n outcome hwaits =>
          have hattends := hwaits.attends ha hstage h.binds
          generalize d.scene.after a = s at hattends ⊢
          cases id hattends with
          | misses hfree hheld =>
              rcases hstage with ⟨-, hown⟩ | ⟨-, hwaiting⟩
              · cases hheld.symm.trans hown
              · cases hfree.symm.trans hwaiting
          | joins htask hworker hfinished =>
              rcases hstage with ⟨hfree, -⟩ | ⟨-, hwaiting⟩
              · cases hfree.symm.trans htask
              · cases htask.symm.trans hwaiting
                exact .finished herrand' hattends
  | wait hrest hwaits =>
      have hattends := hwaits.attends ha hstage h.binds
      rw [hrest]
      exact .wait hrest hattends
  | work n =>
      obtain ⟨worker, hworker, -⟩ := ha
      have hafter : d.scene.after (.work n) = _ := Scene.work_of_getElem? hworker
      rw [hafter]
      exact .work hworker
  | request ht => exact .request _

theorem Moves.binds {s : Scene R W} (h : d.scene.Binds permits d.shell.reportEnd) (hmoves : d.Moves permits a s errand) :
    s.Binds permits d.shell.reportEnd := by
  have hkept {s : Scene R W} (hattends : ∃ outcome, d.scene.Attends a outcome s) :
      s.Binds permits d.shell.reportEnd := by
    obtain ⟨outcome, hattends⟩ := hattends
    cases hattends <;> exact h
  cases hmoves with
  | request | ask | stop | clear | list | announce | fail | refuse | enter => exact h
  | halt _ hattends | halted _ hattends | finish _ hattends | finished _ hattends | wait _ hattends =>
      exact hkept ⟨_, hattends⟩
  | launch _ hsets =>
      generalize (d.scene.started d.shell.job _).1 = result at hsets
      cases hsets with
      | fails => exact h
      | succeeds hnatives hhook =>
          intro n worker hworker
          rcases Worker.of_getElem?_concat hworker with hbefore | ⟨-, rfl⟩
          · exact h n worker hbefore
          · exact Worker.isBound_begin hnatives hhook
  | @work n worker hworker =>
      intro m worker' hworker'
      rcases Worker.of_getElem?_set hworker' with ⟨-, rfl⟩ | ⟨-, hother⟩
      · exact (h n worker hworker).step d.scene.shared
      · exact h m worker' hother

theorem IsAttended.acts (h : d.IsAttended permits) (ha : d.scene.Allows a) (hacts : d.Acts a errand) :
    IsAttended permits { d with scene := d.scene.after a, errand } := by
  have hmoves := h.moves ha hacts
  have hbinds : (d.scene.after a).Binds permits d.shell.reportEnd := hmoves.binds h.binds
  exact ⟨h.guarded.after ha, hmoves.minded h, hmoves.stage h, hbinds, h.job⟩

theorem Alone.isAttended {start : Dialog R W} {past : List (Dialog R W × Scene.Action R W)}
    (h : start.Alone storage permits past d) (hstart : start.IsAttended permits) : d.IsAttended permits := by
  induction h with
  | refl => exact hstart
  | types _ htypes ih => exact ih.types htypes
  | acts _ ha hacts ih => exact ih.acts ha hacts

/-- The scene in which RUN starts its run if it finds no other one. -/
def announced (d : Dialog R W) : Scene R W :=
  ((d.scene.onSignals Signals.requestStop).onSignals Signals.clearStop).onSignals
    (Signals.onWorld (d.shell.sinks.status true))

/-- The worker that RUN starts there, and what it shares. -/
def started? (d : Dialog R W) : Option (Worker R W × Shared W) :=
  match compile R d.shell.registry d.shell.stopAuto.session.flags d.shell.stopAuto.session.listing.source with
  | .error _ => none
  | .ok script =>
    match d.announced.started d.shell.stopAuto.job script with
    | (.ok (), { shared, worker := some worker }) => some (worker, shared)
    | _ => none

section

variable {start : Dialog R W} {past : List (Dialog R W × Scene.Action R W)}

omit [IsPreorder (Signals W) permits] in
theorem Alone.exists_starting (h : start.Alone storage permits past d)
    {answer : Option (Reply × Option Nat)} (hrest : d.errand = .resting answer) {text : String}
    (hrun : Input.command? text = some .run) (hopen : d.scene.Open) (hfree : d.scene.task 0 = .free)
    (hheld : d.scene.held = none) {script : Script} (hcompiles : d.shell.stopAuto.Compiles script)
    (hverbose : d.shell.stopAuto.session.verbose = false) :
    ∃ past', start.Alone storage permits past'
      { shell := d.shell.stopAuto, scene := d.announced, errand := .starting script } := by
  have hstopped := (h.types (.run hrest hfree hrun)).acts (a := .requestStop 0) hfree (.client .stop)
  have hhalted := hstopped.acts (a := .miss 0) ⟨hopen, hfree, hheld⟩ (.client (.halted .miss))
  have hcleared := hhalted.acts (a := .clearStop 0) hfree (.client .clear)
  have hcompiled : d.shell.stopAuto.compiled = .announcing script := by
    rw [Shell.compiled, hcompiles]
    simp [hverbose]
  rw [hcompiled] at hcleared
  exact ⟨_, hcleared.acts (a := .onWorld 0 _) hfree (.client (.announce script))⟩

omit [IsPreorder (Signals W) permits] in
theorem Alone.exists_launched {shell : Shell R W} {scene : Scene R W} {script : Script}
    (h : start.Alone storage permits past { shell, scene, errand := .starting script })
    (hopen : scene.Open) (hfree : scene.task 0 = .free) (hheld : scene.held = none)
    (hphase : scene.shared.phase = .idle) {worker : Worker R W} {shared : Shared W}
    (hstarted : scene.started shell.job script = (.ok (), { shared, worker := some worker })) :
    ∃ past', start.Alone storage permits past' {
      shell
      scene := { scene with shared, workers := scene.workers ++ [worker], held := some scene.workers.length }
      errand := shell.launched scene.workers.length (.ok ()) } := by
  have hentered := h.acts (a := .enter 0 shell.job script) ⟨hopen, hfree, hphase⟩ (.client (.enter script))
  have hlaunched := hentered.acts (a := .launch 0 scene.held shell.job script)
    (Scene.allows_launch fun n hn => by cases hheld.symm.trans hn) (.client (.start (.launch scene.held)))
  have hresult : ((scene.after (.enter 0 shell.job script)).started shell.job script).1 = .ok () :=
    congrArg Prod.fst hstarted
  have hworkers : (scene.after (.enter 0 shell.job script)).workers = scene.workers := rfl
  have hlaunch : scene.launch shell.job script =
      { scene with shared, workers := scene.workers ++ [worker], held := some scene.workers.length } := by
    rw [Scene.launch, hstarted]
    rfl
  dsimp only at hlaunched
  rw [Scene.after_enter_launch hfree, hresult, hworkers, hlaunch] at hlaunched
  exact ⟨_, hlaunched⟩

omit [IsPreorder (Signals W) permits] in
/-- RUN starts its run if it finds no other one. -/
theorem Alone.exists_started (h : start.Alone storage permits past d)
    {answer : Option (Reply × Option Nat)} (hrest : d.errand = .resting answer) {text : String}
    (hrun : Input.command? text = some .run) (hopen : d.scene.Open) (hfree : d.scene.task 0 = .free)
    (hheld : d.scene.held = none) (hphase : d.scene.shared.phase = .idle)
    (hverbose : d.shell.stopAuto.session.verbose = false) {worker : Worker R W} {shared : Shared W}
    (hstarted : d.started? = some (worker, shared)) :
    ∃ past', start.Alone storage permits past' {
      shell := d.shell.stopAuto
      scene := { d.scene with
        shared
        workers := d.scene.workers ++ [worker]
        held := some d.scene.workers.length }
      errand := d.shell.launched d.scene.workers.length (.ok ()) } := by
  unfold started? at hstarted
  split at hstarted
  · cases hstarted
  · rename_i script hscript
    split at hstarted
    · rename_i hresult
      cases hstarted
      obtain ⟨past', hstarting⟩ := h.exists_starting hrest hrun hopen hfree hheld hscript hverbose
      exact hstarting.exists_launched hopen hfree hheld hphase hresult
    · cases hstarted

omit [IsPreorder (Signals W) permits] in
theorem Alone.trans {past' : List (Dialog R W × Scene.Action R W)} (h : start.Alone storage permits past d)
    (h' : d.Alone storage permits past' d') : start.Alone storage permits (past' ++ past) d' := by
  induction h' with
  | refl => exact h
  | types _ htypes ih => exact ih.types htypes
  | acts _ ha hacts ih => exact ih.acts ha hacts

omit [IsPreorder (Signals W) permits] in
/-- A worker goes on by itself. -/
theorem exists_advanced (fuel : Nat) (hopen : d.scene.Open) {n : Nat} {worker : Worker R W}
    (hworker : d.scene.workers[n]? = some worker) :
    ∃ past' d', d.Alone storage permits past' d' ∧ d'.scene.shared = (worker.advance d.scene.shared fuel).2 ∧
      d'.scene.workers[n]? = some (worker.advance d.scene.shared fuel).1 := by
  induction fuel generalizing d worker with
  | zero => exact ⟨[], d, .refl, rfl, hworker⟩
  | succ fuel ih =>
      rw [Worker.advance]
      cases worker.result? with
      | some outcome => exact ⟨[], d, .refl, rfl, hworker⟩
      | none =>
          have hrefl : d.Alone storage permits [] d := .refl
          have hstep := hrefl.acts (a := .work n) ⟨worker, hworker, fun _ => hopen⟩ (.work n)
          have hafter : d.scene.after (.work n) = _ := Scene.work_of_getElem? hworker
          rw [hafter] at hstep
          have hlt := (List.getElem?_eq_some_iff.mp hworker).1
          obtain ⟨past', d', hadvanced, hshared, hworker'⟩ := ih (d := { d with scene := { d.scene with
            shared := (worker.step d.scene.shared).2
            workers := d.scene.workers.set n (worker.step d.scene.shared).1 } }) hopen
            (List.getElem?_set_self hlt)
          exact ⟨_, d', hstep.trans hadvanced, hshared, hworker'⟩

omit [IsPreorder (Signals W) permits] in
theorem Alone.exists_advanced (fuel : Nat) (h : start.Alone storage permits past d) (hopen : d.scene.Open) {n : Nat}
    {worker : Worker R W} (hworker : d.scene.workers[n]? = some worker) :
    ∃ past' d', d.Alone storage permits past' d' ∧ start.Alone storage permits (past' ++ past) d' ∧
      d'.scene.shared = (worker.advance d.scene.shared fuel).2 ∧
      d'.scene.workers[n]? = some (worker.advance d.scene.shared fuel).1 := by
  obtain ⟨past', d', hadvanced, hresult⟩ := Dialog.exists_advanced fuel hopen hworker
  exact ⟨past', d', hadvanced, h.trans hadvanced, hresult⟩

end

end Dialog

end LineBasic
