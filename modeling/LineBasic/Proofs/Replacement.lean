import LineBasic.Proofs.Dialog
import LineBasic.Proofs.Loading

namespace LineBasic

namespace Scene

variable {R W : Type} [NumberSystem R] {s s' : Scene R W} {a : Action R W} {n : Nat}

theorem after_other (ha : s.Allows a) (h : a.IsOther) :
    (s.after a).task 0 = s.task 0 ∧ ((s.after a).held = s.held ∨
      (s.after a).held = none ∧ ∃ t n, t ≠ 0 ∧ a = .take t n ∧ s.held = some n) := by
  cases a with
  | requestStop t | onWorld t f | miss t => exact ⟨rfl, .inl rfl⟩
  | work n =>
      obtain ⟨worker, hworker, -⟩ := ha
      show (s.work n).task 0 = _ ∧ ((s.work n).held = _ ∨ _)
      rw [work_of_getElem? hworker]
      exact ⟨rfl, .inl rfl⟩
  | take t n => exact ⟨task_assign_of_ne _ _ (Ne.symm h), .inr ⟨rfl, t, n, h, rfl, ha.2.2⟩⟩
  | join t n => exact ⟨task_assign_of_ne _ _ (Ne.symm h), .inl rfl⟩
  | lose t n => exact ⟨task_assign_of_ne _ _ (Ne.symm h), .inl rfl⟩
  | leave t n => exact ⟨task_assign_of_ne _ _ (Ne.symm h), .inl rfl⟩
  | clearStop t | refuse t job script | enter t job script | launch t before job script =>
      exact h.elim

theorem result?_effect (heffect : s.Effect a s') {worker : Worker R W}
    (hworker : s.workers[n]? = some worker) (hresult : worker.result?.isSome) :
    s'.workers[n]? = some worker := by
  cases heffect with
  | keeps _ hworkers | passes _ hworkers | joins _ _ _ _ hworkers | leaves _ _ hworkers
  | fails _ _ hworkers =>
      rw [hworkers]
      exact hworker
  | @works _ m worker' hworker' =>
      rw [work_of_getElem? hworker']
      by_cases hne : m = n
      · subst hne
        obtain rfl : worker = worker' := Option.some.inj (hworker.symm.trans hworker')
        rw [Worker.step_of_result? hresult, List.getElem?_set_self (List.getElem?_eq_some_iff.mp hworker).1]
      · rw [List.getElem?_set_ne hne]
        exact hworker
  | starts _ _ _ _ _ hworkers =>
      rw [hworkers, List.getElem?_append_left (List.getElem?_eq_some_iff.mp hworker).1]
      exact hworker

/-- The report of a run that the client starts does not break down. -/
theorem Follows.reports {shell : Shell R W} {errand errand' : Errand}
    (h : s.Follows shell errand a errand') {job : Controller.Job R W} (hjob : a.job? = some job) :
    job.duties.Reports := by
  cases h with
  | enter script =>
      cases hjob
      intro outcome world hreport
      cases hreport
  | start h => cases h <;> cases hjob
  | halt h | halted h | finish h | finished h => cases h <;> cases hjob
  | _ => cases hjob

end Scene

/-- The program of a shell is compiled to a script. -/
def Shell.Compiles {R W : Type} [NumberSystem R] (shell : Shell R W) (script : Script) : Prop :=
  compile R shell.registry shell.session.flags shell.session.listing.source = .ok script

/-- What a start comes to if nothing is in the way but that there is no machine or no thread. -/
def Shell.granted {R W : Type} (shell : Shell R W) : Except Error Unit :=
  match shell.machine, shell.threadError with
  | .ok _, none => .ok ()
  | .ok _, some reason => .error (ErrorCode.engineFailure.error reason)
  | .error e, _ => .error (ErrorCode.engineFailure.error e.text)

namespace Scene

variable {R W : Type} [NumberSystem R] {s : Scene R W} {past : List (Scene R W × Action R W)}
  {shell : Shell R W} {errand errand' : Errand} {a : Action R W}

def WasTaken (past : List (Scene R W × Action R W)) (n : Nat) : Prop :=
  ∃ e ∈ past, ∃ t, t ≠ 0 ∧ e.2 = .take t n

/-- The reply is what the run has come to, or else another thread waits for the run. -/
def Answers (s : Scene R W) (past : List (Scene R W × Action R W)) (reply : Reply) (n : Nat) : Prop :=
  (∃ worker outcome, s.workers[n]? = some worker ∧ worker.result? = some outcome ∧
      reply = Shell.replyOf outcome) ∨
    reply = .ok "" ∧ WasTaken past n

/-- What holds while the client is on an errand. -/
def Suits (s : Scene R W) (past : List (Scene R W × Action R W)) (shell : Shell R W) :
    Errand → Prop
  | .resting answer => s.task 0 = .free ∧ ∀ reply n, answer = some (reply, some n) →
      shell.config.backgroundRun = false → s.Answers past reply n
  | .requesting | .stopping | .failing _ => s.task 0 = .free
  | .halting => (s.task 0).isStarting = false ∧ (s.task 0 = .free ∨ s.held = none)
  | .clearing => s.task 0 = .free ∧ s.held = none
  | .listing script | .announcing script =>
      s.task 0 = .free ∧ s.held = none ∧ shell.Compiles script
  | .starting script => (s.task 0).worker? = none ∧ s.held = none ∧ shell.Compiles script
  | .finishing n => (s.task 0).isStarting = false ∧
      (∀ m, s.held = some m ∨ (s.task 0).worker? = some m → m = n) ∧
      (s.task 0 = .free → s.held = none → WasTaken past n)

omit [NumberSystem R] in
theorem WasTaken.cons {n : Nat} (h : WasTaken past n) (e : Scene R W × Action R W) :
    WasTaken (e :: past) n := by
  obtain ⟨e', he', htaken⟩ := h
  exact ⟨e', List.mem_cons_of_mem _ he', htaken⟩

theorem Answers.after (h : s.IsGuarded) (ha : s.Allows a) {reply : Reply} {n : Nat}
    (hanswers : s.Answers past reply n) : (s.after a).Answers ((s, a) :: past) reply n := by
  rcases hanswers with ⟨worker, outcome, hworker, hresult, hreply⟩ | ⟨hreply, htaken⟩
  · have hworker' := result?_effect (h.effect ha) hworker (by rw [hresult]; rfl)
    exact .inl ⟨worker, outcome, hworker', hresult, hreply⟩
  · exact .inr ⟨hreply, htaken.cons _⟩

/-- Other threads and workers do not get in the way of an errand. -/
theorem Suits.other (hsuits : s.Suits past shell errand) (h : s.IsGuarded) (ha : s.Allows a)
    (hother : a.IsOther) : (s.after a).Suits ((s, a) :: past) shell errand := by
  obtain ⟨htask, hheld⟩ := after_other ha hother
  have hnone : s.held = none → (s.after a).held = none := by
    intro hnone
    rcases hheld with hheld | ⟨hheld, -⟩
    · exact hheld.trans hnone
    · exact hheld
  cases errand with
  | resting answer =>
      refine ⟨htask.trans hsuits.1, fun reply n hanswer hblocking => ?_⟩
      exact (hsuits.2 reply n hanswer hblocking).after h ha
  | requesting | stopping | failing => exact htask.trans hsuits
  | halting =>
      obtain ⟨hstarting, hnext⟩ := hsuits
      refine ⟨htask ▸ hstarting, ?_⟩
      rcases hnext with hfree | hheld
      · exact .inl (htask.trans hfree)
      · exact .inr (hnone hheld)
  | clearing => exact ⟨htask.trans hsuits.1, hnone hsuits.2⟩
  | listing | announcing => exact ⟨htask.trans hsuits.1, hnone hsuits.2.1, hsuits.2.2⟩
  | starting => exact ⟨htask ▸ hsuits.1, hnone hsuits.2.1, hsuits.2.2⟩
  | finishing n =>
      obtain ⟨hstarting, howners, htaken⟩ := hsuits
      refine ⟨htask ▸ hstarting, ?_, ?_⟩
      · rintro m (hm | hm)
        · rcases hheld with hheld | ⟨hheld, -⟩
          · exact howners m (.inl (hheld ▸ hm))
          · cases hheld.symm.trans hm
        · exact howners m (.inr (htask ▸ hm))
      · intro hfree hunheld
        rcases hheld with hheld | ⟨-, t, m, ht, rfl, hm⟩
        · exact (htaken (htask ▸ hfree) (hheld ▸ hunheld)).cons _
        · obtain rfl := howners m (.inl hm)
          exact ⟨_, List.mem_cons_self, t, ht, rfl⟩

theorem suits_launched (hguarded : s.IsGuarded) {before : Option Nat} {script : Script}
    (ha : s.Allows (.launch 0 before shell.job script)) :
    (s.after (.launch 0 before shell.job script)).Suits past shell
      (shell.launched s.workers.length (s.started shell.job script).1) := by
  have hfree : (s.after (.launch 0 before shell.job script)).task 0 = .free := by
    simp [Scene.after]
  have hheld : (s.after (.launch 0 before shell.job script)).held =
    (s.started shell.job script).2.worker.map fun _ => s.workers.length := rfl
  have hlaunches := launches (hguarded 0 (isStarting_of_allows ha)).1 shell.job script
  generalize s.started shell.job script = result at hlaunches hheld
  cases hlaunches with
  | fails e signals => exact hfree
  | succeeds machine signals =>
      unfold Shell.launched
      dsimp only
      split
      · rename_i hbackground
        refine ⟨hfree, fun reply n _ hblocking => ?_⟩
        rw [hbackground] at hblocking
        cases hblocking
      · refine ⟨by rw [hfree]; rfl, ?_, fun _ hunheld => ?_⟩
        · rintro m (hm | hm)
          · exact (Option.some.inj (hheld.symm.trans hm)).symm
          · rw [hfree] at hm
            cases hm
        · cases hheld.symm.trans hunheld

/-- The first wait of RUN takes the worker from the controller, or finds none. -/
theorem Suits.halt (hsuits : s.Suits past shell .halting) (ha : s.Allows a) (h : s.Waits 0 a none) :
    (s.after a).Suits ((s, a) :: past) shell .halting := by
  cases h with
  | take n => exact ⟨by simp [Scene.after, Task.isStarting], .inr rfl⟩
  | lose n =>
      refine ⟨by simp [Scene.after, Task.isStarting], ?_⟩
      rcases hsuits.2 with hfree | hheld
      · cases hfree.symm.trans ha.1
      · exact .inr hheld

theorem Suits.halted (hsuits : s.Suits past shell .halting) (ha : s.Allows a)
    {outcome : Option Outcome} (h : s.Waits 0 a (some outcome)) :
    (s.after a).Suits ((s, a) :: past) shell .clearing := by
  have hheld : ∀ {task : Task R W}, s.task 0 = task → task ≠ .free → s.held = none := by
    rintro task htask hne
    exact hsuits.2.resolve_left fun hfree => hne (htask.symm.trans hfree)
  cases h with
  | miss => exact ha.2
  | join => exact ⟨by simp [Scene.after], hheld ha.1 (by simp)⟩
  | leave => exact ⟨by simp [Scene.after], hheld ha.2 (by simp)⟩

theorem Suits.compiled (hsuits : s.Suits past shell .clearing) :
    (s.after (.clearStop 0)).Suits ((s, .clearStop 0) :: past) shell shell.compiled := by
  obtain ⟨hfree, hheld⟩ := hsuits
  unfold Shell.compiled
  split
  · exact ⟨hfree, by rintro reply n ⟨⟩⟩
  · rename_i script hscript
    split
    · exact ⟨hfree, hheld, hscript⟩
    · exact ⟨hfree, hheld, hscript⟩

/-- RUN waits for no other run than its own. -/
theorem Suits.finish {n : Nat} (hsuits : s.Suits past shell (.finishing n)) (ha : s.Allows a)
    (h : s.Waits 0 a none) : (s.after a).Suits ((s, a) :: past) shell (.finishing n) := by
  obtain ⟨-, howners, -⟩ := hsuits
  cases h with
  | take m =>
      obtain rfl := howners m (.inl ha.2.2)
      refine ⟨by simp [Scene.after, Task.isStarting], ?_, by simp [Scene.after]⟩
      rintro m' (hm | hm)
      · cases hm
      · simpa [Scene.after, Task.worker?, eq_comm] using hm
  | lose m =>
      obtain rfl := howners m (.inr (handle_of_task ha.1))
      refine ⟨by simp [Scene.after, Task.isStarting], ?_, by simp [Scene.after]⟩
      rintro m' (hm | hm)
      · exact howners m' (.inl hm)
      · simpa [Scene.after, Task.worker?, eq_comm] using hm

theorem Suits.finished {n : Nat} (hsuits : s.Suits past shell (.finishing n))
    (hsteady : s.IsSteady) (ha : s.Allows a) {outcome : Option Outcome}
    (h : s.Waits 0 a (some outcome)) :
    (s.after a).Suits ((s, a) :: past) shell
      (.resting (some (outcome.elim (.ok "") Shell.replyOf, some n))) := by
  obtain ⟨-, howners, htaken⟩ := hsuits
  cases h with
  | miss =>
      refine ⟨ha.2.1, ?_⟩
      rintro reply n ⟨⟩ -
      exact .inr ⟨rfl, (htaken ha.2.1 ha.2.2).cons _⟩
  | @join m worker outcome hworker hfinished =>
      obtain rfl := howners m (.inr (handle_of_task ha.1))
      refine ⟨by simp [Scene.after], ?_⟩
      rintro reply n ⟨⟩ -
      exact .inl ⟨worker, outcome, hworker, by simp [Worker.result?, hfinished], rfl⟩
  | leave m =>
      obtain rfl := howners m (.inr (handle_of_task ha.2))
      refine ⟨by simp [Scene.after], ?_⟩
      rintro reply n ⟨⟩ -
      obtain ⟨worker, hworker, hdied⟩ := hsteady.died 0 _ ha.2
      exact .inl ⟨worker, _, hworker, Worker.result?_of_hasDied hdied, rfl⟩

theorem Suits.client (hsuits : s.Suits past shell errand) (hguarded : s.IsGuarded)
    (hsteady : s.IsSteady) (ha : s.Allows a) (h : s.Follows shell errand a errand') :
    (s.after a).Suits ((s, a) :: past) shell errand' := by
  cases h with
  | request => exact ⟨hsuits, by rintro reply n ⟨⟩⟩
  | stop =>
      have hfree : (s.after (.requestStop 0)).task 0 = .free := hsuits
      exact ⟨by rw [hfree]; rfl, .inl hfree⟩
  | halt h => exact hsuits.halt ha h
  | halted h => exact hsuits.halted ha h
  | clear => exact hsuits.compiled
  | list script => exact hsuits
  | announce script =>
      obtain ⟨hfree, hrest⟩ := hsuits
      exact ⟨handle_of_task hfree, hrest⟩
  | enter script => exact ⟨by simpa [Scene.after, Task.worker?] using hsuits.2.1, rfl, hsuits.2.2⟩
  | start h =>
      cases h with
      | refuse => exact ha.2.1
      | launch before => exact suits_launched hguarded ha
  | fail e => exact ⟨hsuits, by rintro reply n ⟨⟩⟩
  | finish h => exact hsuits.finish ha h
  | finished h => exact hsuits.finished hsteady ha h

end Scene

namespace Dialog

variable {R W σ : Type} [NumberSystem R] {storage : Storage (StateM σ)} {config : Config}
  {sinks : Sinks W} {world : W} {more : List (NativeSet R (Signals W))}
  {past : List (Scene R W × Scene.Action R W)} {d : Dialog R W} {n : Nat}

theorem Leads.scene (h : (new config sinks world more).Leads storage past d) :
    (Scene.new world).Leads past d.scene := by
  induction h with
  | refl => exact .refl
  | line _ _ _ _ _ ih | stop _ _ _ ih | run _ _ _ ih | supply _ _ _ _ ih => exact ih
  | client _ ha _ ih | other _ ha _ ih => exact ih.step ha

theorem Leads.reports (h : (new config sinks world more).Leads storage past d) :
    ∀ e ∈ past, ∀ job, e.2.job? = some job → job.duties.Reports := by
  induction h with
  | refl => rintro e ⟨⟩
  | line _ _ _ _ _ ih | stop _ _ _ ih | run _ _ _ ih | supply _ _ _ _ ih => exact ih
  | client _ _ herrand ih =>
      exact List.forall_mem_cons.mpr ⟨fun job hjob => herrand.reports hjob, ih⟩
  | @other _ _ _ a _ hother ih =>
      refine List.forall_mem_cons.mpr ⟨?_, ih⟩
      intro job hjob
      cases a with
      | enter => exact hother.elim
      | _ => cases hjob

theorem Leads.suits (h : (new config sinks world more).Leads storage past d) :
    d.scene.Suits past d.shell d.errand := by
  induction h with
  | refl => exact ⟨rfl, by rintro reply n ⟨⟩⟩
  | @line past d h answer hrest text _ _ reply shell s t _ ih =>
      rw [hrest] at ih
      refine ⟨ih.1, ?_⟩
      rintro reply n ⟨⟩
  | stop h hrest _ ih | run h hrest _ ih =>
      rw [hrest] at ih
      exact ih.1
  | supply h hrest machine threadError ih => exact ih
  | client h ha herrand ih =>
      exact ih.client h.scene.isGuarded (h.scene.isSteady h.reports) ha herrand
  | other h ha hother ih => exact ih.other h.scene.isGuarded ha hother

end Dialog

namespace Scene

variable {R W : Type} [NumberSystem R] {s : Scene R W} {n : Nat}

omit [NumberSystem R] in
/-- When neither the controller nor the client has a worker, another thread waits for every one that can be waited for. -/
theorem IsHeld.exists_other (h : s.IsHeld n) (hheld : s.held = none)
    (htask : (s.task 0).worker? = none) : ∃ t, t ≠ 0 ∧ s.handle (some t) = some n := by
  obtain ⟨owner, howner⟩ := h
  cases owner with
  | none => cases hheld.symm.trans howner
  | some t =>
      refine ⟨t, ?_, howner⟩
      rintro rfl
      cases htask.symm.trans howner

theorem Suits.exists_other {past : List (Scene R W × Action R W)} {shell : Shell R W}
    {errand : Errand} (h : s.Suits past shell errand) (hprepared : errand.IsPrepared)
    (hn : s.IsHeld n) : ∃ t, t ≠ 0 ∧ s.handle (some t) = some n := by
  have hnone : s.task 0 = .free → (s.task 0).worker? = none := handle_of_task
  cases errand with
  | clearing => exact hn.exists_other h.2 (hnone h.1)
  | listing | announcing => exact hn.exists_other h.2.1 (hnone h.1)
  | starting => exact hn.exists_other h.2.1 h.1
  | resting | requesting | stopping | halting | failing | finishing => exact hprepared.elim

theorem started_of_compiles {shell : Shell R W} {script : Script} (hphase : s.shared.phase = .idle)
    (h : shell.Compiles script) : (s.started shell.job script).1 = shell.granted := by
  obtain ⟨p, hread, hpair, hroom, hemit⟩ := exists_of_compile h
  have hsound := (Program.sound_of_read hread).optimize hpair
  obtain ⟨linked, -, hload⟩ := load_of_emit (W := Signals W) hsound hroom hemit
  have hidle : ¬Controller.isRunning ({ shared := s.shared } : Controller R W) := by
    simp [Controller.isRunning, hphase]
  have hmachine : shell.job.machine = shell.machine := rfl
  have hthread : shell.job.threadError = shell.threadError := rfl
  rw [started, Controller.start, if_neg hidle, hmachine, hthread, Shell.granted]
  cases shell.machine with
  | error e => rfl
  | ok machine =>
      dsimp only
      rw [hload]
      cases shell.threadError <;> rfl

end Scene

/-- Let a client type lines to a shell while other threads wait for runs and request that they be stopped, in whatever order.
When the first wait of RUN is over, another thread waits for every run that still goes on. The start of RUN is refused only
if another thread waits for a run that goes on or broke down; otherwise it succeeds, or else no machine can be made or there
is no thread for the worker. If runs are in the foreground, RUN replies with what its own run has come to, unless another
thread has taken the worker of that run: then the reply may be empty. -/
theorem run_replaces {R W σ : Type} [NumberSystem R] (storage : Storage (StateM σ))
    (config : Config) (sinks : Sinks W) (world : W) (more : List (NativeSet R (Signals W)))
    (past : List (Scene R W × Scene.Action R W)) (d : Dialog R W)
    (h : (Dialog.new config sinks world more).Leads storage past d) :
    (d.errand.IsPrepared → ∀ n, d.scene.Is n Worker.isBusy →
      ∃ t, t ≠ 0 ∧ d.scene.handle (some t) = some n) ∧
    (∀ script a result, d.errand = .starting script → d.scene.Allows a →
      d.scene.Starts 0 d.shell.job script a result →
        result = d.shell.granted ∨
        result = .error Controller.alreadyRunning ∧
          ∃ n, d.scene.IsPending n ∧ ∃ t, t ≠ 0 ∧ d.scene.handle (some t) = some n) ∧
    (∀ reply n, d.errand = .resting (some (reply, some n)) →
      d.shell.config.backgroundRun = false →
        (∃ worker outcome, d.scene.workers[n]? = some worker ∧ worker.result? = some outcome ∧
          reply = Shell.replyOf outcome) ∨
        reply = .ok "" ∧ ∃ e ∈ past, ∃ t, t ≠ 0 ∧ e.2 = .take t n) := by
  have hsuits := h.suits
  have hsound := h.scene.isSound (h.scene.not_isLate h.reports)
  refine ⟨fun hprepared n hn => hsuits.exists_other hprepared (hsound.held n hn), ?_, ?_⟩
  · intro script a result hstarting ha hstarts
    rw [hstarting] at hsuits
    cases hstarts with
    | refuse =>
        obtain ⟨n, hn⟩ := hsound.pending ha.2.2
        refine .inr ⟨rfl, n, hn, hsuits.exists_other trivial ?_⟩
        rcases hn with hbusy | ⟨-, hheld⟩
        · exact hsound.held n hbusy
        · exact hheld
    | launch before =>
        have hidle := (h.scene.isGuarded 0 (Scene.isStarting_of_allows ha)).1
        exact .inl (Scene.started_of_compiles hidle hsuits.2.2)
  · intro reply n hrest hblocking
    rw [hrest] at hsuits
    exact hsuits.2 reply n rfl hblocking

namespace Dialog

section

variable {R W σ : Type} [NumberSystem R] {storage : Storage (StateM σ)} {start d : Dialog R W}
  {past : List (Scene R W × Scene.Action R W)} {script : Script}

/-- RUN comes to its start if it finds no worker to wait for. -/
theorem Leads.exists_starting (h : start.Leads storage past d)
    {answer : Option (Reply × Option Nat)} (hrest : d.errand = .resting answer) (text : String)
    (hrun : Input.command? text = some .run) (hopen : d.scene.Open) (hfree : d.scene.task 0 = .free)
    (hheld : d.scene.held = none) (hcompiles : d.shell.stopAuto.Compiles script)
    (hverbose : d.shell.stopAuto.session.verbose = false) :
    ∃ past', start.Leads storage past' {
      shell := d.shell.stopAuto
      scene := ((d.scene.onSignals Signals.requestStop).onSignals Signals.clearStop).onSignals
        (Signals.onWorld (d.shell.stopAuto.sinks.status true))
      errand := .starting script } := by
  have hstopped := (h.run hrest hrun).client (a := .requestStop 0) hfree .stop
  have hhalted := hstopped.client (a := .miss 0) ⟨hopen, hfree, hheld⟩ (.halted .miss)
  have hcleared := hhalted.client (a := .clearStop 0) hfree .clear
  have hcompiled : d.shell.stopAuto.compiled = .announcing script := by
    rw [Shell.compiled, hcompiles]
    simp [hverbose]
  rw [hcompiled] at hcleared
  exact ⟨_, hcleared.client (a := .onWorld 0 _) hfree (.announce script)⟩

theorem Leads.exists_started (h : start.Leads storage past d) (hstarting : d.errand = .starting script)
    (hopen : d.scene.Open) (hfree : d.scene.task 0 = .free) (hheld : d.scene.held = none)
    (hphase : d.scene.shared.phase = .idle) (hcompiles : d.shell.Compiles script)
    (hgranted : d.shell.granted = .ok ()) :
    ∃ past' worker signals, worker.hasMachine ∧ start.Leads storage past' {
      shell := d.shell
      scene := { d.scene with
        shared := { phase := .running, signals }
        workers := d.scene.workers ++ [worker]
        held := some d.scene.workers.length }
      errand := d.shell.launched d.scene.workers.length (.ok ()) } := by
  obtain ⟨shell, scene, errand⟩ := d
  obtain rfl := hstarting
  have hentered := h.client (a := .enter 0 shell.job script) ⟨hopen, hfree, hphase⟩ (.enter script)
  have hlaunched := hentered.client (a := .launch 0 scene.held shell.job script)
    (Scene.allows_launch fun n hn => by cases hheld.symm.trans hn) (.start (.launch scene.held))
  have hshared : (scene.after (.enter 0 shell.job script)).shared = scene.shared := rfl
  have hworkers : (scene.after (.enter 0 shell.job script)).workers = scene.workers := rfl
  have hresult := Scene.started_of_compiles hphase hcompiles
  dsimp only at hlaunched
  rw [Scene.after_enter_launch hfree, Scene.launch] at hlaunched
  have hstarted : (scene.after (.enter 0 shell.job script)).started shell.job script = scene.started shell.job script := rfl
  rw [hstarted, hworkers] at hlaunched
  have hlaunches := Scene.launches hphase shell.job script
  generalize scene.started shell.job script = result at hlaunches hlaunched hresult
  rw [hgranted] at hresult
  cases hlaunches with
  | fails e signals => cases hresult
  | succeeds machine signals =>
      exact ⟨_, _, signals, Worker.hasMachine_begin _ _, hlaunched⟩

end

def endlessLine : Line where
  number := 10
  content := "GOTO 10"

def endless : Dialog Float Unit where
  shell := .typing endlessLine
  scene := .new ()
  errand := .resting (some (.ok "", none))

theorem leads_endless :
    (new {} .silent () [] : Dialog Float Unit).Leads FileTree.timeless [] endless := by
  have hreply : (((new {} .silent () [] : Dialog Float Unit).view.takeLine FileTree.timeless
      endlessLine.text).run (.startingAt [])).1.1.reply? = some (.ok "") := by
    decide
  exact .line .refl rfl (by decide) (by decide) (Turn.run_eq hreply)

theorem compiles_endless : ∃ script, endless.shell.stopAuto.Compiles script := by
  have hcompile : (compile Float endless.shell.stopAuto.registry endless.shell.stopAuto.session.flags
      endless.shell.stopAuto.session.listing.source).toOption.isSome := by
    decide +kernel
  unfold Shell.Compiles
  generalize compile Float endless.shell.stopAuto.registry _ _ = result at hcompile
  cases result with
  | error e => cases hcompile
  | ok script => exact ⟨script, rfl⟩

/-- RUN was typed. Before it came to wait for its run, another thread had taken the worker, so RUN was answered at once. -/
theorem exists_answered : ∃ past scene, scene.Open ∧ scene.task 0 = .free ∧ scene.held = none ∧
    scene.shared.phase = .running ∧ scene.Is 0 Worker.hasMachine ∧
    (new {} .silent () [] : Dialog Float Unit).Leads FileTree.timeless past {
      shell := endless.shell.stopAuto
      scene
      errand := .resting (some (.ok "", some 0)) } := by
  obtain ⟨script, hcompiles⟩ := compiles_endless
  obtain ⟨past, hstarting⟩ := leads_endless.exists_starting rfl "RUN" (by decide)
    (fun _ => rfl) rfl rfl hcompiles rfl
  obtain ⟨past, worker, signals, hmachine, hstarted⟩ := hstarting.exists_started rfl (fun _ => rfl)
    rfl rfl rfl hcompiles rfl
  have hopen : Scene.Open (R := Float) (W := Unit) {
      shared := { phase := .running, signals }, workers := [worker] } := fun _ => rfl
  have hopen := hopen.assign 1 (.waiting 0) rfl
  have htaken := hstarted.other (a := .take 1 0) ⟨fun _ => rfl, rfl, rfl⟩
    (by simp [Scene.Action.IsOther])
  have hanswered := htaken.client (a := .miss 0) ⟨hopen, rfl, rfl⟩ (.finished .miss)
  exact ⟨_, _, hopen, rfl, rfl, rfl, ⟨worker, rfl, hmachine⟩, hanswered⟩

end Dialog

/-- Another thread takes the worker that RUN has started. RUN is answered as if its run had ended, though the run goes on; and
the next RUN does not wait for that run either, withdraws its request to stop it, and is refused. -/
theorem refused_behind_wait :
    ∃ past past' d d', (Dialog.new {} .silent () [] : Dialog Float Unit).Leads FileTree.timeless past d ∧
      d.shell.config.backgroundRun = false ∧ d.errand = .resting (some (.ok "", some 0)) ∧
      d.scene.Is 0 Worker.hasMachine ∧
      d.Leads FileTree.timeless past' d' ∧
      d'.errand = .resting (some (.error (.command Controller.alreadyRunning), none)) ∧
      d'.scene.Is 0 Worker.hasMachine ∧ d'.scene.shared.signals.stop = false := by
  obtain ⟨script, hcompiles⟩ := Dialog.compiles_endless
  obtain ⟨past, scene, hopen, hfree, hheld, hphase, hmachine, hanswered⟩ := Dialog.exists_answered
  have hrefl : Dialog.Leads FileTree.timeless _ [] {
    shell := Dialog.endless.shell.stopAuto
    scene
    errand := .resting (some (.ok "", some 0)) } := .refl
  obtain ⟨past', hstarting⟩ := hrefl.exists_starting rfl "RUN" (by decide) hopen hfree hheld
    hcompiles rfl
  have hrefused := hstarting.client (a := .refuse 0 _ script) ⟨hopen, hfree, hphase⟩
    (.start .refuse)
  have hfailed := hrefused.client (a := .onWorld 0 _) hfree (.fail _)
  exact ⟨past, _, _, _, hanswered, rfl, rfl, hmachine, hfailed, rfl, hmachine, rfl⟩

/-- The next RUN comes to its start while that run goes on, as another thread waits for it. -/
theorem run_replaces_behind_wait :
    ∃ past d script,
      (Dialog.new {} .silent () [] : Dialog Float Unit).Leads FileTree.timeless past d ∧
      d.errand = .starting script ∧ d.scene.Is 0 Worker.isBusy ∧
      ∃ t, t ≠ 0 ∧ d.scene.handle (some t) = some 0 := by
  obtain ⟨script, hcompiles⟩ := Dialog.compiles_endless
  obtain ⟨past, scene, hopen, hfree, hheld, -, hmachine, hanswered⟩ := Dialog.exists_answered
  obtain ⟨past', hstarting⟩ := hanswered.exists_starting rfl "RUN" (by decide)
    hopen hfree hheld hcompiles rfl
  have hbusy : scene.Is 0 Worker.isBusy := hmachine.imp fun _ => Worker.isBusy_of_hasMachine
  have hprepared := (run_replaces FileTree.timeless {} .silent () [] _ _ hstarting).1 trivial
  exact ⟨_, _, script, hstarting, rfl, hbusy, hprepared 0 hbusy⟩

end LineBasic
