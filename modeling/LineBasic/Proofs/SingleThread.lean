import LineBasic.Proofs.Interleaving

/-!
A controller that only one thread uses. What it does, at one go, for a thread that waits or starts a run is one of the ways
in which things may go between threads.
-/

namespace LineBasic

namespace Scene

variable {R W : Type} [NumberSystem R] {s : Scene R W}

theorem exists_leads_advance (fuel : Nat) {n : Nat} {worker : Worker R W} (hopen : s.Open)
    (hworker : s.workers[n]? = some worker) :
    ∃ past s', s.Leads past s' ∧ s'.task = s.task ∧ s'.held = s.held ∧
      s'.shared = (worker.advance s.shared fuel).2 ∧
      s'.workers[n]? = some (worker.advance s.shared fuel).1 := by
  induction fuel generalizing s worker with
  | zero => exact ⟨[], s, .refl, rfl, rfl, rfl, hworker⟩
  | succ fuel ih =>
      rw [Worker.advance]
      cases hresult : worker.result? with
      | some outcome => exact ⟨[], s, .refl, rfl, rfl, rfl, hworker⟩
      | none =>
          have hstep : s.Allows (.work n) := ⟨worker, hworker, fun _ => hopen⟩
          have hafter : s.after (.work n) = { s with
              shared := (worker.step s.shared).2
              workers := s.workers.set n (worker.step s.shared).1 } := work_of_getElem? hworker
          have hlt := (List.getElem?_eq_some_iff.mp hworker).1
          have hopen' : (s.after (.work n)).Open := by
            rw [hafter]
            exact hopen
          have hworker' : (s.after (.work n)).workers[n]? = some (worker.step s.shared).1 := by
            rw [hafter]
            exact List.getElem?_set_self hlt
          obtain ⟨past, s', hleads, htask, hheld, hshared, hnext⟩ := ih hopen' hworker'
          rw [hafter] at htask hheld hshared hnext
          exact ⟨_, s', (Leads.refl.step hstep).trans hleads, htask, hheld, hshared, hnext⟩

theorem exists_leads_controller_advance (fuel : Nat) (hopen : s.Open) :
    ∃ past s', s.Leads past s' ∧ s'.task = s.task ∧ s'.held = s.held ∧
      s'.controller = s.controller.advance fuel := by
  have hnone : s.controller.worker = none → ∃ past s', s.Leads past s' ∧ s'.task = s.task ∧
      s'.held = s.held ∧ s'.controller = s.controller.advance fuel := by
    intro hworker
    exact ⟨[], s, .refl, rfl, rfl, by rw [Controller.advance, hworker]⟩
  cases hheld : s.held with
  | none => exact hheld ▸ hnone (by simp [controller, hheld])
  | some n =>
      cases hworker : s.workers[n]? with
      | none => exact hheld ▸ hnone (by simp [controller, hheld, hworker])
      | some worker =>
          obtain ⟨past, s', hleads, htask, hheld', hshared, hworker'⟩ :=
            exists_leads_advance fuel hopen hworker
          refine ⟨past, s', hleads, htask, hheld'.trans hheld, ?_⟩
          simp [controller, Controller.advance, hheld', hheld, hworker, hshared, hworker']

/-- A thread that waits may get an outcome and leave the controller so, if other threads do nothing. -/
def MayWait (s : Scene R W) (t : Nat) (result : Option Outcome × Controller R W) : Prop :=
  ∃ past s', s.Leads past s' ∧ s'.task = s.task ∧ s'.controller = result.2 ∧
    ∀ outcome, result.1 = some outcome →
      ∃ e, past.head? = some e ∧ e.1.Waits t e.2 (some (some outcome))

theorem mayWait_collect (hopen : s.Open) {t : Nat} (hfree : s.task t = .free) :
    s.MayWait t s.controller.collect := by
  have hrefl : s.controller.collect = (none, s.controller) → s.MayWait t s.controller.collect := by
    intro hcollect
    rw [hcollect]
    exact ⟨[], s, .refl, rfl, rfl, by rintro outcome ⟨⟩⟩
  cases hheld : s.held with
  | none => exact hrefl (by simp [Controller.collect, controller, hheld])
  | some n =>
      cases hworker : s.workers[n]? with
      | none => exact hrefl (by simp [Controller.collect, controller, hheld, hworker])
      | some worker =>
          have hcontroller : s.controller = { shared := s.shared, worker := some worker } := by
            simp [controller, hheld, hworker]
          have htake := Leads.refl.step (s := s) (a := .take t n) ⟨hopen, hfree, hheld⟩
          cases hstate : worker.state with
          | finished outcome =>
              have hjoin := htake.step (a := .join t n)
                ⟨by simp [Scene.after, assign], worker, outcome, hworker, hstate⟩
              rw [hcontroller, Controller.collect]
              simp only [hstate]
              refine ⟨_, _, hjoin, update_task_free hfree _, rfl, ?_⟩
              rintro outcome ⟨⟩
              exact ⟨_, rfl, .join hworker hstate⟩
          | died =>
              have hlose := htake.step (a := .lose t n)
                ⟨by simp [Scene.after, assign], worker, hworker, by simp [Worker.hasDied, hstate]⟩
              have hopen' : (s.after (.take t n)).Open := Open.assign hopen t _ rfl
              have hleave := hlose.step (a := .leave t n)
                ⟨hopen'.assign t _ rfl, by simp [Scene.after, assign]⟩
              rw [hcontroller, Controller.collect]
              simp only [hstate]
              refine ⟨_, _, hleave, ?_, rfl, ?_⟩
              · simp only [Scene.after, assign, unheld, leavePhase, Function.update_idem]
                exact Function.update_eq_self_iff.mpr hfree.symm
              · rintro outcome ⟨⟩
                exact ⟨_, rfl, .leave n⟩
          | _ => exact hrefl (by simp [hcontroller, Controller.collect, hstate])

theorem mayWait_wait (fuel : Nat) (hopen : s.Open) {t : Nat} (hfree : s.task t = .free) :
    s.MayWait t (s.controller.wait fuel) := by
  obtain ⟨past, s', hleads, htask, -, hcontroller⟩ := exists_leads_controller_advance fuel hopen
  obtain ⟨past', s'', hleads', htask', hcontroller', hlast⟩ :=
    mayWait_collect (s := s') (t := t) (fun t => htask ▸ hopen t) (htask ▸ hfree)
  rw [hcontroller] at hcontroller' hlast
  refine ⟨_, s'', hleads.trans hleads', htask'.trans htask, hcontroller', ?_⟩
  intro outcome houtcome
  obtain ⟨e, he, hwaits⟩ := hlast outcome houtcome
  exact ⟨e, by simp [he], hwaits⟩

theorem controller_launch (s : Scene R W) (job : Controller.Job R W) (script : Script) :
    (s.launch job script).controller = (s.started job script).2 := by
  rw [controller, launch]
  rcases (s.started job script).2 with ⟨shared, _ | worker⟩
  · rfl
  · simp

theorem started_eq_start (hphase : s.shared.phase = .idle) {c : Controller R W}
    (hc : c.isRunning = false) (hreap : c.reap = { shared := s.shared }) (job : Controller.Job R W)
    (script : Script) : s.started job script = c.start job script := by
  have hrunning : Controller.isRunning ({ shared := s.shared } : Controller R W) = false := by
    simp [Controller.isRunning, hphase]
  rw [started, Controller.start, Controller.start, hc, hrunning, hreap]
  rfl

theorem exists_leads_started (hopen : s.Open) {t : Nat} (hfree : s.task t = .free)
    (hphase : s.shared.phase = .idle)
    (hover : ∀ n, s.held = some n → s.Is n fun worker => worker.result?.isSome)
    (job : Controller.Job R W) (script : Script) :
    ∃ past s' a, s.Leads past s' ∧ s'.Allows a ∧
      s'.Starts t job script a (s.started job script).1 ∧ (s'.after a).task = s.task ∧
      (s'.after a).controller = (s.started job script).2 := by
  have henter : s.Allows (.enter t job script) := ⟨hopen, hfree, hphase⟩
  refine ⟨_, _, _, Leads.refl.step henter, allows_launch hover, .launch s.held, ?_, ?_⟩
  · rw [after_enter_launch hfree]
    rfl
  · rw [after_enter_launch hfree, controller_launch]

theorem exists_leads_start (hopen : s.Open) {t : Nat} (hfree : s.task t = .free)
    (hover : s.shared.phase = .idle → ∀ n, s.held = some n → s.Is n fun worker => !worker.isBusy)
    (job : Controller.Job R W) (script : Script) :
    ∃ past s' a, s.Leads past s' ∧ s'.Allows a ∧
      s'.Starts t job script a (s.controller.start job script).1 ∧
      (s'.after a).task = s.task ∧
      (s'.after a).controller = (s.controller.start job script).2 := by
  cases hphase : s.shared.phase with
  | running =>
      have hrunning : s.controller.isRunning := by
        simp [Controller.isRunning, controller, hphase]
      rw [Controller.start, if_pos hrunning]
      exact ⟨[], s, .refuse t job script, .refl, ⟨hopen, hfree, hphase⟩, .refuse, rfl, rfl⟩
  | idle =>
      have hrunning : s.controller.isRunning = false := by
        simp [Controller.isRunning, controller, hphase]
      cases hheld : s.held with
      | none =>
          rw [← started_eq_start hphase hrunning (by simp [Controller.reap, Controller.advance,
            controller, hheld])]
          exact exists_leads_started hopen hfree hphase (by simp [hheld]) job script
      | some n =>
          obtain ⟨worker, hworker, hbusy⟩ := hover hphase n hheld
          obtain ⟨hresult, hidle⟩ := worker.advance_of_not_isBusy
            (by simpa using hbusy) s.shared
          obtain ⟨past, s', hleads, htask, hheld', hshared, hworker'⟩ :=
            exists_leads_advance Controller.stepsToFinish hopen hworker
          have hphase' : s'.shared.phase = .idle := by rw [hshared, hidle, hphase]
          have hreap : s.controller.reap = { shared := s'.shared } := by
            simp [Controller.reap, Controller.advance, controller, hheld, hworker, hshared]
          obtain ⟨past', s'', a, hleads', ha, hstarts, htask', hcontroller⟩ :=
            exists_leads_started (s := s') (t := t) (fun t => htask ▸ hopen t) (htask ▸ hfree)
              hphase' (fun m hm => by
                obtain rfl : m = n := Option.some.inj (hm.symm.trans (hheld'.trans hheld))
                exact ⟨_, hworker', hresult⟩) job script
          rw [started_eq_start hphase' hrunning hreap] at hstarts hcontroller
          exact ⟨_, s'', a, hleads.trans hleads', ha, hstarts, htask'.trans htask, hcontroller⟩

end Scene

end LineBasic
