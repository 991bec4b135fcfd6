import LineBasic.Controller

namespace LineBasic

namespace Worker

variable {R W : Type}

/-- The run has not left the running phase yet. -/
def isBusy (worker : Worker R W) : Bool :=
  match worker.state with
  | .calling _ _ | .dropping _ | .clearing _ | .idling _ => true
  | _ => false

def isIdling (worker : Worker R W) : Bool :=
  match worker.state with
  | .idling _ => true
  | _ => false

def hasDied (worker : Worker R W) : Bool :=
  match worker.state with
  | .died => true
  | _ => false

theorem isBusy_of_hasMachine {worker : Worker R W} (h : worker.hasMachine) : worker.isBusy := by
  rcases worker with ⟨_ | _ | _ | _ | _ | _ | _, duties⟩ <;> first | rfl | cases h

theorem isBusy_of_isIdling {worker : Worker R W} (h : worker.isIdling) : worker.isBusy := by
  rcases worker with ⟨_ | _ | _ | _ | _ | _ | _, duties⟩ <;> first | rfl | cases h

theorem not_isBusy_of_hasDied {worker : Worker R W} (h : worker.hasDied) :
    worker.isBusy = false := by
  rcases worker with ⟨_ | _ | _ | _ | _ | _ | _, duties⟩ <;> first | rfl | cases h

theorem result?_of_hasDied {worker : Worker R W} (h : worker.hasDied) :
    worker.result? = some (.failed Outcome.breakdown) := by
  rcases worker with ⟨_ | _ | _ | _ | _ | _ | _, duties⟩ <;> first | rfl | cases h

theorem hasMachine_begin (machine : Machine R (Signals W)) (duties : Duties W) :
    (begin machine duties).hasMachine := by
  unfold begin
  split <;> rfl

theorem duties_begin (machine : Machine R (Signals W)) (duties : Duties W) :
    (begin machine duties).duties = duties := by
  unfold begin
  split <;> rfl

inductive Moves (worker : Worker R W) (shared : Shared W) : Worker R W × Shared W → Prop
  /-- It clears up, or its machine is still running. -/
  | goesOn {state : State R W} {signals : Signals W} (h : worker.isBusy)
      (hstate : { worker with state }.isBusy) :
      Moves worker shared ({ worker with state }, { shared with signals })
  /-- Its machine could not be dropped. -/
  | breaks (h : worker.isBusy) : Moves worker shared ({ worker with state := .died }, shared)
  | leaves {outcome : Outcome} (h : worker.state = .idling outcome) :
      Moves worker shared
        ({ worker with state := .reporting outcome }, { shared with phase := .idle })
  | reports {outcome : Outcome} {signals : Signals W} (h : worker.state = .reporting outcome) :
      Moves worker shared ({ worker with state := .finished outcome }, { shared with signals })
  /-- Its report broke down. -/
  | fails {outcome : Outcome} (h : worker.state = .reporting outcome)
      (hreport : worker.duties.report outcome shared.signals.world = none) :
      Moves worker shared ({ worker with state := .died }, shared)
  | rests (h : worker.result?.isSome) : Moves worker shared (worker, shared)

theorem moves [NumberSystem R] (worker : Worker R W) (shared : Shared W) :
    worker.Moves shared (worker.step shared) := by
  obtain ⟨state, duties⟩ := worker
  cases state with
  | calling machine registers =>
      unfold step
      dsimp only
      split
      · exact .goesOn rfl rfl
      · exact .goesOn rfl rfl
  | dropping outcome =>
      unfold step doing
      dsimp only
      split
      · exact .goesOn rfl rfl
      · exact .breaks rfl
  | clearing outcome => exact .goesOn rfl rfl
  | idling outcome => exact .leaves rfl
  | reporting outcome =>
      unfold step doing
      dsimp only
      split
      · exact .reports rfl
      · rename_i hreport
        exact .fails rfl hreport
  | finished outcome => exact .rests rfl
  | died => exact .rests rfl

section Step

variable [NumberSystem R] {worker : Worker R W} {shared : Shared W}

theorem step_of_result? (h : worker.result?.isSome) : worker.step shared = (worker, shared) := by
  rcases worker with ⟨_ | _ | _ | _ | _ | _ | _, duties⟩ <;> first | rfl | cases h

theorem isBusy_of_step (h : (worker.step shared).1.isBusy) : worker.isBusy := by
  have hmoves := worker.moves shared
  generalize worker.step shared = next at hmoves h
  cases hmoves with
  | goesOn hbusy | breaks hbusy => exact hbusy
  | leaves | reports | fails => cases h
  | rests => exact h

theorem hasDied_step (h : worker.hasDied) : (worker.step shared).1.hasDied := by
  rw [step_of_result?]
  · exact h
  · rw [result?_of_hasDied h]
    rfl

/-- A worker dies as its machine is dropped, or as it reports. -/
theorem hasDied_of_step (h : (worker.step shared).1.hasDied) :
    worker.isBusy ∨ worker.hasDied ∨
      ∃ outcome, worker.duties.report outcome shared.signals.world = none := by
  have hmoves := worker.moves shared
  generalize worker.step shared = next at hmoves h
  cases hmoves with
  | goesOn hbusy | breaks hbusy => exact .inl hbusy
  | leaves | reports => cases h
  | fails hstate hreport => exact .inr (.inr ⟨_, hreport⟩)
  | rests => exact .inr (.inl h)

/-- Either a step leaves the running phase, or it keeps the phase and does not end the run but by breaking down. -/
theorem phase_step (worker : Worker R W) (shared : Shared W) :
    worker.isIdling ∧ (worker.step shared).2.phase = .idle ∧
        (worker.step shared).1.isBusy = false ∧ (worker.step shared).1.hasDied = false ∨
      (worker.step shared).2.phase = shared.phase ∧
        (worker.isBusy → (worker.step shared).1.isBusy ∨ (worker.step shared).1.hasDied) := by
  have hmoves := worker.moves shared
  generalize worker.step shared = next at hmoves
  obtain ⟨state, duties⟩ := worker
  cases hmoves with
  | goesOn hbusy hstate => exact .inr ⟨rfl, fun _ => .inl hstate⟩
  | breaks hbusy => exact .inr ⟨rfl, fun _ => .inr rfl⟩
  | leaves hstate =>
      obtain rfl := hstate
      exact .inl ⟨rfl, rfl, rfl, rfl⟩
  | reports hstate =>
      obtain rfl := hstate
      exact .inr ⟨rfl, by rintro ⟨⟩⟩
  | fails hstate hreport =>
      obtain rfl := hstate
      exact .inr ⟨rfl, by rintro ⟨⟩⟩
  | rests hover => exact .inr ⟨rfl, .inl⟩

/-- A worker that has left the running phase finishes, or breaks down, without coming back to the phase. -/
theorem advance_of_not_isBusy (h : worker.isBusy = false) (shared : Shared W) :
    (worker.advance shared Controller.stepsToFinish).1.result?.isSome ∧
      (worker.advance shared Controller.stepsToFinish).2.phase = shared.phase := by
  obtain ⟨state, duties⟩ := worker
  cases state with
  | reporting outcome =>
      cases hreport : duties.report outcome shared.signals.world <;>
        simp [Controller.stepsToFinish, advance, result?, step, doing, hreport]
  | finished | died => exact ⟨rfl, rfl⟩
  | calling | dropping | clearing | idling => cases h

theorem duties_step : (worker.step shared).1.duties = worker.duties := by
  have hmoves := worker.moves shared
  generalize worker.step shared = next at hmoves
  cases hmoves <;> rfl

end Step

end Worker

end LineBasic
