import LineBasic.Proofs.History
import LineBasic.Proofs.Interleaving
import Mathlib.Order.Defs.Unbundled

/-!
What natives make of the world is all that a machine makes of it. If natives change the world only as a preorder permits, so
does every step of a machine that a controller has bound. Such a machine polls the request to stop, and ends when it finds
one.
-/

namespace LineBasic

section Natives

variable {R W : Type} {permits : W → W → Prop}

/-- A native changes the world only as is permitted. -/
def Native.Respects (permits : W → W → Prop) (native : Native R W) : Prop :=
  ∀ args w, permits w (native args w).2

/-- A set of natives changes the world only as is permitted, also when it is bound. -/
structure NativeSet.Respects (permits : W → W → Prop) (set : NativeSet R W) : Prop where
  natives : ∀ native ∈ set.natives, Native.Respects permits native.2
  onBind : ∀ w, permits w (set.onBind w)

namespace Machine

/-- The natives of a machine change the world only as is permitted. -/
def NativesRespect (permits : W → W → Prop) (m : Machine R W) : Prop :=
  ∀ (name : String) (native : Native R W), m.natives[name]? = some native →
    Native.Respects permits native

theorem NativesRespect.bind {m : Machine R W} (h : m.NativesRespect permits) {native : Native R W}
    (hnative : Native.Respects permits native) (name : String) :
    (m.bind name native).NativesRespect permits := by
  intro name' native' hget
  rw [Machine.bind, Std.TreeMap.getElem?_insert] at hget
  split at hget
  · cases hget
    exact hnative
  · exact h name' native' hget

theorem NativesRespect.bindTo {m : Machine R W} (h : m.NativesRespect permits) {set : NativeSet R W}
    (hset : set.Respects permits) : (set.bindTo m).NativesRespect permits := by
  unfold NativeSet.bindTo
  have hnatives := hset.natives
  generalize set.natives = natives at hnatives
  induction natives generalizing m with
  | nil => exact h
  | cons native natives ih =>
      rw [List.forall_mem_cons] at hnatives
      exact ih (h.bind hnatives.1 native.1) hnatives.2

theorem hook_bindTo (set : NativeSet R W) (m : Machine R W) : (set.bindTo m).hook = m.hook := by
  unfold NativeSet.bindTo
  generalize set.natives = natives
  induction natives generalizing m with
  | nil => rfl
  | cons native natives ih => exact ih (m.bind native.1 native.2)

variable [NumberSystem R] [IsPreorder W permits]

/-- A step of a machine changes the world only as is permitted to its natives, if polls change nothing. -/
theorem NativesRespect.step {m : Machine R W} (h : m.NativesRespect permits) (hpoll : ∀ w, (m.poll w).2 = w)
    (r : Registers R) (w : W) : permits w (m.step r w).2 := by
  have hpolling (r : Registers R) (p : Progress R) : permits w (m.polling r w p).2 := by
    have hkept := hpoll w
    unfold polling
    rcases hasked : m.poll w with ⟨_ | _, w'⟩ <;>
    · rw [hasked] at hkept
      obtain rfl : w' = w := hkept
      exact refl_of permits w'
  have hexecute (i : Instruction R Nat) (r : Registers R) : permits w (m.execute i r w).2 := by
    cases i.acts r with
    | alone p _ hacts =>
        rw [hacts]
        exact refl_of permits w
    | asking r' p _ _ hacts =>
        rw [hacts]
        exact hpolling r' p
    | calling name args keep r' _ hacts =>
        rw [hacts, answering]
        split
        · exact refl_of permits w
        · rename_i native hnative
          have hnative := h name native hnative args w
          rcases hanswer : native args w with ⟨_ | _ | _, w'⟩ <;>
          · rw [hanswer] at hnative
            exact hnative
  unfold Machine.step
  split
  · exact refl_of permits w
  · split
    · have hkept := hpoll w
      rcases hasked : m.poll w with ⟨_ | _, w'⟩ <;>
      · rw [hasked] at hkept
        obtain rfl : w' = w := hkept
        first
        | exact hexecute _ _
        | exact refl_of permits w'
    · exact hexecute _ _

theorem natives_of_load {m machine : Machine R W} {script : String} (h : m.load script = .ok machine) :
    machine.natives = m.natives ∧ machine.hook = m.hook := by
  unfold load at h
  cases hread : Script.read (R := R) script with
  | error e =>
      rw [hread] at h
      cases h
  | ok code =>
      rw [hread] at h
      cases hlink : LinkedCode.link code with
      | error e =>
          simp only [Except.bind, hlink, Bind.bind] at h
          cases h
      | ok linked =>
          simp only [Except.bind, hlink, Bind.bind] at h
          cases h
          exact ⟨rfl, rfl⟩

end Machine

/-- The standard natives change the world only as their console does. -/
theorem NativeSet.respects_standard [NumberSystem R] [IsPreorder W permits] {console : Console W}
    (hwrite : ∀ text w, permits w (console.write text w)) (hrandom : ∀ w, permits w (console.random w).2) :
    (standard (R := R) console).Respects permits where
  natives := by
    have hbuiltin (b : Builtin) : Native.Respects permits (builtin (R := R) console b) := by
      intro args w
      unfold builtin
      dsimp only
      by_cases hb : b = .rnd
      · rw [if_pos hb]
        split
        · exact hrandom w
        · exact hrandom w
      · rw [if_neg hb]
        split
        · exact refl_of permits w
        · exact refl_of permits w
    intro native hnative
    simp only [standard, List.mem_cons, List.mem_map] at hnative
    rcases hnative with rfl | rfl | ⟨b, -, rfl⟩
    · exact fun args w => hwrite _ w
    · exact fun args w => hwrite _ w
    · exact hbuiltin b
  onBind := refl_of permits

end Natives

namespace Machine

variable {R W : Type} {m : Machine R (Signals W)}

/-- Polls of the machine look for a request to stop. -/
def IsStoppable (m : Machine R (Signals W)) : Prop :=
  m.hook = some fun signals => (signals.stop, signals)

theorem IsStoppable.poll (h : m.IsStoppable) (signals : Signals W) :
    m.poll signals = (signals.stop, signals) := by
  unfold Machine.poll
  rw [h]

variable [NumberSystem R]

/-- A step that polls ends the run with a break if a stop is requested. -/
theorem IsStoppable.step_of_poll (h : m.IsStoppable) {signals : Signals W} (hstop : signals.stop)
    {r : Registers R} {answer : Bool} (hpoll : .poll answer ∈ m.stepEvents r signals) :
    ∃ ending r', m.step r signals = (.ended ending r', signals) ∧ Outcome.ofEnding ending = .stopped := by
  have hasked : m.poll signals = (true, signals) := by rw [h.poll, hstop]
  have hbreak (r : Registers R) :
      Outcome.ofEnding (.failed ({ code := .break : Error }.orLine r.line)) = .stopped := by
    rw [Outcome.ofEnding, if_pos (Error.orLine_code _ _)]
  have hexecute {i : Instruction R Nat} {r : Registers R} (hact : .poll answer ∈ m.actEvents i r signals) :
      ∃ ending r', m.execute i r signals = (.ended ending r', signals) ∧
        Outcome.ofEnding ending = .stopped := by
    rw [actEvents] at hact
    cases i.acts r with
    | alone p _ hacts =>
        rw [hacts] at hact
        cases hact
    | asking r' p _ _ hacts =>
        rw [hacts, polling, hasked]
        exact ⟨_, _, rfl, hbreak r'⟩
    | calling name args keep r' _ hacts =>
        rw [hacts, answering_recording] at hact
        dsimp only at hact
        split at hact
        · simp at hact
        · cases hact
  unfold stepEvents at hpoll
  unfold Machine.step
  cases hi : m.linked.code[r.address]? with
  | none =>
      rw [hi] at hpoll
      cases hpoll
  | some i =>
      rw [hi] at hpoll
      dsimp only at hpoll ⊢
      by_cases hdue : r.countdown ≤ 1
      · rw [if_pos hdue, hasked]
        exact ⟨_, _, rfl, hbreak _⟩
      · rw [if_neg hdue, List.mem_cons] at hpoll
        rw [if_neg hdue]
        exact hexecute (hpoll.resolve_left (by simp))

/-- A step without a poll brings the next poll nearer. -/
theorem IsStoppable.countdown_of_step (h : m.IsStoppable) {r r' : Registers R}
    {signals signals' : Signals W} (hstep : m.step r signals = (.running r', signals')) :
    (∃ answer, .poll answer ∈ m.stepEvents r signals) ∧ r'.countdown = m.period ∨
      1 < r.countdown ∧ r'.countdown + 1 = r.countdown := by
  have hsteps := m.steps h r signals
  rw [hstep] at hsteps
  generalize m.stepEvents r signals = events at hsteps ⊢
  cases hsteps with
  | executed i hi hdue hacts hp =>
      obtain ⟨hcountdown, -⟩ := hp r' rfl
      by_cases hlast : r.countdown ≤ 1
      · rw [if_pos hlast] at hdue hcountdown
        exact .inl ⟨⟨false, by simp [hdue]⟩, hcountdown⟩
      · rw [if_neg hlast] at hcountdown
        exact .inr (by omega)

end Machine

namespace Worker

variable {R W : Type} {permits : Signals W → Signals W → Prop} {report : Outcome → W → W}

/-- A worker whose machine was bound by a controller. Its natives change the world only as is permitted, and neither of its
duties breaks down. -/
structure IsBound (permits : Signals W → Signals W → Prop) (report : Outcome → W → W) (worker : Worker R W) :
    Prop where
  duties : worker.duties = { report := fun outcome world => some (report outcome world) }
  hasDied : worker.hasDied = false
  natives : ∀ machine registers, worker.state = .calling machine registers → machine.NativesRespect permits
  hook : ∀ machine registers, worker.state = .calling machine registers → machine.IsStoppable
  countdown : ∀ machine registers, worker.state = .calling machine registers →
    0 < registers.countdown ∧ registers.countdown ≤ machine.period

/-- What a step makes of such a worker and of what it shares. -/
inductive Turns [NumberSystem R] (permits : Signals W → Signals W → Prop) (report : Outcome → W → W)
    (worker : Worker R W) (shared : Shared W) : Worker R W × Shared W → Prop
  | runs {machine : Machine R (Signals W)} {r r' : Registers R} {signals : Signals W}
      (hstate : worker.state = .calling machine r)
      (hstep : machine.step r shared.signals = (.running r', signals))
      (hpermits : permits shared.signals signals) :
      Turns permits report worker shared
        ({ worker with state := .calling machine r' }, { shared with signals })
  | ends {machine : Machine R (Signals W)} {r r' : Registers R} {ending : Ending} {signals : Signals W}
      (hstate : worker.state = .calling machine r)
      (hstep : machine.step r shared.signals = (.ended ending r', signals))
      (hpermits : permits shared.signals signals) :
      Turns permits report worker shared
        ({ worker with state := .dropping (.ofEnding ending) }, { shared with signals })
  | drops {outcome : Outcome} (hstate : worker.state = .dropping outcome) :
      Turns permits report worker shared ({ worker with state := .clearing outcome }, shared)
  | clears {outcome : Outcome} (hstate : worker.state = .clearing outcome) :
      Turns permits report worker shared
        ({ worker with state := .idling outcome }, { shared with signals := shared.signals.clearStop })
  | leaves {outcome : Outcome} (hstate : worker.state = .idling outcome) :
      Turns permits report worker shared
        ({ worker with state := .reporting outcome }, { shared with phase := .idle })
  | reports {outcome : Outcome} (hstate : worker.state = .reporting outcome) :
      Turns permits report worker shared
        ({ worker with state := .finished outcome },
          { shared with signals := shared.signals.onWorld (report outcome) })
  | rests {outcome : Outcome} (hstate : worker.state = .finished outcome) :
      Turns permits report worker shared (worker, shared)

theorem isBound_begin {machine : Machine R (Signals W)} (hnatives : machine.NativesRespect permits)
    (hhook : machine.IsStoppable) :
    (begin machine { report := fun outcome world => some (report outcome world) }).IsBound permits report := by
  unfold begin
  split
  · rename_i r hstart
    refine ⟨rfl, rfl, ?_, ?_, ?_⟩
    · rintro _ _ ⟨⟩
      exact hnatives
    · rintro _ _ ⟨⟩
      exact hhook
    · rintro _ _ ⟨⟩
      rw [Machine.countdown_of_start hstart]
      exact ⟨machine.period_pos, Nat.le_refl _⟩
  · exact ⟨rfl, rfl, by rintro _ _ ⟨⟩, by rintro _ _ ⟨⟩, by rintro _ _ ⟨⟩⟩

variable [IsPreorder (Signals W) permits] [NumberSystem R] {worker : Worker R W}

theorem IsBound.turns (h : worker.IsBound permits report) (shared : Shared W) :
    worker.Turns permits report shared (worker.step shared) := by
  obtain ⟨hduties, hdied, hnatives, hhook, -⟩ := h
  obtain ⟨state, duties⟩ := worker
  obtain rfl := hduties
  cases state with
  | calling machine r =>
      have hpoll (signals : Signals W) : (machine.poll signals).2 = signals := by
        rw [(hhook machine r rfl).poll]
      have hpermits := (hnatives machine r rfl).step hpoll r shared.signals
      unfold step
      dsimp only
      split
      · rename_i r' signals hstep
        rw [hstep] at hpermits
        exact .runs rfl hstep hpermits
      · rename_i ending r' signals hstep
        rw [hstep] at hpermits
        exact .ends rfl hstep hpermits
  | dropping outcome => exact .drops rfl
  | clearing outcome => exact .clears rfl
  | idling outcome => exact .leaves rfl
  | reporting outcome => exact .reports rfl
  | finished outcome => exact .rests rfl
  | died => cases hdied

theorem IsBound.step (h : worker.IsBound permits report) (shared : Shared W) :
    (worker.step shared).1.IsBound permits report := by
  have hturns := h.turns shared
  have hduties : (worker.step shared).1.duties = worker.duties := duties_step
  generalize worker.step shared = next at hturns hduties
  have hdone {state : State R W} (hdied : ({ worker with state } : Worker R W).hasDied = false)
      (hstate : ∀ machine r, state ≠ .calling machine r) :
      ({ worker with state } : Worker R W).IsBound permits report :=
    ⟨h.duties, hdied, fun machine r hcalling => absurd hcalling (hstate machine r),
      fun machine r hcalling => absurd hcalling (hstate machine r),
      fun machine r hcalling => absurd hcalling (hstate machine r)⟩
  cases hturns with
  | @runs machine r r' signals hstate hstep hpermits =>
      refine ⟨h.duties, rfl, ?_, ?_, ?_⟩
      · rintro _ _ ⟨⟩
        exact h.natives machine r hstate
      · rintro _ _ ⟨⟩
        exact h.hook machine r hstate
      · rintro _ _ ⟨⟩
        have hbounds := h.countdown machine r hstate
        have hpos := machine.period_pos
        rcases (h.hook machine r hstate).countdown_of_step hstep with ⟨-, heq⟩ | ⟨hlt, heq⟩
        · omega
        · omega
  | ends | drops | clears | leaves | reports => exact hdone rfl (by simp)
  | rests => exact h

end Worker

namespace Controller.Job

variable {R W : Type} {permits : Signals W → Signals W → Prop} {job : Job R W}

/-- What a job brings along changes the world only as is permitted. -/
structure Respects (permits : Signals W → Signals W → Prop) (job : Job R W) : Prop where
  machine : ∀ machine, job.machine = .ok machine → machine.NativesRespect permits
  natives : ∀ set ∈ job.natives, set.Respects permits

theorem Respects.bound (h : job.Respects permits) {machine : Machine R (Signals W)}
    (hmachine : job.machine = .ok machine) :
    (job.bound machine).NativesRespect permits ∧ (job.bound machine).IsStoppable := by
  have hfirst : ({ machine with hook := some fun signals => (signals.stop, signals) } :
      Machine R (Signals W)).NativesRespect permits := h.machine machine hmachine
  have hhook : ({ machine with hook := some fun signals => (signals.stop, signals) } :
      Machine R (Signals W)).IsStoppable := rfl
  have hsets := h.natives
  unfold Job.bound
  generalize job.natives = sets at hsets
  generalize ({ machine with hook := some fun signals => (signals.stop, signals) } :
    Machine R (Signals W)) = m at hfirst hhook
  induction sets generalizing m with
  | nil => exact ⟨hfirst, hhook⟩
  | cons set sets ih =>
      rw [List.forall_mem_cons] at hsets
      exact ih hsets.2 _ (hfirst.bindTo hsets.1) ((Machine.hook_bindTo set m).trans hhook)

theorem Respects.bindSignals [IsPreorder (Signals W) permits] (h : job.Respects permits)
    (signals : Signals W) : permits signals (job.bindSignals signals) := by
  have hsets := h.natives
  unfold Job.bindSignals
  generalize job.natives = sets at hsets
  induction sets generalizing signals with
  | nil => exact refl_of permits signals
  | cons set sets ih =>
      rw [List.forall_mem_cons] at hsets
      exact trans_of permits (hsets.1.onBind signals) (ih _ hsets.2)

end Controller.Job

namespace Scene

variable {R W : Type} [NumberSystem R] {permits : Signals W → Signals W → Prop}
  [IsPreorder (Signals W) permits] {s : Scene R W}
  {job : Controller.Job R W}

/-- What the end of a start comes to, if all that it binds changes the world only as is permitted. -/
inductive Sets (s : Scene R W) (permits : Signals W → Signals W → Prop) (t : Nat) (job : Controller.Job R W) :
    Except Error Unit × Scene R W → Prop
  | fails (e : Error) {signals : Signals W} (hpermits : permits s.shared.signals signals) :
      Sets s permits t job (.error e, { s with
        shared := { phase := .idle, signals }
        held := none
        task := Function.update s.task t .free })
  | succeeds {machine : Machine R (Signals W)} {signals : Signals W}
      (hnatives : machine.NativesRespect permits) (hhook : machine.IsStoppable)
      (hpermits : permits s.shared.signals signals) :
      Sets s permits t job (.ok (), {
        shared := { phase := .running, signals }
        workers := s.workers ++ [Worker.begin machine job.duties]
        held := some s.workers.length
        task := Function.update s.task t .free })

theorem started_cases (hphase : s.shared.phase = .idle) (h : job.Respects permits) (script : Script) :
    (∃ e signals, permits s.shared.signals signals ∧
        s.started job script = (.error e, { shared := { phase := .idle, signals } })) ∨
      ∃ machine signals, machine.NativesRespect permits ∧ machine.IsStoppable ∧
        permits s.shared.signals signals ∧
        s.started job script = (.ok (), {
          shared := { phase := .running, signals }
          worker := some (Worker.begin machine job.duties) }) := by
  obtain ⟨⟨_, signals⟩, workers, held, task⟩ := s
  obtain rfl := hphase
  have hsignals := h.bindSignals signals
  unfold started Controller.start Controller.isRunning Controller.reap Controller.advance
  rw [if_neg (by simp)]
  dsimp only
  cases hmachine : job.machine with
  | error e => exact .inl ⟨_, signals, refl_of permits signals, rfl⟩
  | ok machine =>
      obtain ⟨hrespect, hstoppable⟩ := h.bound hmachine
      dsimp only
      cases hload : (job.bound machine).load script.text with
      | error e => exact .inl ⟨e, _, hsignals, rfl⟩
      | ok loaded =>
          cases hthread : job.threadError with
          | some reason => exact .inl ⟨_, _, hsignals, rfl⟩
          | none =>
              obtain ⟨hnatives, hhook⟩ := Machine.natives_of_load hload
              refine .inr ⟨loaded, _, ?_, hhook.trans hstoppable, hsignals, rfl⟩
              intro name native hget
              rw [hnatives] at hget
              exact hrespect name native hget

theorem sets (hphase : s.shared.phase = .idle) (h : job.Respects permits) (t : Nat) (before : Option Nat)
    (script : Script) :
    s.Sets permits t job ((s.started job script).1, s.after (.launch t before job script)) := by
  rw [Scene.after, launch]
  rcases started_cases hphase h script with
    ⟨e, signals, hpermits, hstarted⟩ | ⟨machine, signals, hnatives, hhook, hpermits, hstarted⟩
  · have hfails : s.Sets permits t job _ := .fails e hpermits
    rw [hstarted]
    simpa [assign] using hfails
  · rw [hstarted]
    exact .succeeds hnatives hhook hpermits

end Scene

end LineBasic
