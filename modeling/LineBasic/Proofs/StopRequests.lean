import LineBasic.Proofs.SoleClient

namespace LineBasic

/-- A request to stop is not withdrawn. -/
def Signals.KeepsStop {W : Type} (s s' : Signals W) : Prop :=
  s.stop → s'.stop

instance {W : Type} : IsPreorder (Signals W) Signals.KeepsStop where
  refl _ := id
  trans _ _ _ h h' := h' ∘ h

theorem NativeSet.keepsStop_standard {R W : Type} [NumberSystem R] (console : Console W) :
    (standard (R := R) console.onSignals).Respects Signals.KeepsStop :=
  respects_standard (fun _ _ => id) fun _ => id

namespace Worker

variable {R W : Type}

/-- The run is still to withdraw the request to stop. -/
def isExposed (worker : Worker R W) : Bool :=
  match worker.state with
  | .calling _ _ | .dropping _ | .clearing _ => true
  | _ => false

def isClearing (worker : Worker R W) : Bool :=
  match worker.state with
  | .clearing _ => true
  | _ => false

theorem result?_of_isExposed {worker : Worker R W} (h : worker.isExposed) : worker.result? = none := by
  rcases worker with ⟨_ | _ | _ | _ | _ | _ | _, duties⟩ <;> first | rfl | cases h

/-- What is true of a run for which there has been a request all along, after some steps. -/
def Heeds (worker : Worker R W) (stop : Bool) (polled : Prop) (steps : Nat) : Prop :=
  match worker.state with
  | .calling machine r => stop ∧ ¬polled ∧ steps + r.countdown ≤ machine.period
  | .dropping outcome | .clearing outcome => stop ∧ (outcome = .stopped ∨ ¬polled)
  | .idling outcome | .reporting outcome | .finished outcome => outcome = .stopped ∨ ¬polled
  | .died => False

theorem Heeds.mono {worker : Worker R W} {stop stop' : Bool} {polled : Prop} {steps : Nat}
    (h : worker.Heeds stop polled steps) (hstop : worker.isExposed → stop → stop') :
    worker.Heeds stop' polled steps := by
  rcases worker with ⟨_ | _ | _ | _ | _ | _ | _, duties⟩
  case calling | dropping | clearing => exact ⟨hstop rfl h.1, h.2⟩
  all_goals exact h

theorem Heeds.of_result? {worker : Worker R W} {stop : Bool} {polled : Prop} {steps : Nat} {outcome : Outcome}
    (h : worker.Heeds stop polled steps) (hresult : worker.result? = some outcome) :
    outcome = .stopped ∨ ¬polled := by
  rcases worker with ⟨_ | _ | _ | _ | _ | _ | _, duties⟩
  case finished =>
    cases hresult
    exact h
  case died => exact h.elim
  all_goals cases hresult

theorem isExposed_of_hasMachine {worker : Worker R W} (h : worker.hasMachine) : worker.isExposed := by
  rcases worker with ⟨_ | _ | _ | _ | _ | _ | _, duties⟩ <;> first | rfl | cases h

theorem isExposed_begin (machine : Machine R (Signals W)) (duties : Duties W) :
    (begin machine duties).isExposed :=
  isExposed_of_hasMachine (hasMachine_begin machine duties)

theorem heeds_begin {machine : Machine R (Signals W)} {duties : Duties W} {stop : Bool} {polled : Prop}
    (hstop : stop) (hpolled : ¬polled) : (begin machine duties).Heeds stop polled 0 := by
  unfold begin
  split
  · rename_i r hstart
    refine ⟨hstop, hpolled, ?_⟩
    rw [Nat.zero_add, Machine.countdown_of_start hstart]
  · exact ⟨hstop, .inr hpolled⟩

end Worker

/-- RUN has compiled its program, and has not started it yet. -/
def Errand.IsLaunching : Errand → Prop
  | .listing _ | .announcing _ | .starting _ => True
  | _ => False

theorem Errand.isAhead_of_isLaunching {errand : Errand} (h : errand.IsLaunching) : errand.IsAhead := by
  cases errand <;> trivial

def Scene.Action.isWork {R W : Type} (n : Nat) : Scene.Action R W → Bool
  | .work m => m == n
  | _ => false

namespace Dialog

variable {R W σ : Type} [NumberSystem R]

def Polls (n : Nat) (e : Dialog R W × Scene.Action R W) : Prop :=
  e.2 = .work n ∧ ∃ worker machine r answer, e.1.scene.workers[n]? = some worker ∧
    worker.state = .calling machine r ∧ .poll answer ∈ machine.stepEvents r e.1.scene.shared.signals

omit [NumberSystem R] in
def steps (past : List (Dialog R W × Scene.Action R W)) (n : Nat) : Nat :=
  past.countP fun e => e.2.isWork n

/-- There has been a request all along for a run that is going on, or is to be started. -/
structure Heeds (n : Nat) (past : List (Dialog R W × Scene.Action R W)) (d : Dialog R W) : Prop where
  ahead : d.scene.workers.length ≤ n → (¬∃ e ∈ past, Polls n e) ∧ steps past n = 0 ∧
    (d.errand.IsLaunching → d.scene.shared.signals.stop)
  run : ∀ worker, d.scene.workers[n]? = some worker →
    worker.Heeds d.scene.shared.signals.stop (∃ e ∈ past, Polls n e) (steps past n)

variable {storage : Storage (StateM σ)} {d d' : Dialog R W} {n : Nat} {a : Scene.Action R W} {errand : Errand}
  {past : List (Dialog R W × Scene.Action R W)}

theorem not_polls (ha : a.isWork n = false) : ¬Polls n (d, a) := by
  rintro ⟨hwork, -⟩
  obtain rfl : a = .work n := hwork
  simp [Scene.Action.isWork] at ha

omit [NumberSystem R] in
theorem steps_cons (ha : a.isWork n = false) : steps ((d, a) :: past) n = steps past n :=
  List.countP_cons_of_neg (by simp [ha])

theorem polled_cons (ha : a.isWork n = false) :
    (∃ e ∈ (d, a) :: past, Polls n e) ↔ ∃ e ∈ past, Polls n e := by
  rw [List.exists_mem_cons_iff, or_iff_right (not_polls ha)]

/-- What does not withdraw the request, nor concerns the run in another way. -/
theorem Heeds.keeps (h : d.Heeds n past) (ha : a.isWork n = false) {s : Scene R W}
    (hlength : s.workers.length ≤ n → d.scene.workers.length ≤ n)
    (hworker : s.workers[n]? = d.scene.workers[n]?)
    (hlaunching : s.workers.length ≤ n → errand.IsLaunching → d.errand.IsLaunching)
    (hstop : (d.errand.IsLaunching ∨ ∃ worker, d.scene.workers[n]? = some worker ∧ worker.isExposed) →
      d.scene.shared.signals.stop → s.shared.signals.stop) :
    Heeds n ((d, a) :: past) { d with scene := s, errand } := by
  refine ⟨fun hle => ?_, fun worker hget => ?_⟩
  · obtain ⟨hpolled, hsteps, hlaunch⟩ := h.ahead (hlength hle)
    refine ⟨(polled_cons ha).not.mpr hpolled, (steps_cons ha).trans hsteps, fun herrand => ?_⟩
    have hbefore := hlaunching hle herrand
    exact hstop (.inl hbefore) (hlaunch hbefore)
  · have hget' : d.scene.workers[n]? = some worker := hworker.symm.trans hget
    rw [polled_cons ha, steps_cons ha]
    exact (h.run worker hget').mono fun hexposed => hstop (.inr ⟨worker, hget', hexposed⟩)

theorem polls_work {worker : Worker R W} (hworker : d.scene.workers[n]? = some worker)
    (h : Polls n (d, .work n)) : ∃ machine r answer, worker.state = .calling machine r ∧
      .poll answer ∈ machine.stepEvents r d.scene.shared.signals := by
  obtain ⟨-, worker', machine, r, answer, hworker', hstate, hpoll⟩ := h
  cases hworker.symm.trans hworker'
  exact ⟨machine, r, answer, hstate, hpoll⟩

omit [NumberSystem R] in
theorem steps_work : steps ((d, .work n) :: past) n = steps past n + 1 :=
  List.countP_cons_of_pos (by simp [Scene.Action.isWork])

variable (hd : d.IsAttended Signals.KeepsStop)
include hd

/-- A step of the run itself. A poll finds the request. -/
theorem Heeds.work (h : d.Heeds n past) {worker : Worker R W} (hworker : d.scene.workers[n]? = some worker) :
    (worker.step d.scene.shared).1.Heeds (worker.step d.scene.shared).2.signals.stop
      (∃ e ∈ (d, .work n) :: past, Polls n e) (steps ((d, .work n) :: past) n) := by
  have hbound := hd.binds n worker hworker
  have hturns := hbound.turns d.scene.shared
  have hheeds := h.run worker hworker
  have hidle (hstate : ∀ machine r, worker.state ≠ .calling machine r) :
      (∃ e ∈ (d, .work n) :: past, Polls n e) ↔ ∃ e ∈ past, Polls n e := by
    rw [List.exists_mem_cons_iff, or_iff_right]
    intro hpolls
    obtain ⟨machine, r, -, hcalling, -⟩ := polls_work hworker hpolls
    exact hstate machine r hcalling
  unfold Worker.Heeds at hheeds
  generalize worker.step d.scene.shared = next at hturns
  cases hturns with
  | @runs machine r r' signals hstate hstep hpermits =>
      rw [hstate] at hheeds
      obtain ⟨hstop, hpolled, hsteps⟩ := hheeds
      have hhook := hbound.hook machine r hstate
      have hquiet : ¬Polls n (d, .work n) := by
        intro hpolls
        obtain ⟨_, _, answer, hcalling, hpoll⟩ := polls_work hworker hpolls
        cases hstate.symm.trans hcalling
        obtain ⟨ending, r', hended, -⟩ := hhook.step_of_poll hstop hpoll
        cases hstep.symm.trans hended
      refine ⟨hpermits hstop, ?_, ?_⟩
      · rw [List.exists_mem_cons_iff, or_iff_right hquiet]
        exact hpolled
      · rw [steps_work]
        rcases hhook.countdown_of_step hstep with ⟨⟨answer, hpoll⟩, -⟩ | ⟨-, hcountdown⟩
        · exact absurd ⟨rfl, worker, machine, r, answer, hworker, hstate, hpoll⟩ hquiet
        · omega
  | @ends machine r r' ending signals hstate hstep hpermits =>
      rw [hstate] at hheeds
      obtain ⟨hstop, hpolled, -⟩ := hheeds
      refine ⟨hpermits hstop, ?_⟩
      rw [List.exists_mem_cons_iff, not_or]
      by_cases hpolls : Polls n (d, .work n)
      · obtain ⟨_, _, answer, hcalling, hpoll⟩ := polls_work hworker hpolls
        cases hstate.symm.trans hcalling
        obtain ⟨ending', r', hended, hstopped⟩ :=
          (hbound.hook machine r hstate).step_of_poll hstop hpoll
        cases hstep.symm.trans hended
        exact .inl hstopped
      · exact .inr ⟨hpolls, hpolled⟩
  | drops hstate | leaves hstate | reports hstate =>
      rw [hidle (by simp [hstate])]
      rw [hstate] at hheeds
      exact hheeds
  | clears hstate =>
      rw [hidle (by simp [hstate])]
      rw [hstate] at hheeds
      exact hheeds.2
  | rests hstate =>
      rw [hidle (by simp [hstate]), Worker.Heeds, hstate]
      rw [hstate] at hheeds
      exact hheeds

theorem Heeds.moves {s : Scene R W} (h : d.Heeds n past) (hmoves : d.Moves Signals.KeepsStop a s errand)
    (hclear : ∀ t, a = .clearStop t → n < d.scene.workers.length) :
    Heeds n ((d, a) :: past) { d with scene := s, errand } := by
  -- a run that is exposed is not over, so RUN is not at its start
  have hover : (d.errand.IsAhead ∧ ∃ worker, d.scene.workers[n]? = some worker ∧ worker.isExposed) → False := by
    rintro ⟨hahead, worker, hworker, hexposed⟩
    have hresult := hd.result? hahead hworker
    rw [Worker.result?_of_isExposed hexposed] at hresult
    cases hresult
  have hattends {outcome : Option (Option Outcome)} (hattends : d.scene.Attends a outcome s)
      (herrand : ¬errand.IsLaunching) : Heeds n ((d, a) :: past) { d with scene := s, errand } := by
    have hnone : ∀ _ : s.workers.length ≤ n, errand.IsLaunching → d.errand.IsLaunching :=
      fun _ hlaunching => absurd hlaunching herrand
    cases hattends with
    | takes | misses | joins => exact h.keeps rfl id rfl hnone fun _ => id
  cases hmoves with
  | request => exact h.keeps rfl id rfl (fun _ => id) fun _ _ => rfl
  | ask | stop => exact h.keeps rfl id rfl (fun _ => False.elim) fun _ _ => rfl
  | halt _ hwaits | halted _ hwaits | finish _ hwaits | finished _ hwaits | wait _ hwaits =>
      exact hattends hwaits id
  | clear herrand =>
      have hlt := hclear 0 rfl
      refine h.keeps rfl id rfl (fun hle => absurd hle (Nat.not_le.mpr hlt)) fun hkept => ?_
      rw [herrand] at hkept hover
      exact (hover ⟨trivial, hkept.resolve_left id⟩).elim
  | list herrand | announce herrand =>
      refine h.keeps rfl id rfl (fun _ _ => ?_) fun _ => id
      rw [herrand]
      trivial
  | fail => exact h.keeps rfl id rfl (fun _ => False.elim) fun _ => id
  | refuse => exact h.keeps rfl id rfl (fun _ => False.elim) fun _ => id
  | enter herrand =>
      refine h.keeps rfl id rfl (fun _ _ => ?_) fun _ => id
      rw [herrand]
      trivial
  | @launch script before _ herrand hsets =>
      generalize (d.scene.started d.shell.job script).1 = result at hsets ⊢
      have hquiet (hle : d.scene.workers.length ≤ n) := h.ahead hle
      rw [herrand] at hover hquiet
      cases hsets with
      | fails e hpermits => exact h.keeps rfl id rfl (fun _ => False.elim) fun _ => hpermits
      | @succeeds machine signals hnatives hhook hpermits =>
          have hresting : ¬(d.shell.launched d.scene.workers.length (.ok ())).IsLaunching := by
            unfold Shell.launched
            dsimp only
            split <;> exact id
          rcases Nat.lt_trichotomy n d.scene.workers.length with hlt | heq | hgt
          · refine h.keeps rfl ?_ (List.getElem?_append_left hlt) (fun _ h => absurd h hresting)
              fun _ => hpermits
            rw [List.length_append]
            omega
          · obtain ⟨hpolled, hsteps, hstop⟩ := hquiet (Nat.le_of_eq heq.symm)
            refine ⟨fun hle => absurd hle (by simp [heq]), fun worker hget => ?_⟩
            rw [heq, List.getElem?_concat_length] at hget
            cases hget
            rw [polled_cons rfl, steps_cons rfl, hsteps]
            exact Worker.heeds_begin (hpermits (hstop trivial)) hpolled
          · refine h.keeps rfl (fun _ => Nat.le_of_lt hgt) ?_ (fun _ h => absurd h hresting) fun _ => hpermits
            rw [List.getElem?_eq_none (Nat.le_of_lt hgt), List.getElem?_eq_none (by simp; omega)]
  | @work m worker hworker =>
      by_cases hne : m = n
      · subst hne
        have hlt := (List.getElem?_eq_some_iff.mp hworker).1
        refine ⟨fun hle => absurd hle (by simpa using hlt), fun worker' hget => ?_⟩
        rw [List.getElem?_set_self hlt] at hget
        cases hget
        exact h.work hd hworker
      · have ha : (Scene.Action.work m : Scene.Action R W).isWork n = false := by
          simpa [Scene.Action.isWork] using hne
        refine h.keeps ha (fun hle => by simpa using hle) (List.getElem?_set_ne hne) (fun _ => id) ?_
        intro hkept hstop
        -- the worker is over, as the run is the only one that is not, or RUN is at its start
        have hresult : worker.result?.isSome := by
          rcases hkept with hlaunching | ⟨worker', hworker', hexposed⟩
          · exact hd.result? (Errand.isAhead_of_isLaunching hlaunching) hworker
          · rw [Option.isSome_iff_ne_none]
            intro hnone
            exact hne (hd.sole hworker hnone hworker' (Worker.result?_of_isExposed hexposed))
        rw [Worker.step_of_result? hresult]
        exact hstop

omit hd in
theorem Heeds.types (h : d.Heeds n past) (htypes : d.Types storage Signals.KeepsStop d') : d'.Heeds n past := by
  cases htypes with
  | line | stop | run => exact ⟨fun hle => ⟨(h.ahead hle).1, (h.ahead hle).2.1, False.elim⟩, h.run⟩
  | supply => exact ⟨h.ahead, h.run⟩

theorem heeds_nil (hstop : d.scene.shared.signals.stop)
    (hexposed : ∀ worker, d.scene.workers[n]? = some worker → worker.isExposed) : d.Heeds n [] := by
  refine ⟨fun _ => ⟨by simp, rfl, fun _ => hstop⟩, fun worker hworker => ?_⟩
  have hpolled : ¬∃ e ∈ ([] : List (Dialog R W × Scene.Action R W)), Polls n e := by simp
  have hexposed := hexposed worker hworker
  have hbound := hd.binds n worker hworker
  obtain ⟨state, duties⟩ := worker
  cases state with
  | calling machine r => exact ⟨hstop, hpolled, by simpa [steps] using (hbound.countdown machine r rfl).2⟩
  | dropping | clearing => exact ⟨hstop, .inr hpolled⟩
  | idling | reporting | finished | died => cases hexposed

theorem Alone.heeds {past' : List (Dialog R W × Scene.Action R W)}
    (h : d.Alone storage Signals.KeepsStop past' d') (hheeds : d.Heeds n [])
    (hclear : ∀ e ∈ past', ∀ t, e.2 = .clearStop t → n < e.1.scene.workers.length) : d'.Heeds n past' := by
  induction h with
  | refl => exact hheeds
  | types _ htypes ih => exact (ih hclear).types htypes
  | acts h ha hacts ih =>
      rw [List.forall_mem_cons] at hclear
      have hattended := h.isAttended hd
      exact (ih hclear.2).moves hattended (hattended.moves ha hacts) hclear.1

end Dialog

namespace Dialog

variable {R W σ : Type} [NumberSystem R] {storage : Storage (StateM σ)} {d d' : Dialog R W} {n : Nat}
  {a : Scene.Action R W} {errand : Errand} {past : List (Dialog R W × Scene.Action R W)}

/-- A stop is requested that was not requested before: by a thread, or by what is bound for another run than the given one. -/
def Requests (n : Nat) (e : Dialog R W × Scene.Action R W) : Prop :=
  e.1.scene.shared.signals.stop = false ∧ (e.1.scene.after e.2).shared.signals.stop = true ∧
    ((∃ t, e.2 = .requestStop t) ∨ (∃ m, e.2 = .work m ∧ m ≠ n ∧ e.1.scene.Is m Worker.hasMachine) ∨
      ∃ before job script, e.2 = .launch 0 before job script)

variable (hd : d.IsAttended Signals.KeepsStop)
include hd

/-- A run that has withdrawn the request had done so before, or does so now. -/
theorem Moves.cleared {s : Scene R W} (hmoves : d.Moves Signals.KeepsStop a s errand) {worker : Worker R W}
    (hworker : s.workers[n]? = some worker) (hcleared : worker.isExposed = false) :
    (∃ before, d.scene.workers[n]? = some before ∧ before.isExposed = false) ∨
      a = .work n ∧ d.scene.Is n Worker.isClearing ∧ s.shared.signals.stop = false := by
  cases hmoves with
  | request | ask | stop | clear | list | announce | fail | refuse | enter =>
      exact .inl ⟨worker, hworker, hcleared⟩
  | halt _ hattends | halted _ hattends | finish _ hattends | finished _ hattends | wait _ hattends =>
      cases hattends <;> exact .inl ⟨worker, hworker, hcleared⟩
  | @launch script before _ herrand hsets =>
      generalize (d.scene.started d.shell.job script).1 = result at hsets
      cases hsets with
      | fails => exact .inl ⟨worker, hworker, hcleared⟩
      | succeeds =>
          rcases Worker.of_getElem?_concat hworker with hbefore | ⟨-, rfl⟩
          · exact .inl ⟨worker, hbefore, hcleared⟩
          · rw [Worker.isExposed_begin] at hcleared
            cases hcleared
  | @work m before hbefore =>
      rcases Worker.of_getElem?_set hworker with ⟨rfl, rfl⟩ | ⟨-, hother⟩
      · have hturns := (hd.binds m before hbefore).turns d.scene.shared
        generalize before.step d.scene.shared = next at hturns hcleared
        cases hturns with
        | runs | ends | drops => cases hcleared
        | clears hstate =>
            exact .inr ⟨rfl, ⟨before, hbefore, by simp [Worker.isClearing, hstate]⟩, rfl⟩
        | leaves hstate | reports hstate | rests hstate =>
            exact .inl ⟨before, hbefore, by simp [Worker.isExposed, hstate]⟩
      · exact .inl ⟨worker, hother, hcleared⟩

/-- Where no stop was requested, one is requested by a thread, or by what is bound for a run. -/
theorem Moves.requests {s : Scene R W} (hmoves : d.Moves Signals.KeepsStop a s errand)
    (hstop : d.scene.shared.signals.stop = false) (hstop' : s.shared.signals.stop = true) :
    (∃ t, a = .requestStop t) ∨ (∃ m, a = .work m ∧ d.scene.Is m Worker.hasMachine) ∨
      ∃ before job script, a = .launch 0 before job script := by
  have hkept (h : s.shared.signals.stop = d.scene.shared.signals.stop) : False := by
    rw [h, hstop] at hstop'
    cases hstop'
  cases hmoves with
  | request t => exact .inl ⟨t, rfl⟩
  | ask | stop => exact .inl ⟨0, rfl⟩
  | clear => cases hstop'
  | list | announce | fail | refuse | enter => exact (hkept rfl).elim
  | halt _ hattends | halted _ hattends | finish _ hattends | finished _ hattends | wait _ hattends =>
      cases hattends <;> exact (hkept rfl).elim
  | launch => exact .inr (.inr ⟨_, _, _, rfl⟩)
  | @work m worker hworker =>
      refine .inr (.inl ⟨m, rfl, worker, hworker, ?_⟩)
      have hturns := (hd.binds m worker hworker).turns d.scene.shared
      generalize worker.step d.scene.shared = next at hturns hkept hstop'
      cases hturns with
      | runs hstate | ends hstate => simp [Worker.hasMachine, hstate]
      | clears => cases hstop'
      | drops | leaves | reports | rests => exact (hkept rfl).elim

omit hd in
theorem Alone.cleared {start : Dialog R W} (hstart : start.IsAttended Signals.KeepsStop)
    (hnone : start.scene.workers = []) (h : start.Alone storage Signals.KeepsStop past d) {worker : Worker R W}
    (hworker : d.scene.workers[n]? = some worker) (hcleared : worker.isExposed = false) :
    ∃ later e earlier, past = later ++ (e, .work n) :: earlier ∧ e.scene.Is n Worker.isClearing ∧
      (d.scene.shared.signals.stop = true → ∃ e' ∈ later, Requests n e') := by
  induction h generalizing worker with
  | refl =>
      rw [hnone] at hworker
      cases hworker
  | types _ htypes ih => cases htypes <;> exact ih hworker hcleared
  | @acts past d h a ha errand hacts ih =>
      have hattended := h.isAttended hstart
      have hmoves := hattended.moves ha hacts
      rcases hmoves.cleared hattended hworker hcleared with ⟨before, hbefore, hcleared'⟩ | ⟨rfl, hclearing, hstop⟩
      · obtain ⟨later, e, earlier, rfl, hclearing, hrequested⟩ := ih hbefore hcleared'
        refine ⟨(d, a) :: later, e, earlier, rfl, hclearing, fun hstop' => ?_⟩
        cases hstop : d.scene.shared.signals.stop with
        | true =>
            obtain ⟨e', he', hrequests⟩ := hrequested hstop
            exact ⟨e', List.mem_cons_of_mem _ he', hrequests⟩
        | false =>
            refine ⟨(d, a), List.mem_cons_self, hstop, hstop', ?_⟩
            refine (hmoves.requests hattended hstop hstop').imp_right fun hbound => hbound.imp_left ?_
            -- the run itself has no machine any more
            rintro ⟨m, rfl, hmachine⟩
            refine ⟨m, rfl, ?_, hmachine⟩
            rintro rfl
            have hexposed := Worker.isExposed_of_hasMachine (hmachine.of_getElem? hbefore)
            rw [hcleared'] at hexposed
            cases hexposed
      · refine ⟨[], d, past, rfl, hclearing, fun hstop' => ?_⟩
        cases hstop.symm.trans hstop'

end Dialog

theorem Shell.run_takeLine_controller {R W σ : Type} [NumberSystem R] (storage : Storage (StateM σ))
    (shell : Shell R W) {text : String} (hrun : Input.command? text ≠ some .run)
    (hstop : Input.command? text ≠ some .stop) {c : Controller R W}
    (hc : c.isRunning = shell.controller.isRunning) (s : σ) :
    (({ shell with controller := c } : Shell R W).takeLine storage text).run s =
      let taken := (shell.takeLine storage text).run s
      ((taken.1.1, { taken.1.2 with controller := c }), taken.2) := by
  unfold takeLine
  dsimp only
  cases hinput : Input.classify text with
  | empty => rfl
  | numbered number content =>
      dsimp only
      cases shell.session.enterNumbered number content <;> rfl
  | command name args =>
      dsimp only
      split
      · rfl
      · cases hparse : Command.parse name args with
        | error e => rfl
        | ok command =>
            have hcommand : Input.command? text = some command := by
              simp only [Input.command?, hinput, hparse]
              rfl
            have hneither : command ≠ .run ∧ command ≠ .stop :=
              ⟨fun h => hrun (h ▸ hcommand), fun h => hstop (h ▸ hcommand)⟩
            dsimp only
            rw [run_perform hneither.1 hneither.2, run_perform hneither.1 hneither.2]
            dsimp only
            rw [hc]

theorem Worker.step_flagged {R W : Type} [NumberSystem R] {worker : Worker R W} (h : worker.hasMachine = false)
    (shared : Shared W) (stop : Bool) :
    (worker.step shared).1.hasMachine = false ∧
      (worker.step { shared with signals := { shared.signals with stop } } = worker.step shared ∨
        worker.step { shared with signals := { shared.signals with stop } } =
          ((worker.step shared).1, { (worker.step shared).2 with
            signals := { (worker.step shared).2.signals with stop } })) := by
  obtain ⟨state, duties⟩ := worker
  cases state with
  | calling | dropping => cases h
  | clearing => exact ⟨rfl, .inl rfl⟩
  | idling | finished | died => exact ⟨rfl, .inr rfl⟩
  | reporting outcome =>
      unfold step doing
      dsimp only
      cases duties.report outcome shared.signals.world <;> exact ⟨rfl, .inr rfl⟩

/-- RUN has not acted yet. -/
def Errand.IsCalm : Errand → Prop
  | .resting _ | .requesting | .stopping => True
  | _ => False

namespace Dialog

variable {R W σ : Type} [NumberSystem R] {storage : Storage (StateM σ)}
  {permits : Signals W → Signals W → Prop} {d d' : Dialog R W} {a : Scene.Action R W} {errand : Errand}
  {past : List (Dialog R W × Scene.Action R W)}

/-- No RUN is in progress, and no machine exists. -/
structure IsCalm (d : Dialog R W) : Prop where
  errand : d.errand.IsCalm
  machines : ∀ n, ¬d.scene.Is n Worker.hasMachine

def flagged (stop : Bool) (d : Dialog R W) : Dialog R W :=
  { d with scene := d.scene.onSignals fun signals => { signals with stop } }

theorem Types.flagged (h : d.Types storage permits d') (stop : Bool) :
    (d.flagged stop).Types storage permits (d'.flagged stop) := by
  cases h with
  | @line answer hrest hfree text hrun hstop reply shell s t hline =>
      have hline' := Shell.run_takeLine_controller storage d.view hrun hstop
        (c := (d.flagged stop).scene.controller) rfl s
      rw [hline] at hline'
      exact @Types.line R W σ _ storage permits (d.flagged stop) answer hrest hfree text hrun hstop reply
        { shell with controller := (d.flagged stop).scene.controller } s t hline'
  | stop hrest hfree hstop => exact .stop (d := d.flagged stop) hrest hfree hstop
  | run hrest hfree hrun => exact .run (d := d.flagged stop) hrest hfree hrun
  | supply hrest hfree hmachine threadError =>
      exact .supply (d := d.flagged stop) hrest hfree hmachine threadError

theorem Types.isCalm (h : d.Types storage permits d') (hcalm : d.IsCalm) : d'.IsCalm := by
  cases h with
  | line | stop | run => exact ⟨trivial, hcalm.machines⟩
  | supply => exact ⟨hcalm.errand, hcalm.machines⟩

/-- What is done while nothing runs is done alike, and nothing runs afterwards, unless the request is gone. -/
theorem Acts.flagged (h : d.Acts a errand) (ha : d.scene.Allows a) (hcalm : d.IsCalm) (stop : Bool) :
    (d.flagged stop).scene.Allows a ∧ (d.flagged stop).Acts a errand ∧
      ((d.flagged stop).scene.after a = d.scene.after a ∨
        { d.flagged stop with scene := (d.flagged stop).scene.after a, errand } =
            Dialog.flagged stop { d with scene := d.scene.after a, errand } ∧
          IsCalm { d with scene := d.scene.after a, errand } ∧
          (d.scene.after a).workers.length = d.scene.workers.length) := by
  have hwaits {outcome : Option (Option Outcome)} (hwaits : d.scene.Waits 0 a outcome) :
      (d.flagged stop).scene.Allows a ∧ (d.flagged stop).scene.Waits 0 a outcome := by
    cases hwaits with
    | take n => exact ⟨ha, .take n⟩
    | lose n => exact ⟨ha, .lose n⟩
    | miss => exact ⟨ha, .miss⟩
    | join hworker hfinished => exact ⟨ha, .join hworker hfinished⟩
    | leave n => exact ⟨ha, .leave n⟩
  cases h with
  | client herrand =>
      have hquiet := hcalm.errand
      have hfollows : (d.flagged stop).errand = d.errand := rfl
      refine ⟨?_, .client ?_, .inl ?_⟩ <;> generalize d.errand = before at herrand hquiet hfollows
      · cases herrand <;> first | exact hquiet.elim | exact ha
      · rw [hfollows]
        cases herrand with
        | request => exact .request
        | stop => exact .stop
        | _ => exact hquiet.elim
      · cases herrand <;> first | exact hquiet.elim | rfl
  | wait hrest h =>
      obtain ⟨ha', hwaits⟩ := hwaits h
      refine ⟨ha', .wait (d := d.flagged stop) hrest hwaits, .inr ?_⟩
      cases h <;> exact ⟨rfl, ⟨hcalm.errand, hcalm.machines⟩, rfl⟩
  | work n =>
      obtain ⟨worker, hworker, hidling⟩ := ha
      have hafter : d.scene.after (.work n) = _ := Scene.work_of_getElem? hworker
      have hafter' : (d.flagged stop).scene.after (.work n) = _ :=
        Scene.work_of_getElem? (s := (d.flagged stop).scene) hworker
      refine ⟨⟨worker, hworker, hidling⟩, .work (d := d.flagged stop) n, ?_⟩
      have hmachine : worker.hasMachine = false :=
        Bool.eq_false_iff.mpr fun hmachine => hcalm.machines n ⟨worker, hworker, hmachine⟩
      obtain ⟨hgone, hstep⟩ := Worker.step_flagged hmachine d.scene.shared stop
      have hshared : (d.flagged stop).scene.shared =
          { d.scene.shared with signals := { d.scene.shared.signals with stop } } := rfl
      have hworkers : (d.flagged stop).scene.workers = d.scene.workers := rfl
      rw [← hshared] at hstep
      rw [hafter, hafter', hworkers]
      rcases hstep with hstep | hstep <;> rw [hstep]
      · exact .inl rfl
      · refine .inr ⟨rfl, ⟨hcalm.errand, fun m hm => ?_⟩, List.length_set⟩
        rcases (Scene.is_work (m := m) hworker).mp (hafter ▸ hm) with ⟨-, hhas⟩ | ⟨-, hhas⟩
        · rw [hgone] at hhas
          cases hhas
        · exact hcalm.machines m hhas
  | request ht => exact ⟨ha, .request (d := d.flagged stop) ht, .inl rfl⟩

/-- Where nothing runs, things may go just as if a stop were requested, or were not, and RUN makes no difference any more. -/
theorem Alone.flagged {start : Dialog R W} (h : start.Alone storage permits past d) (hcalm : start.IsCalm)
    (stop : Bool) :
    ∃ past' d', (start.flagged stop).Alone storage permits past' d' ∧
      past'.map Prod.snd = past.map Prod.snd ∧
      (d' = d ∨ d' = d.flagged stop ∧ d.IsCalm ∧ d.scene.workers.length = start.scene.workers.length) := by
  induction h with
  | refl => exact ⟨[], _, .refl, rfl, .inr ⟨rfl, hcalm, rfl⟩⟩
  | @types past d₁ d₂ h htypes ih =>
      obtain ⟨past', d', hleads, hsame, rfl | ⟨rfl, hquiet, hlength⟩⟩ := ih
      · exact ⟨past', d₂, hleads.types htypes, hsame, .inl rfl⟩
      · refine ⟨past', _, hleads.types (htypes.flagged stop), hsame, .inr ⟨rfl, htypes.isCalm hquiet, ?_⟩⟩
        cases htypes <;> exact hlength
  | @acts past d₁ h a ha errand hacts ih =>
      obtain ⟨past', d', hleads, hsame, rfl | ⟨rfl, hquiet, hlength⟩⟩ := ih
      · exact ⟨_, _, hleads.acts ha hacts, by simp [hsame], .inl rfl⟩
      · obtain ⟨ha', hacts', hafter⟩ := hacts.flagged ha hquiet stop
        refine ⟨_, _, hleads.acts ha' hacts', by simp [hsame], ?_⟩
        rcases hafter with hafter | ⟨hafter, hquiet', hlength'⟩
        · exact .inl (by rw [hafter]; rfl)
        · exact .inr ⟨hafter, hquiet', hlength'.trans hlength⟩

end Dialog

/-- Let one client have the controller for itself, while other threads request that its runs be stopped, and let natives not
withdraw a request. Where a stop is requested, a run that is still to withdraw it, or that RUN is to start without withdrawing
it, ends as stopped, unless it does not poll any more; and its machine makes less steps than there are from poll to poll. Where
nothing runs, things go on after a request as they would without it, and once RUN has acted they are the same. When a run has
withdrawn the request, no stop is requested but by a later request. -/
theorem stop_requests {R W σ : Type} [NumberSystem R] (storage : Storage (StateM σ)) (config : Config)
    (sinks : Sinks W) (world : W) (more : List (NativeSet R (Signals W)))
    (hmore : ∀ set ∈ more, set.Respects Signals.KeepsStop)
    (past : List (Dialog R W × Scene.Action R W)) (d : Dialog R W)
    (h : (Dialog.new config sinks world more).Alone storage Signals.KeepsStop past d) :
    (∀ n past' d', d.scene.shared.signals.stop = true →
      (∀ worker, d.scene.workers[n]? = some worker → worker.isExposed) →
      d.Alone storage Signals.KeepsStop past' d' →
      (∀ e ∈ past', ∀ t, e.2 = .clearStop t → n < e.1.scene.workers.length) →
      ∀ worker, d'.scene.workers[n]? = some worker →
        (∀ outcome, worker.result? = some outcome →
          outcome = .stopped ∨ ∀ e ∈ past', ¬Dialog.Polls n e) ∧
        ∀ machine r, worker.state = .calling machine r →
          (∀ e ∈ past', ¬Dialog.Polls n e) ∧ Dialog.steps past' n < machine.period) ∧
    (d.IsCalm → ∀ stop stop' past' d', (d.flagged stop).Alone storage Signals.KeepsStop past' d' →
      ∃ past'' d'', (d.flagged stop').Alone storage Signals.KeepsStop past'' d'' ∧
        past''.map Prod.snd = past'.map Prod.snd ∧
        (d'' = d' ∨ d'' = d'.flagged stop' ∧ d'.IsCalm ∧
          d'.scene.workers.length = d.scene.workers.length)) ∧
    ∀ n worker, d.scene.workers[n]? = some worker → worker.isExposed = false →
      ∃ later e earlier, past = later ++ (e, .work n) :: earlier ∧ e.scene.Is n Worker.isClearing ∧
        (d.scene.shared.signals.stop = true → ∃ e' ∈ later, Dialog.Requests n e') := by
  have hnew : (Dialog.new config sinks world more).IsAttended Signals.KeepsStop :=
    Dialog.isAttended_new (NativeSet.keepsStop_standard _) hmore
  have hattended := h.isAttended hnew
  refine ⟨?_, ?_, fun n worker => h.cleared hnew rfl⟩
  · intro n past' d' hstop hexposed hleads hclear worker hworker
    have hheeds := (hleads.heeds hattended (Dialog.heeds_nil hattended hstop hexposed) hclear).run worker hworker
    have hpositive := ((hleads.isAttended hattended).binds n worker hworker).countdown
    refine ⟨fun outcome hresult => ?_, fun machine r hstate => ?_⟩
    · simpa using hheeds.of_result? hresult
    · rw [Worker.Heeds, hstate] at hheeds
      obtain ⟨-, hpolled, hsteps⟩ := hheeds
      have hpos := (hpositive machine r hstate).1
      exact ⟨by simpa using hpolled, by omega⟩
  · intro hcalm stop stop' past' d' hleads
    have hcalm' : (d.flagged stop).IsCalm := ⟨hcalm.errand, hcalm.machines⟩
    exact hleads.flagged hcalm' stop'

namespace Dialog

def endlessAlone : Dialog Float Unit where
  shell := { (new {} .silent () [] : Dialog Float Unit).shell with session := (Shell.typing endlessLine).session }
  scene := .new ()
  errand := .resting (some (.ok "", none))

theorem exists_stopped : ∃ past d,
    (new {} .silent () [] : Dialog Float Unit).Alone FileTree.timeless Signals.KeepsStop past d ∧
      d.scene.Is 0 Worker.hasMachine ∧ d.scene.shared.signals.stop = true ∧
      ∃ past' d', d.Alone FileTree.timeless Signals.KeepsStop past' d' ∧
        (d'.scene.workers[0]?.bind Worker.result?) = some .stopped := by
  have hreply : (((new {} .silent () [] : Dialog Float Unit).view.takeLine FileTree.timeless
      endlessLine.text).run (.startingAt [])).1.1.reply? = some (.ok "") := by
    decide
  have htyped : (new {} .silent () [] : Dialog Float Unit).Alone FileTree.timeless Signals.KeepsStop []
      endlessAlone :=
    .types .refl (.line rfl rfl (by decide) (by decide) (Turn.run_eq hreply))
  have hrun : Input.command? "RUN" = some .run := by decide
  have hover : (endlessAlone.started?.map fun run => (run.1.hasMachine,
      (run.1.advance { run.2 with signals := run.2.signals.requestStop } 9).1.result?)) =
        some (true, some .stopped) := by
    decide +kernel
  obtain ⟨⟨worker, shared⟩, hstarted, hresult⟩ := Option.map_eq_some_iff.mp hover
  obtain ⟨hmachine, hstopped⟩ := Prod.mk.inj hresult
  obtain ⟨past, hlaunched⟩ := htyped.exists_started rfl hrun (fun _ => rfl) rfl rfl rfl rfl hstarted
  have hrequested := hlaunched.acts (a := .requestStop 1) rfl (.request (by decide))
  obtain ⟨past', d', hadvanced, -, -, hworker⟩ := hrequested.exists_advanced 9 (n := 0) (fun _ => rfl) rfl
  refine ⟨_, _, hrequested, ⟨worker, rfl, hmachine⟩, rfl, past', d', hadvanced, ?_⟩
  rw [hworker]
  exact hstopped

end Dialog

/-- The program that never ends ends as stopped after such a request, unless it does not poll any more. -/
theorem stop_requests_endless : ∃ past d,
    (Dialog.new {} .silent () [] : Dialog Float Unit).Alone FileTree.timeless Signals.KeepsStop past d ∧
      d.scene.Is 0 Worker.hasMachine ∧ d.scene.shared.signals.stop = true ∧
      (∃ past' d', d.Alone FileTree.timeless Signals.KeepsStop past' d' ∧
        (d'.scene.workers[0]?.bind Worker.result?) = some .stopped) ∧
      ∀ past' d', d.Alone FileTree.timeless Signals.KeepsStop past' d' →
        (∀ e ∈ past', ∀ t, e.2 = .clearStop t → 0 < e.1.scene.workers.length) →
        ∀ worker outcome, d'.scene.workers[0]? = some worker → worker.result? = some outcome →
          outcome = .stopped ∨ ∀ e ∈ past', ¬Dialog.Polls 0 e := by
  obtain ⟨past, d, hleads, hmachine, hstop, hstopped⟩ := Dialog.exists_stopped
  refine ⟨past, d, hleads, hmachine, hstop, hstopped, ?_⟩
  intro past' d' hleads' hclear worker outcome hworker
  have hkept := (stop_requests FileTree.timeless {} .silent () [] (by simp) past d hleads).1
  refine (hkept 0 past' d' hstop (fun worker hworker => ?_) hleads' hclear worker hworker).1 outcome
  exact Worker.isExposed_of_hasMachine (hmachine.of_getElem? hworker)

end LineBasic
