import LineBasic.Proofs.SoleClient

namespace LineBasic

/-- What sinks are told of runs. -/
inductive Notice where
  | status (running : Bool)
  | failure (text : String)
deriving DecidableEq, Repr

def Notice.status? : Notice → Option Bool
  | .status running => some running
  | .failure _ => none

/-- What sinks are told can be read off the world, and is not changed by output and random numbers. -/
structure Sinks.Logs {W : Type} (sinks : Sinks W) (log : W → List Notice) : Prop where
  status : ∀ running w, log (sinks.status running w) = log w ++ [.status running]
  fail : ∀ text w, log (sinks.fail text w) = log w ++ [.failure text]
  write : ∀ text w, log (sinks.write text w) = log w
  random : ∀ w, log (sinks.random w).2 = log w

/-- No sink is told anything of runs. -/
def Signals.KeepsLog {W : Type} (log : W → List Notice) (s s' : Signals W) : Prop :=
  log s.world = log s'.world

instance {W : Type} (log : W → List Notice) : IsPreorder (Signals W) (Signals.KeepsLog log) where
  refl _ := rfl
  trans _ _ _ h h' := Eq.trans h h'

theorem NativeSet.keepsLog_standard {R W : Type} [NumberSystem R] {sinks : Sinks W} {log : W → List Notice}
    (h : sinks.Logs log) :
    (standard (R := R) sinks.toConsole.onSignals).Respects (Signals.KeepsLog log) :=
  respects_standard (fun text signals => (h.write text signals.world).symm)
    fun signals => (h.random signals.world).symm

namespace Shell

variable {R W : Type}

def failures (shell : Shell R W) : Outcome → List Notice
  | .failed e => if shell.config.backgroundRun then [.failure e.message] else []
  | _ => []

def notices (shell : Shell R W) : Option Outcome → List Notice
  | none => [.status true]
  | some outcome => .status true :: (shell.failures outcome ++ [.status false])

theorem log_reportEnd [NumberSystem R] {shell : Shell R W} {log : W → List Notice} (h : shell.sinks.Logs log)
    (outcome : Outcome) (w : W) :
    log (shell.reportEnd outcome w) = log w ++ (shell.failures outcome ++ [.status false]) := by
  unfold reportEnd failures
  rw [h.status, ← List.append_assoc]
  congr 1
  generalize shell.config.backgroundRun = background
  cases background <;> cases outcome <;> first | exact (List.append_nil _).symm | exact h.fail _ w

end Shell

theorem Worker.result?_begin {R W : Type} (machine : Machine R (Signals W)) (duties : Worker.Duties W) :
    (begin machine duties).result? = none := by
  unfold begin
  split <;> rfl

def Scene.outcome? {R W : Type} (s : Scene R W) (n : Nat) : Option Outcome :=
  s.workers[n]?.bind Worker.result?

/-- What is told of a RUN whose program was compiled. -/
def Scene.notices {R W : Type} (s : Scene R W) (shell : Shell R W) : Except Error Nat → List Notice
  | .error _ => [.status true, .status false]
  | .ok n => shell.notices (s.outcome? n)

theorem Scene.flatMap_notices {R W : Type} {s s' : Scene R W} {shell : Shell R W} {l : List (Except Error Nat)}
    (h : ∀ n, .ok n ∈ l → s'.outcome? n = s.outcome? n) :
    l.flatMap (s'.notices shell) = l.flatMap (s.notices shell) := by
  refine List.flatMap_congr fun run hrun => ?_
  cases run with
  | error e => rfl
  | ok n => exact congrArg shell.notices (h n hrun)

theorem Scene.outcome?_set {R W : Type} {s : Scene R W} {n : Nat} {worker worker' : Worker R W} {shared : Shared W}
    (hworker : s.workers[n]? = some worker) (m : Nat) :
    outcome? { s with shared, workers := s.workers.set n worker' } m =
      if m = n then worker'.result? else s.outcome? m := by
  unfold outcome?
  split
  · rename_i heq
    rw [heq, List.getElem?_set_self (List.getElem?_eq_some_iff.mp hworker).1]
    rfl
  · rename_i hne
    rw [List.getElem?_set_ne (Ne.symm hne)]

/-- What was told of a run that was not started, while it is on its way. -/
def Errand.opening : Errand → List Notice
  | .starting _ | .failing _ => [.status true]
  | _ => []

namespace Dialog

variable {R W σ : Type} [NumberSystem R]

/-- The action with which a RUN starts its run, or tells that it could not. -/
def attempt? (e : Dialog R W × Scene.Action R W) : Option (Except Error Nat) :=
  match e.1.errand, e.2 with
  | .starting script, .launch _ _ _ _ =>
    match (e.1.scene.started e.1.shell.job script).1 with
    | .ok () => some (.ok e.1.scene.workers.length)
    | .error _ => none
  | .failing e, .onWorld _ _ => some (.error e)
  | _, _ => none

/-- What every RUN has come to whose program was compiled, the first one first: a run, or the reason why there is none. -/
def runs (past : List (Dialog R W × Scene.Action R W)) : List (Except Error Nat) :=
  past.reverse.filterMap attempt?

/-- What is told is what is to be told of the RUNs so far. -/
structure Tells (log : W → List Notice) (past : List (Dialog R W × Scene.Action R W)) (d : Dialog R W) :
    Prop where
  sinks : d.shell.sinks.Logs log
  log : log d.scene.shared.signals.world = (runs past).flatMap (d.scene.notices d.shell) ++ d.errand.opening
  started : (runs past).filterMap Except.toOption = List.range d.scene.workers.length
  last : ∀ n < d.scene.workers.length, d.scene.outcome? n = none → (runs past).getLast? = some (.ok n)

variable {storage : Storage (StateM σ)} {log : W → List Notice} {d d' : Dialog R W} {n : Nat}
  {a : Scene.Action R W} {errand : Errand} {past : List (Dialog R W × Scene.Action R W)}

theorem Tells.lt_length (h : d.Tells log past) (hn : .ok n ∈ runs past) : n < d.scene.workers.length := by
  have hmem : n ∈ (runs past).filterMap Except.toOption := List.mem_filterMap.mpr ⟨_, hn, rfl⟩
  rw [h.started] at hmem
  exact List.mem_range.mp hmem

theorem runs_cons (e : Dialog R W × Scene.Action R W) : runs (e :: past) = runs past ++ (attempt? e).toList := by
  unfold runs
  rw [List.reverse_cons, List.filterMap_append]
  cases h : attempt? e <;> simp [h]

theorem attempt?_eq_none (hlaunch : ∀ t before job script, a ≠ .launch t before job script)
    (hworld : ∀ t f, a ≠ .onWorld t f) : attempt? (d, a) = none := by
  unfold attempt?
  split
  · rename_i h
    exact absurd h (hlaunch _ _ _ _)
  · rename_i h
    exact absurd h (hworld _ _)
  · rfl

/-- Between two starts, no more is told than that the next one comes. -/
theorem Tells.tell (h : d.Tells log past) {s : Scene R W} (hattempt : attempt? (d, a) = none)
    (hlog : ∀ told, log d.scene.shared.signals.world = told ++ d.errand.opening →
      log s.shared.signals.world = told ++ errand.opening)
    (hlength : s.workers.length = d.scene.workers.length)
    (houtcome : ∀ n, s.outcome? n = d.scene.outcome? n) :
    Tells log ((d, a) :: past) { d with scene := s, errand } := by
  have hruns : runs ((d, a) :: past) = runs past := by rw [runs_cons, hattempt, Option.toList_none, List.append_nil]
  have hnotices : (runs past).flatMap (s.notices d.shell) = (runs past).flatMap (d.scene.notices d.shell) :=
    Scene.flatMap_notices fun n _ => houtcome n
  refine ⟨h.sinks, ?_, ?_, fun n hn hnone => ?_⟩
  · rw [hruns]
    exact hnotices ▸ hlog _ h.log
  · rw [hruns, hlength]
    exact h.started
  · rw [hruns]
    exact h.last n (hlength ▸ hn) ((houtcome n).symm.trans hnone)

theorem Tells.keeps (h : d.Tells log past) {s : Scene R W} (hattempt : attempt? (d, a) = none)
    (hlog : log s.shared.signals.world = log d.scene.shared.signals.world)
    (hlength : s.workers.length = d.scene.workers.length)
    (houtcome : ∀ n, s.outcome? n = d.scene.outcome? n) (hopening : errand.opening = d.errand.opening) :
    Tells log ((d, a) :: past) { d with scene := s, errand } := by
  refine h.tell hattempt (fun told htold => ?_) hlength houtcome
  rw [hlog, hopening]
  exact htold

variable (hd : d.IsAttended (Signals.KeepsLog log))
include hd

omit hd in
theorem Tells.ne_of_mem (h : d.Tells log past) {before : List (Except Error Nat)}
    (hlast : runs past = before ++ [.ok n]) {m : Nat} (hm : .ok m ∈ before) : m ≠ n := by
  have hnodup : ((runs past).filterMap Except.toOption).Nodup := by
    rw [h.started]
    exact List.nodup_range
  rw [hlast, List.filterMap_append] at hnodup
  rintro rfl
  refine (List.nodup_append.mp hnodup).2.2 m (List.mem_filterMap.mpr ⟨_, hm, rfl⟩) m ?_ rfl
  exact List.mem_singleton_self m

omit [NumberSystem R] in
theorem IsAttended.outcome?_ne_none (hahead : d.errand.IsAhead) (hn : n < d.scene.workers.length) :
    d.scene.outcome? n ≠ none := by
  have hworker := List.getElem?_eq_getElem hn
  rw [Scene.outcome?, hworker]
  exact Option.isSome_iff_ne_none.mp (hd.result? hahead hworker)

omit [NumberSystem R] in
theorem IsAttended.opening_eq_nil (hn : n < d.scene.workers.length) (hnone : d.scene.outcome? n = none) :
    d.errand.opening = [] := by
  have hahead : ¬d.errand.IsAhead := fun hahead => hd.outcome?_ne_none hahead hn hnone
  cases herrand : d.errand <;> first | rfl | exact absurd (by rw [herrand]; trivial) hahead

/-- A run that was started is told of, and is not over. -/
theorem Tells.launched (h : d.Tells log past) {script : Script} (herrand : d.errand = .starting script)
    (hstarted : (d.scene.started d.shell.job script).1 = .ok ()) {t : Nat} {before : Option Nat}
    {job : Controller.Job R W} {script' : Script} {s : Scene R W} {worker : Worker R W}
    (hlog : log s.shared.signals.world = log d.scene.shared.signals.world)
    (hworkers : s.workers = d.scene.workers ++ [worker]) (hresult : worker.result? = none) :
    Tells log ((d, .launch t before job script') :: past)
      { d with scene := s, errand := d.shell.launched d.scene.workers.length (.ok ()) } := by
  have hruns : runs ((d, .launch t before job script') :: past) = runs past ++ [.ok d.scene.workers.length] := by
    simp [runs_cons, attempt?, herrand, hstarted]
  have hopening : (d.shell.launched d.scene.workers.length (.ok ())).opening = [] := by
    unfold Shell.launched
    dsimp only
    split <;> rfl
  have hlength : s.workers.length = d.scene.workers.length + 1 := by rw [hworkers, List.length_append]; rfl
  have hold (n : Nat) (hn : n < d.scene.workers.length) : s.outcome? n = d.scene.outcome? n := by
    rw [Scene.outcome?, hworkers, List.getElem?_append_left hn]
    rfl
  have hnew : s.outcome? d.scene.workers.length = none := by
    rw [Scene.outcome?, hworkers, List.getElem?_concat_length]
    exact hresult
  refine ⟨h.sinks, ?_, ?_, fun n hn hnone => ?_⟩
  · have htold := h.log
    rw [herrand] at htold
    have hnotices : (runs past).flatMap (s.notices d.shell) = (runs past).flatMap (d.scene.notices d.shell) :=
      Scene.flatMap_notices fun n hn => hold n (h.lt_length hn)
    rw [hruns, hopening, hlog, htold]
    simp [hnotices, Scene.notices, hnew, Shell.notices, Errand.opening]
  · rw [hruns, hlength, List.filterMap_append, h.started, List.range_succ]
    rfl
  · rcases Nat.lt_or_eq_of_le (Nat.le_of_lt_succ (hlength ▸ hn)) with hlt | rfl
    · exact absurd ((hold n hlt).symm.trans hnone) (hd.outcome?_ne_none (herrand ▸ trivial) hlt)
    · rw [hruns, List.getLast?_concat]

/-- A run that was not started is told to be over. -/
theorem Tells.failed (h : d.Tells log past) {e : Error} (herrand : d.errand = .failing e) {t : Nat} {f : W → W} :
    Tells log ((d, .onWorld t f) :: past) { d with
      scene := d.scene.onSignals (Signals.onWorld (d.shell.sinks.status false))
      errand := .resting (some (.error (.command e), none)) } := by
  have hruns : runs ((d, .onWorld t f) :: past) = runs past ++ [.error e] := by
    simp [runs_cons, attempt?, herrand]
  refine ⟨h.sinks, ?_, ?_, fun n hn hnone => ?_⟩
  · have htold := h.log
    rw [herrand] at htold
    have hnotices : (runs past).flatMap ((d.scene.onSignals (Signals.onWorld (d.shell.sinks.status false))).notices
        d.shell) = (runs past).flatMap (d.scene.notices d.shell) := Scene.flatMap_notices fun _ _ => rfl
    rw [hruns, List.flatMap_append, hnotices]
    refine (h.sinks.status false _).trans ?_
    rw [htold]
    simp [Scene.notices, Errand.opening]
  · rw [hruns, List.filterMap_append, h.started]
    exact List.append_nil _
  · exact absurd hnone (hd.outcome?_ne_none (herrand ▸ trivial) hn)

/-- The report of a run is that of the last one. -/
theorem Tells.reported (h : d.Tells log past) {worker : Worker R W} (hworker : d.scene.workers[n]? = some worker)
    {outcome : Outcome} (hstate : worker.state = .reporting outcome) {s : Scene R W}
    (hlog : log s.shared.signals.world =
      log d.scene.shared.signals.world ++ (d.shell.failures outcome ++ [.status false]))
    (hlength : s.workers.length = d.scene.workers.length)
    (houtcome : ∀ m, s.outcome? m = if m = n then some outcome else d.scene.outcome? m) :
    Tells log ((d, .work n) :: past) { d with scene := s } := by
  have hruns : runs ((d, .work n) :: past) = runs past := by
    rw [runs_cons, attempt?_eq_none (by simp) (by simp), Option.toList_none, List.append_nil]
  have hlt := (List.getElem?_eq_some_iff.mp hworker).1
  have hnone : d.scene.outcome? n = none := by simp [Scene.outcome?, hworker, Worker.result?, hstate]
  have hopening := hd.opening_eq_nil hlt hnone
  obtain ⟨before, hlast⟩ := List.getLast?_eq_some_iff.mp (h.last n hlt hnone)
  have hnotices : before.flatMap (s.notices d.shell) = before.flatMap (d.scene.notices d.shell) :=
    Scene.flatMap_notices fun m hm => by rw [houtcome, if_neg (h.ne_of_mem hlast hm)]
  refine ⟨h.sinks, ?_, ?_, fun m hm hresult => ?_⟩
  · have htold := h.log
    rw [hopening, List.append_nil, hlast, List.flatMap_append] at htold
    rw [hruns, hopening, List.append_nil, hlast, List.flatMap_append, hnotices, hlog, htold]
    simp [Scene.notices, houtcome, hnone, Shell.notices]
  · rw [hruns, hlength]
    exact h.started
  · rw [houtcome] at hresult
    split at hresult
    · cases hresult
    · rw [hruns]
      exact h.last m (hlength ▸ hm) hresult

theorem Tells.moves {s : Scene R W} (h : d.Tells log past) (hmoves : d.Moves (Signals.KeepsLog log) a s errand) :
    Tells log ((d, a) :: past) { d with scene := s, errand } := by
  have hattends {outcome : Option (Option Outcome)} (hattends : d.scene.Attends a outcome s)
      (hopening : errand.opening = d.errand.opening) :
      Tells log ((d, a) :: past) { d with scene := s, errand } := by
    cases hattends <;> exact h.keeps (attempt?_eq_none (by simp) (by simp)) rfl rfl (fun _ => rfl) hopening
  cases hmoves with
  | request => exact h.keeps (attempt?_eq_none (by simp) (by simp)) rfl rfl (fun _ => rfl) rfl
  | ask herrand | stop herrand =>
      exact h.keeps (attempt?_eq_none (by simp) (by simp)) rfl rfl (fun _ => rfl) (by simp [herrand, Errand.opening])
  | halt herrand hwaits | halted herrand hwaits | finish herrand hwaits | finished herrand hwaits
  | wait herrand hwaits => exact hattends hwaits (by simp [herrand, Errand.opening])
  | clear herrand =>
      refine h.keeps (attempt?_eq_none (by simp) (by simp)) rfl rfl (fun _ => rfl) ?_
      rw [herrand]
      unfold Shell.compiled
      split
      · rfl
      · split <;> rfl
  | list herrand =>
      refine h.keeps (by simp [attempt?, herrand]) ?_ rfl (fun _ => rfl) (by simp [herrand, Errand.opening])
      exact h.sinks.write _ _
  | announce herrand =>
      refine h.tell (by simp [attempt?, herrand]) (fun told htold => ?_) rfl fun _ => rfl
      rw [herrand] at htold
      refine (h.sinks.status true _).trans ?_
      simp [htold, Errand.opening]
  | refuse herrand | enter herrand =>
      exact h.keeps (attempt?_eq_none (by simp) (by simp)) rfl rfl (fun _ => rfl) (by simp [herrand, Errand.opening])
  | @launch script before _ herrand hsets =>
      generalize hresult : (d.scene.started d.shell.job script).1 = result at hsets ⊢
      cases hsets with
      | fails e hpermits =>
          have hnone : attempt? (d, .launch 0 before d.shell.job script) = none := by
            simp [attempt?, herrand, hresult]
          exact h.keeps hnone hpermits.symm rfl (fun _ => rfl) (by simp [herrand, Errand.opening, Shell.launched])
      | succeeds hnatives hhook hpermits =>
          exact h.launched hd herrand hresult hpermits.symm rfl (Worker.result?_begin _ _)
  | @fail e herrand => exact h.failed hd herrand
  | @work n worker hworker =>
      have hturns := (hd.binds n worker hworker).turns d.scene.shared
      have hnone : attempt? (d, .work n) = none := attempt?_eq_none (by simp) (by simp)
      generalize worker.step d.scene.shared = next at hturns
      have hkeeps (hlog : log next.2.signals.world = log d.scene.shared.signals.world)
          (hresult : next.1.result? = worker.result?) : Tells log ((d, .work n) :: past) { d with
            scene := { d.scene with shared := next.2, workers := d.scene.workers.set n next.1 } } := by
        refine h.keeps hnone hlog List.length_set (fun m => ?_) rfl
        rw [Scene.outcome?_set hworker]
        split
        · rename_i heq
          rw [heq, hresult, Scene.outcome?, hworker]
          rfl
        · rfl
      cases hturns with
      | runs hstate _ hpermits | ends hstate _ hpermits =>
          exact hkeeps hpermits.symm (by simp [Worker.result?, hstate])
      | drops hstate | clears hstate | leaves hstate => exact hkeeps rfl (by simp [Worker.result?, hstate])
      | rests => exact hkeeps rfl rfl
      | reports hstate =>
          refine h.reported hd hworker hstate (Shell.log_reportEnd h.sinks _ _) List.length_set fun m => ?_
          rw [Scene.outcome?_set hworker]
          rfl

omit hd in
theorem Tells.types (h : d.Tells log past) (htypes : d.Types storage (Signals.KeepsLog log) d') :
    d'.Tells log past := by
  have hlog := h.log
  cases htypes with
  | line hrest | stop hrest | run hrest =>
      rw [hrest] at hlog
      exact ⟨h.sinks, hlog, h.started, h.last⟩
  | supply => exact ⟨h.sinks, hlog, h.started, h.last⟩

theorem Alone.tells {past' : List (Dialog R W × Scene.Action R W)} (h : d.Alone storage (Signals.KeepsLog log) past' d')
    (hd' : d.Tells log []) : d'.Tells log past' := by
  induction h with
  | refl => exact hd'
  | types _ htypes ih => exact ih.types htypes
  | acts h ha hacts ih =>
      have hattended := h.isAttended hd
      exact ih.moves hattended (hattended.moves ha hacts)

end Dialog

/-- RUN has compiled its program, and has neither started it nor told that it could not. -/
def Errand.underway : Errand → Nat
  | .listing _ | .announcing _ | .starting _ | .failing _ => 1
  | _ => 0

namespace Dialog

variable {R W σ : Type} [NumberSystem R]

def compiles (e : Dialog R W × Scene.Action R W) : Bool :=
  match e.1.errand, e.2 with
  | .clearing, .clearStop _ =>
    (compile R e.1.shell.registry e.1.shell.session.flags e.1.shell.session.listing.source).toOption.isSome
  | _, _ => false

variable {storage : Storage (StateM σ)} {permits : Signals W → Signals W → Prop} {d d' : Dialog R W} {n : Nat}
  {a : Scene.Action R W} {errand : Errand} {past : List (Dialog R W × Scene.Action R W)}

theorem Moves.counts {s : Scene R W} (hmoves : d.Moves permits a s errand) :
    [(d, a)].countP compiles + d.errand.underway = (attempt? (d, a)).toList.length + errand.underway := by
  have hattends {outcome : Option (Option Outcome)} (hattends : d.scene.Attends a outcome s)
      (h : d.errand.underway = errand.underway) :
      [(d, a)].countP compiles + d.errand.underway = (attempt? (d, a)).toList.length + errand.underway := by
    cases hattends <;> simp [compiles, attempt?, h]
  cases hmoves with
  | request => simp [compiles, attempt?]
  | ask herrand | stop herrand | refuse herrand | enter herrand | list herrand | announce herrand | fail herrand =>
      simp [compiles, attempt?, herrand, Errand.underway]
  | halt herrand hwaits | halted herrand hwaits | finish herrand hwaits | finished herrand hwaits
  | wait herrand hwaits => exact hattends hwaits (by simp [herrand, Errand.underway])
  | clear herrand =>
      simp only [compiles, attempt?, herrand, List.countP_singleton]
      unfold Shell.compiled
      cases compile R d.shell.registry d.shell.session.flags d.shell.session.listing.source with
      | error e => rfl
      | ok script => cases d.shell.session.verbose <;> rfl
  | @launch script before _ herrand hsets =>
      cases hresult : (d.scene.started d.shell.job script).1 with
      | error e => simp [compiles, attempt?, herrand, hresult, Shell.launched, Errand.underway]
      | ok =>
          cases hbackground : d.shell.config.backgroundRun <;>
            simp [compiles, attempt?, herrand, hresult, Shell.launched, hbackground, Errand.underway]
  | work hworker => simp [compiles, attempt?]

theorem Alone.count_compiles [IsPreorder (Signals W) permits] {start : Dialog R W}
    (hstart : start.IsAttended permits) (hrest : start.errand.underway = 0)
    (h : start.Alone storage permits past d) : past.countP compiles = (runs past).length + d.errand.underway := by
  induction h with
  | refl =>
      rw [hrest]
      rfl
  | types _ htypes ih =>
      cases htypes with
      | line hrest | stop hrest | run hrest =>
          rw [hrest] at ih
          exact ih
      | supply => exact ih
  | @acts past d h a ha errand hacts ih =>
      have hcounts := ((h.isAttended hstart).moves ha hacts).counts
      rw [runs_cons, List.length_append]
      rw [List.countP_singleton] at hcounts
      rw [List.countP_cons]
      dsimp only
      omega

/-- On the way to a dialog, the client was answered with what a run has come to. -/
def Answered (storage : Storage (StateM σ)) (permits : Signals W → Signals W → Prop) (start : Dialog R W)
    (past : List (Dialog R W × Scene.Action R W)) (d : Dialog R W) (n : Nat) (outcome : Outcome) : Prop :=
  ∃ before d₀ later, past = later ++ before ∧ start.Alone storage permits before d₀ ∧
    d₀.errand = .resting (some (Shell.replyOf outcome, some n)) ∧ d₀.Alone storage permits later d

theorem Moves.outcome? {s : Scene R W} (hmoves : d.Moves permits a s errand) {outcome : Outcome}
    (h : d.scene.outcome? n = some outcome) : s.outcome? n = some outcome := by
  cases hmoves with
  | request | ask | stop | clear | list | announce | fail | refuse | enter => exact h
  | halt _ hattends | halted _ hattends | finish _ hattends | finished _ hattends | wait _ hattends =>
      cases hattends <;> exact h
  | @launch script before _ herrand hsets =>
      generalize (d.scene.started d.shell.job script).1 = result at hsets
      cases hsets with
      | fails => exact h
      | succeeds =>
          have hlt : n < d.scene.workers.length := by
            by_contra hge
            rw [Scene.outcome?, List.getElem?_eq_none (Nat.le_of_not_lt hge)] at h
            cases h
          rw [Scene.outcome?, List.getElem?_append_left hlt]
          exact h
  | @work m worker hworker =>
      rw [Scene.outcome?_set hworker]
      split
      · rename_i heq
        rw [heq, Scene.outcome?, hworker] at h
        have hresult : worker.result? = some outcome := h
        rw [Worker.step_of_result? (Option.isSome_iff_exists.mpr ⟨_, hresult⟩)]
        exact hresult
      · exact h

/-- While runs are in the foreground, the client waits for every new run, and stops waiting when it is over. -/
theorem Moves.finishing {s : Scene R W} (hmoves : d.Moves permits a s errand)
    (hblocking : d.shell.config.backgroundRun = false) (hn : n < s.workers.length) :
    errand = .finishing n ∨ n < d.scene.workers.length ∧ d.errand ≠ .finishing n ∨
      n < d.scene.workers.length ∧ ∃ outcome, s.outcome? n = some outcome ∧
        errand = .resting (some (Shell.replyOf outcome, some n)) := by
  have hlength {outcome : Option (Option Outcome)} (hattends : d.scene.Attends a outcome s) :
      n < d.scene.workers.length := by
    cases hattends <;> exact hn
  cases hmoves with
  | request =>
      by_cases herrand : d.errand = .finishing n
      · exact .inl herrand
      · exact .inr (.inl ⟨hn, herrand⟩)
  | ask herrand | stop herrand | clear herrand | list herrand | announce herrand | fail herrand
  | refuse herrand | enter herrand => exact .inr (.inl ⟨hn, by simp [herrand]⟩)
  | halt herrand hattends | halted herrand hattends | wait herrand hattends =>
      exact .inr (.inl ⟨hlength hattends, by simp [herrand]⟩)
  | @finish m _ herrand hattends =>
      by_cases hne : m = n
      · exact .inl (by rw [hne])
      · exact .inr (.inl ⟨hlength hattends, by simp [herrand, hne]⟩)
  | @finished m outcome _ herrand hattends =>
      by_cases hne : m = n
      · subst hne
        refine .inr (.inr ⟨hlength hattends, outcome, ?_, rfl⟩)
        cases hattends with
        | joins _ hworker hfinished => simp [Scene.outcome?, Scene.assign, hworker, Worker.result?, hfinished]
      · exact .inr (.inl ⟨hlength hattends, by simp [herrand, hne]⟩)
  | @launch script before _ herrand hsets =>
      generalize (d.scene.started d.shell.job script).1 = result at hsets ⊢
      cases hsets with
      | fails => exact .inr (.inl ⟨hn, by simp [herrand]⟩)
      | succeeds =>
          rw [List.length_append] at hn
          rcases Nat.lt_or_eq_of_le (Nat.le_of_lt_succ hn) with hlt | rfl
          · exact .inr (.inl ⟨hlt, by simp [herrand]⟩)
          · exact .inl (by simp [Shell.launched, hblocking])
  | work hworker =>
      rw [List.length_set] at hn
      by_cases herrand : d.errand = .finishing n
      · exact .inl herrand
      · exact .inr (.inl ⟨hn, herrand⟩)

theorem Alone.answered [IsPreorder (Signals W) permits] {start : Dialog R W} (hstart : start.IsAttended permits)
    (hnone : start.scene.workers = []) (h : start.Alone storage permits past d)
    (hblocking : d.shell.config.backgroundRun = false) (hn : n < d.scene.workers.length) :
    d.errand = .finishing n ∨
      ∃ outcome, d.scene.outcome? n = some outcome ∧ Answered storage permits start past d n outcome := by
  induction h with
  | refl =>
      rw [hnone] at hn
      cases hn
  | @types past d d' h htypes ih =>
      have hafter (hfinishing : d.errand ≠ .finishing n) (hblocking : d.shell.config.backgroundRun = false)
          (hn : n < d.scene.workers.length) :
          ∃ outcome, d.scene.outcome? n = some outcome ∧ Answered storage permits start past d' n outcome := by
        obtain ⟨outcome, houtcome, before, d₀, later, hpast, hbefore, hanswered, hlater⟩ :=
          (ih hblocking hn).resolve_left hfinishing
        exact ⟨outcome, houtcome, before, d₀, later, hpast, hbefore, hanswered, hlater.types htypes⟩
      cases id htypes with
      | line hrest | stop hrest | run hrest | supply hrest =>
          exact .inr (hafter (by simp [hrest]) hblocking hn)
  | @acts past d h a ha errand hacts ih =>
      have hmoves := (h.isAttended hstart).moves ha hacts
      rcases hmoves.finishing hblocking hn with herrand | ⟨hlt, herrand⟩ | ⟨-, outcome, houtcome, herrand⟩
      · exact .inl herrand
      · obtain ⟨outcome, houtcome, before, d₀, later, hpast, hbefore, hanswered, hlater⟩ :=
          (ih hblocking hlt).resolve_left herrand
        exact .inr ⟨outcome, hmoves.outcome? houtcome, before, d₀, (d, a) :: later, by simp [hpast], hbefore,
          hanswered, hlater.acts ha hacts⟩
      · exact .inr ⟨outcome, houtcome, _, _, [], rfl, h.acts ha hacts, herrand, .refl⟩

end Dialog

namespace Scene

variable {R W : Type} {s : Scene R W} {shell : Shell R W}

theorem status?_notices_error (e : Error) :
    (s.notices shell (.error e)).filterMap Notice.status? = [true, false] :=
  rfl

theorem status?_notices_ok {n : Nat} :
    (s.notices shell (.ok n)).filterMap Notice.status? =
      if s.outcome? n = none then [true] else [true, false] := by
  unfold notices Shell.notices
  cases houtcome : s.outcome? n with
  | none => simp [houtcome, Notice.status?]
  | some outcome =>
      have hfailures : (shell.failures outcome).filterMap Notice.status? = [] := by
        unfold Shell.failures
        split
        · split <;> rfl
        · rfl
      simp [houtcome, hfailures, Notice.status?]

theorem failure_not_mem_notices (hblocking : shell.config.backgroundRun = false) (text : String)
    (run : Except Error Nat) : .failure text ∉ s.notices shell run := by
  cases run with
  | error e => simp [notices]
  | ok n =>
      have hfailures (outcome : Outcome) : shell.failures outcome = [] := by
        cases outcome <;> simp [Shell.failures, hblocking]
      show .failure text ∉ shell.notices (s.outcome? n)
      cases s.outcome? n <;> simp [Shell.notices, hfailures]

theorem status?_notices {runs : List (Except Error Nat)} (h : ∀ n, .ok n ∈ runs → s.outcome? n ≠ none) :
    (runs.flatMap (s.notices shell)).filterMap Notice.status? =
      (List.replicate runs.length [true, false]).flatten := by
  induction runs with
  | nil => rfl
  | cons run runs ih =>
      have hrun : (s.notices shell run).filterMap Notice.status? = [true, false] := by
        cases run with
        | error e => exact status?_notices_error e
        | ok n => rw [status?_notices_ok, if_neg (h n List.mem_cons_self)]
      rw [List.flatMap_cons, List.filterMap_append, hrun, ih fun n hn => h n (List.mem_cons_of_mem _ hn)]
      rfl

end Scene

namespace Dialog

variable {R W : Type} [NumberSystem R] {log : W → List Notice} {d : Dialog R W}
  {past : List (Dialog R W × Scene.Action R W)}

/-- The status sink is told of starts and ends in turn, of each once for a RUN, and the last end may still be to come. -/
theorem Tells.statuses (h : d.Tells log past) (hd : d.IsAttended (Signals.KeepsLog log)) :
    ∃ pairs last, (log d.scene.shared.signals.world).filterMap Notice.status? =
        (List.replicate pairs [true, false]).flatten ++ last ∧ (last = [] ∨ last = [true]) ∧
      (d.errand.opening = [] → pairs + last.length = (runs past).length ∧
        ((∀ n < d.scene.workers.length, d.scene.outcome? n ≠ none) → last = [])) := by
  rw [h.log, List.filterMap_append]
  by_cases hover : ∀ n < d.scene.workers.length, d.scene.outcome? n ≠ none
  · refine ⟨(runs past).length, d.errand.opening.filterMap Notice.status?, ?_, ?_, ?_⟩
    · rw [Scene.status?_notices fun n hn => hover n (h.lt_length hn)]
    · cases d.errand <;> first | exact .inl rfl | exact .inr rfl
    · intro hopening
      rw [hopening]
      exact ⟨rfl, fun _ => rfl⟩
  · obtain ⟨n, hn, hnone⟩ : ∃ n < d.scene.workers.length, d.scene.outcome? n = none := by
      simpa using hover
    obtain ⟨before, hlast⟩ := List.getLast?_eq_some_iff.mp (h.last n hn hnone)
    have hbefore : ∀ m, .ok m ∈ before → d.scene.outcome? m ≠ none := by
      intro m hm hopen
      have hruns : .ok m ∈ runs past := by
        rw [hlast]
        exact List.mem_append_left _ hm
      have heq := (h.last m (h.lt_length hruns) hopen).symm.trans (h.last n hn hnone)
      cases heq
      exact h.ne_of_mem hlast hm rfl
    refine ⟨before.length, [true], ?_, .inr rfl, fun _ => ⟨?_, fun hover' => absurd hnone (hover' n hn)⟩⟩
    · rw [hlast, List.flatMap_append, List.filterMap_append, Scene.status?_notices hbefore,
        hd.opening_eq_nil hn hnone, List.flatMap_singleton, Scene.status?_notices_ok, if_pos hnone]
      exact List.append_nil _
    · rw [hlast, List.length_append]
      rfl

end Dialog

/-- Let one client have the controller for itself, and let natives tell sinks nothing of runs. Of every RUN whose program was
compiled the status sink is told a start and an end, and before the end the error sink is told the error of a run in the
background, if it failed. Starts and ends come in turn. The error sink is not told of runs in the foreground: the client is
answered with what each of them has come to. -/
theorem run_reports {R W σ : Type} [NumberSystem R] (storage : Storage (StateM σ)) (config : Config)
    (sinks : Sinks W) (log : W → List Notice) (hlogs : sinks.Logs log) (world : W) (hworld : log world = [])
    (more : List (NativeSet R (Signals W))) (hmore : ∀ set ∈ more, set.Respects (Signals.KeepsLog log))
    (past : List (Dialog R W × Scene.Action R W)) (d : Dialog R W)
    (h : (Dialog.new config sinks world more).Alone storage (Signals.KeepsLog log) past d) :
    log d.scene.shared.signals.world =
        (Dialog.runs past).flatMap (d.scene.notices d.shell) ++ d.errand.opening ∧
      (Dialog.runs past).filterMap Except.toOption = List.range d.scene.workers.length ∧
      (∃ pairs last, (log d.scene.shared.signals.world).filterMap Notice.status? =
          (List.replicate pairs [true, false]).flatten ++ last ∧ (last = [] ∨ last = [true]) ∧
        ∀ answer, d.errand = .resting answer → pairs + last.length = past.countP Dialog.compiles ∧
          ((∀ n < d.scene.workers.length, d.scene.outcome? n ≠ none) → last = [])) ∧
      (d.shell.config.backgroundRun = false →
        (∀ text, .failure text ∉ log d.scene.shared.signals.world) ∧
        ∀ n < d.scene.workers.length, d.errand = .finishing n ∨
          ∃ outcome, d.scene.outcome? n = some outcome ∧
            (Dialog.new config sinks world more).Answered storage (Signals.KeepsLog log) past d n outcome) := by
  have hnew : (Dialog.new config sinks world more).IsAttended (Signals.KeepsLog log) :=
    Dialog.isAttended_new (NativeSet.keepsLog_standard hlogs) hmore
  have hnothing : (Dialog.new config sinks world more).Tells log [] :=
    ⟨hlogs, hworld, rfl, by rintro n ⟨⟩⟩
  have htells := h.tells hnew hnothing
  obtain ⟨pairs, last, hstatuses, hlast, hopening⟩ := htells.statuses (h.isAttended hnew)
  refine ⟨htells.log, htells.started, ⟨pairs, last, hstatuses, hlast, fun answer hrest => ?_⟩,
    fun hblocking => ⟨?_, fun n hn => h.answered hnew rfl hblocking hn⟩⟩
  · rw [h.count_compiles hnew rfl]
    rw [hrest] at hopening ⊢
    exact hopening rfl
  · intro text hmem
    rw [htells.log, List.mem_append, List.mem_flatMap] at hmem
    rcases hmem with ⟨run, -, hrun⟩ | hmem
    · exact Scene.failure_not_mem_notices hblocking text run hrun
    · revert hmem
      cases d.errand <;> simp [Errand.opening]

def Sinks.recording : Sinks (List Notice) where
  write _ notices := notices
  random notices := (0, notices)
  fail text notices := notices ++ [.failure text]
  status running notices := notices ++ [.status running]

namespace Dialog

def recorded : Dialog Float (List Notice) :=
  .new { backgroundRun := true } .recording [] []

def returningLine : Line where
  number := 10
  content := "RETURN"

def returning : Dialog Float (List Notice) :=
  { recorded with
    shell := { recorded.shell with
      session := ((recorded.view.takeLine FileTree.timeless returningLine.text).run (.startingAt [])).1.2.session }
    errand := .resting (some (.ok "", none)) }

/-- What is told of its run. -/
def returningNotices : List Notice :=
  [.status true, .failure "RETURN WITHOUT GOSUB IN 10", .status false]

theorem exists_returned : ∃ past d, recorded.Alone FileTree.timeless (Signals.KeepsLog id) past d ∧
    d.scene.shared.signals.world = returningNotices := by
  have hreply : ((recorded.view.takeLine FileTree.timeless returningLine.text).run
      (.startingAt [])).1.1.reply? = some (.ok "") := by
    decide
  have htyped : recorded.Alone FileTree.timeless (Signals.KeepsLog id) [] returning :=
    .types .refl (.line rfl rfl (by decide) (by decide) (Turn.run_eq hreply))
  have hrun : Input.command? "RUN" = some .run := by decide
  have hover : (returning.started?.map fun run => (run.1.advance run.2 9).2.signals.world) =
      some returningNotices := by
    decide +kernel
  obtain ⟨⟨worker, shared⟩, hstarted, hworld⟩ := Option.map_eq_some_iff.mp hover
  obtain ⟨past, hlaunched⟩ := htyped.exists_started rfl hrun (fun _ => rfl) rfl rfl
    rfl rfl hstarted
  obtain ⟨past', d', -, hadvanced, hshared, -⟩ := hlaunched.exists_advanced 9 (n := 0) (fun _ => rfl) rfl
  refine ⟨_, d', hadvanced, ?_⟩
  rw [hshared]
  exact hworld

end Dialog

/-- A run in the background has failed. Its start, its error and its end are told. -/
theorem run_reports_returned : ∃ past d,
    Dialog.recorded.Alone FileTree.timeless (Signals.KeepsLog id) past d ∧
      d.scene.shared.signals.world = Dialog.returningNotices ∧
      (Dialog.runs past).flatMap (d.scene.notices d.shell) ++ d.errand.opening = Dialog.returningNotices := by
  obtain ⟨past, d, hleads, hworld⟩ := Dialog.exists_returned
  have hlogs : Sinks.recording.Logs id :=
    ⟨fun _ _ => rfl, fun _ _ => rfl, fun _ _ => rfl, fun _ => rfl⟩
  have hreports := run_reports FileTree.timeless { backgroundRun := true } .recording id hlogs [] rfl [] (by simp)
    past d hleads
  exact ⟨past, d, hleads, hworld, hreports.1.symm.trans hworld⟩

end LineBasic
