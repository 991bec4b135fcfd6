import LineBasic.Binary64
import LineBasic.Proofs.Interleaving

namespace LineBasic

namespace Worker.Duties

variable {W : Type}

def Reports (duties : Duties W) : Prop :=
  ∀ outcome world, duties.report outcome world ≠ none

end Worker.Duties

/-- The run that a thread comes to start. -/
def Scene.Action.job? {R W : Type} : Scene.Action R W → Option (Controller.Job R W)
  | .enter _ job _ => some job
  | _ => none

namespace Scene

variable {R W : Type} {s s' : Scene R W} {n m : Nat}

/-- A run that is going on, or whose worker broke down and can still be waited for. -/
def IsPending (s : Scene R W) (n : Nat) : Prop :=
  s.Is n Worker.isBusy ∨ s.Is n Worker.hasDied ∧ s.IsHeld n

/-- A wait leaves the running phase, and that is the phase of another run. -/
def IsLate (s : Scene R W) (a : Action R W) : Prop :=
  ∃ t n, a = .leave t n ∧ ∃ m, s.Is m Worker.isBusy

/-- At most one run is going on. Then the phase is the running one, and only then or until the worker has been waited for. -/
structure IsSound (s : Scene R W) : Prop where
  sole : ∀ m n, s.Is m Worker.isBusy → s.Is n Worker.isBusy → m = n
  running : ∀ n, s.Is n Worker.isBusy → s.shared.phase = .running
  held : ∀ n, s.Is n Worker.isBusy → s.IsHeld n
  pending : s.shared.phase = .running → ∃ n, s.IsPending n

theorem is_congr (hworkers : s'.workers = s.workers) {p : Worker R W → Bool} :
    s'.Is n p ↔ s.Is n p := by
  unfold Is
  rw [hworkers]

theorem is_of_append {worker : Worker R W} (hworkers : s'.workers = s.workers ++ [worker])
    {p : Worker R W → Bool} : s'.Is n p ↔ s.Is n p ∨ n = s.workers.length ∧ p worker := by
  unfold Is
  rw [hworkers]
  rcases Nat.lt_trichotomy n s.workers.length with h | rfl | h
  · rw [List.getElem?_append_left h]
    constructor
    · exact .inl
    · rintro (h' | ⟨rfl, -⟩)
      · exact h'
      · exact absurd h (Nat.lt_irrefl _)
  · simp
  · rw [List.getElem?_eq_none (by simp; omega), List.getElem?_eq_none (Nat.le_of_lt h)]
    simp
    omega

theorem Is.unique {p q : Worker R W → Bool} (h : s.Is n p) (h' : s.Is n q)
    (hpq : ∀ worker, p worker → q worker = false) : False := by
  obtain ⟨worker, hworker, hp⟩ := h
  have hq := h'.of_getElem? hworker
  rw [hpq worker hp] at hq
  cases hq

theorem isSound_of_idle (hphase : s.shared.phase = .idle) (hbusy : ∀ n, ¬s.Is n Worker.isBusy) :
    s.IsSound := by
  refine ⟨fun m _ hm => absurd hm (hbusy m), fun n hn => absurd hn (hbusy n),
    fun n hn => absurd hn (hbusy n), fun hrunning => ?_⟩
  rw [hphase] at hrunning
  cases hrunning

theorem IsSound.not_isBusy (h : s.IsSound) (hphase : s.shared.phase = .idle) (n : Nat) :
    ¬s.Is n Worker.isBusy := by
  intro hn
  have hrunning := h.running n hn
  rw [hphase] at hrunning
  cases hrunning

theorem IsSound.congr (h : s.IsSound) (hphase : s'.shared.phase = s.shared.phase)
    (hworkers : s'.workers = s.workers)
    (hheld : ∀ n, s.IsPending n → s.IsHeld n → s'.IsHeld n) : s'.IsSound := by
  have his : ∀ {n} {p : Worker R W → Bool}, s'.Is n p ↔ s.Is n p := is_congr hworkers
  refine ⟨?_, ?_, ?_, ?_⟩
  · intro m n hm hn
    exact h.sole m n (his.mp hm) (his.mp hn)
  · intro n hn
    rw [hphase]
    exact h.running n (his.mp hn)
  · intro n hn
    exact hheld n (.inl (his.mp hn)) (h.held n (his.mp hn))
  · intro hrunning
    rw [hphase] at hrunning
    obtain ⟨n, hn⟩ := h.pending hrunning
    refine ⟨n, ?_⟩
    rcases id hn with hbusy | ⟨hdied, hn'⟩
    · exact .inl (his.mpr hbusy)
    · exact .inr ⟨his.mpr hdied, hheld n hn hn'⟩

theorem not_isPending_of_finished {worker : Worker R W} (hworker : s.workers[n]? = some worker)
    {outcome : Outcome} (hfinished : worker.state = .finished outcome) : ¬s.IsPending n := by
  have hn : s.Is n fun worker => !worker.isBusy && !worker.hasDied :=
    ⟨worker, hworker, by simp [Worker.isBusy, Worker.hasDied, hfinished]⟩
  rintro (hbusy | ⟨hdied, -⟩)
  · exact hbusy.unique hn (by simp +contextual)
  · exact hdied.unique hn (by simp +contextual)

theorem isSound_new (world : W) : (new world : Scene R W).IsSound :=
  isSound_of_idle rfl (by rintro n ⟨worker, ⟨⟩, -⟩)

section Steps

variable [NumberSystem R]

theorem is_work {worker : Worker R W} (hworker : s.workers[n]? = some worker)
    {p : Worker R W → Bool} :
    (s.work n).Is m p ↔ m = n ∧ p (worker.step s.shared).1 ∨ m ≠ n ∧ s.Is m p := by
  rw [work_of_getElem? hworker]
  unfold Is
  by_cases h : m = n
  · subst h
    have hlt := (List.getElem?_eq_some_iff.mp hworker).1
    simp [List.getElem?_set_self hlt]
  · simp [h, List.getElem?_set_ne (Ne.symm h)]

theorem phase_work {worker : Worker R W} (hworker : s.workers[n]? = some worker) :
    (s.work n).shared.phase = (worker.step s.shared).2.phase := by
  rw [work_of_getElem? hworker]

theorem isBusy_of_work {worker : Worker R W} (hworker : s.workers[n]? = some worker)
    (h : (s.work n).Is m Worker.isBusy) : s.Is m Worker.isBusy := by
  rcases (is_work hworker).mp h with ⟨rfl, hbusy⟩ | ⟨-, hbusy⟩
  · exact ⟨worker, hworker, Worker.isBusy_of_step hbusy⟩
  · exact hbusy

theorem IsPending.work {worker : Worker R W} (h : s.IsPending m)
    (hworker : s.workers[n]? = some worker) (hheld : s.IsHeld m)
    (hnext : worker.isBusy → (worker.step s.shared).1.isBusy ∨ (worker.step s.shared).1.hasDied) :
    (s.work n).IsPending m := by
  have hheld' : (s.work n).IsHeld m := (isHeld_congr (handle_work s n)).mpr hheld
  by_cases hne : m = n
  · subst hne
    have hnext' : (worker.step s.shared).1.isBusy ∨ (worker.step s.shared).1.hasDied := by
      rcases h with hbusy | ⟨hdied, -⟩
      · exact hnext (hbusy.of_getElem? hworker)
      · exact .inr (Worker.hasDied_step (hdied.of_getElem? hworker))
    rcases hnext' with hbusy | hdied
    · exact .inl ((is_work hworker).mpr (.inl ⟨rfl, hbusy⟩))
    · exact .inr ⟨(is_work hworker).mpr (.inl ⟨rfl, hdied⟩), hheld'⟩
  · rcases h with hbusy | ⟨hdied, -⟩
    · exact .inl ((is_work hworker).mpr (.inr ⟨hne, hbusy⟩))
    · exact .inr ⟨(is_work hworker).mpr (.inr ⟨hne, hdied⟩), hheld'⟩

theorem IsSound.work (h : s.IsSound) {worker : Worker R W} (hworker : s.workers[n]? = some worker) :
    (s.work n).IsSound := by
  refine ⟨?_, ?_, ?_, ?_⟩
  · intro m m' hm hm'
    exact h.sole m m' (isBusy_of_work hworker hm) (isBusy_of_work hworker hm')
  · intro m hm
    rw [phase_work hworker]
    rcases worker.phase_step s.shared with ⟨hidling, -, hbusy, -⟩ | ⟨hphase, -⟩
    · have hn : s.Is n Worker.isBusy := ⟨worker, hworker, Worker.isBusy_of_isIdling hidling⟩
      obtain rfl := h.sole m n (isBusy_of_work hworker hm) hn
      rcases (is_work hworker).mp hm with ⟨-, hbusy'⟩ | ⟨hne, -⟩
      · rw [hbusy] at hbusy'
        cases hbusy'
      · exact absurd rfl hne
    · rw [hphase]
      exact h.running m (isBusy_of_work hworker hm)
  · intro m hm
    exact (isHeld_congr (handle_work s n)).mpr (h.held m (isBusy_of_work hworker hm))
  · intro hrunning
    rw [phase_work hworker] at hrunning
    rcases worker.phase_step s.shared with ⟨-, hidle, -⟩ | ⟨hphase, hnext⟩
    · rw [hidle] at hrunning
      cases hrunning
    · rw [hphase] at hrunning
      obtain ⟨m, hm⟩ := h.pending hrunning
      have hheld : s.IsHeld m := by
        rcases hm with hbusy | ⟨-, hheld⟩
        · exact h.held m hbusy
        · exact hheld
      exact ⟨m, hm.work hworker hheld hnext⟩

theorem IsSound.effect {a : Action R W} (h : s.IsSound) (hhandles : s.HasHandles)
    (heffect : s.Effect a s') (hlate : ¬s.IsLate a) : s'.IsSound := by
  cases heffect with
  | keeps hphase hworkers hhandle =>
      exact h.congr hphase hworkers fun n _ => (isHeld_congr hhandle).mpr
  | works hworker => exact h.work hworker
  | passes hphase hworkers hhandle =>
      exact h.congr hphase hworkers fun n _ => (isHeld_of_passes hhandle).mpr
  | joins ht hworker hfinished hphase hworkers hhandle =>
      refine h.congr hphase hworkers fun m hm hheld => ?_
      refine (isHeld_of_drops hhandles hhandle).mpr ⟨hheld, ?_⟩
      rintro hm'
      obtain rfl := Option.some.inj (ht.symm.trans hm')
      exact not_isPending_of_finished hworker hfinished hm
  | @leaves _ t n ht hphase hworkers hhandle =>
      refine isSound_of_idle hphase fun m hm => ?_
      exact hlate ⟨t, n, rfl, m, (is_congr hworkers).mp hm⟩
  | fails hphase hphase' hworkers hhandle =>
      refine isSound_of_idle hphase' fun m hm => ?_
      exact h.not_isBusy hphase m ((is_congr hworkers).mp hm)
  | starts ht hphase hphase' hduties hbusy hworkers hhandle =>
      -- no run was going on, since the phase was the idle one
      have hnew : ∀ m, s'.Is m Worker.isBusy ↔ m = s.workers.length := by
        intro m
        rw [is_of_append hworkers]
        constructor
        · rintro (hm | ⟨rfl, -⟩)
          · exact absurd hm (h.not_isBusy hphase m)
          · rfl
        · rintro rfl
          exact .inr ⟨rfl, hbusy⟩
      refine ⟨?_, ?_, ?_, ?_⟩
      · intro m n hm hn
        exact ((hnew m).mp hm).trans ((hnew n).mp hn).symm
      · intro m hm
        exact hphase'
      · intro m hm
        obtain rfl := (hnew m).mp hm
        exact ⟨none, by rw [hhandle, Function.update_self]⟩
      · intro _
        exact ⟨s.workers.length, .inl ((hnew _).mpr rfl)⟩

end Steps

/-- At most one worker is pending, and only in the running phase. -/
structure PendsAlone (s : Scene R W) : Prop where
  sole : ∀ m n, s.IsPending m → s.IsPending n → m = n
  running : ∀ n, s.IsPending n → s.shared.phase = .running

/-- Reports do not break down. Then who breaks down has not left the running phase. -/
structure IsSteady (s : Scene R W) : Prop extends PendsAlone s where
  workers : ∀ worker ∈ s.workers, worker.duties.Reports
  tasks : ∀ t before job script, s.task t = .starting before job script → job.duties.Reports
  died : ∀ t n, s.task t = .leaving n → s.Is n Worker.hasDied

variable {a : Action R W}

theorem isPending_of_congr (hworkers : s'.workers = s.workers)
    (hheld : s'.IsHeld n → s.IsHeld n) (h : s'.IsPending n) : s.IsPending n := by
  rcases h with hbusy | ⟨hdied, hn⟩
  · exact .inl ((is_congr hworkers).mp hbusy)
  · exact .inr ⟨(is_congr hworkers).mp hdied, hheld hn⟩

theorem isPending_of_leaving (h : s.Is n Worker.hasDied) {t : Nat} (ht : s.task t = .leaving n) :
    s.IsPending n :=
  .inr ⟨h, some t, handle_of_task ht⟩

theorem IsSteady.not_isLate (h : s.IsSteady) (ha : s.Allows a) : ¬s.IsLate a := by
  rintro ⟨t, n, rfl, m, hm⟩
  have hdied := h.died t n ha.2
  have hn := isPending_of_leaving hdied ha.2
  obtain rfl := h.sole m n (.inl hm) hn
  exact hm.unique hdied fun worker hbusy => by
    rw [Bool.eq_false_iff]
    intro hdied
    rw [Worker.not_isBusy_of_hasDied hdied] at hbusy
    cases hbusy

theorem pendsAlone_of_none (h : ∀ n, ¬s.IsPending n) : s.PendsAlone :=
  ⟨fun m _ hm => absurd hm (h m), fun n hn => absurd hn (h n)⟩

theorem PendsAlone.mono (h : s.PendsAlone) (hphase : s'.shared.phase = s.shared.phase)
    (hpending : ∀ n, s'.IsPending n → s.IsPending n) : s'.PendsAlone := by
  constructor
  · intro m n hm hn
    exact h.sole m n (hpending m hm) (hpending n hn)
  · intro n hn
    exact hphase ▸ h.running n (hpending n hn)

theorem PendsAlone.not_isPending (h : s.PendsAlone) (hphase : s.shared.phase = .idle) (n : Nat) :
    ¬s.IsPending n := by
  intro hn
  have hrunning := h.running n hn
  rw [hphase] at hrunning
  cases hrunning

theorem isSteady_new (world : W) : (new world : Scene R W).IsSteady := by
  refine ⟨pendsAlone_of_none ?_, ?_, ?_, ?_⟩
  · rintro n (⟨worker, ⟨⟩, -⟩ | ⟨⟨worker, ⟨⟩, -⟩, -⟩)
  · rintro worker ⟨⟩
  · rintro t before job script ⟨⟩
  · rintro t n ⟨⟩

section Reports

variable [NumberSystem R]

theorem Is.hasDied_effect (h : s.Is n Worker.hasDied) (heffect : s.Effect a s') :
    s'.Is n Worker.hasDied := by
  cases heffect with
  | keeps _ hworkers | passes _ hworkers | joins _ _ _ _ hworkers | leaves _ _ hworkers
  | fails _ _ hworkers =>
      exact (is_congr hworkers).mpr h
  | @works _ m worker hworker =>
      rw [is_work hworker]
      by_cases hne : n = m
      · subst hne
        exact .inl ⟨rfl, Worker.hasDied_step (h.of_getElem? hworker)⟩
      · exact .inr ⟨hne, h⟩
  | starts _ _ _ _ _ hworkers =>
      exact (is_of_append hworkers).mpr (.inl h)

theorem IsSteady.isPending_of_work (h : s.IsSteady) {worker : Worker R W}
    (hworker : s.workers[n]? = some worker) (hm : (s.work n).IsPending m) : s.IsPending m := by
  rcases hm with hbusy | ⟨hdied, hheld⟩
  · exact .inl (isBusy_of_work hworker hbusy)
  · have hbefore : s.IsHeld m := (isHeld_congr (handle_work s n)).mp hheld
    rcases (is_work hworker).mp hdied with ⟨rfl, hdied'⟩ | ⟨-, hdied'⟩
    · rcases Worker.hasDied_of_step hdied' with hbusy | hdied'' | ⟨outcome, hreport⟩
      · exact .inl ⟨worker, hworker, hbusy⟩
      · exact .inr ⟨⟨worker, hworker, hdied''⟩, hbefore⟩
      · exact absurd hreport (h.workers worker (List.mem_of_getElem? hworker) _ _)
    · exact .inr ⟨hdied', hbefore⟩

theorem IsSteady.reports_effect (h : s.IsSteady) (heffect : s.Effect a s') :
    ∀ worker ∈ s'.workers, worker.duties.Reports := by
  intro worker hmem
  cases heffect with
  | keeps _ hworkers | passes _ hworkers | joins _ _ _ _ hworkers | leaves _ _ hworkers
  | fails _ _ hworkers =>
      exact h.workers worker (hworkers ▸ hmem)
  | works hworker =>
      rw [work_of_getElem? hworker] at hmem
      rcases List.mem_or_eq_of_mem_set hmem with hmem | rfl
      · exact h.workers worker hmem
      · rw [Worker.duties_step]
        exact h.workers _ (List.mem_of_getElem? hworker)
  | starts ht _ _ hduties _ hworkers =>
      rw [hworkers, List.mem_append, List.mem_singleton] at hmem
      rcases hmem with hmem | rfl
      · exact h.workers worker hmem
      · rw [hduties]
        exact h.tasks _ _ _ _ ht

theorem IsSteady.pendsAlone_work (h : s.IsSteady) {worker : Worker R W}
    (hworker : s.workers[n]? = some worker) : (s.work n).PendsAlone := by
  rcases worker.phase_step s.shared with ⟨hidling, -, hbusy, hdied⟩ | ⟨hphase, -⟩
  · -- the worker that leaves the phase was the only one pending, and is not any more
    refine pendsAlone_of_none fun m hm => ?_
    have hn : s.IsPending n := .inl ⟨worker, hworker, Worker.isBusy_of_isIdling hidling⟩
    obtain rfl := h.sole m n (h.isPending_of_work hworker hm) hn
    rcases hm with hm | ⟨hm, -⟩
    · have hm' := (is_work hworker).mp hm
      simp [hbusy] at hm'
    · have hm' := (is_work hworker).mp hm
      simp [hdied] at hm'
  · apply h.toPendsAlone.mono ((phase_work hworker).trans hphase)
    intro m hm
    exact h.isPending_of_work hworker hm

theorem IsSteady.pendsAlone_effect (h : s.IsSteady) (hhandles : s.HasHandles)
    (heffect : s.Effect a s') (hlate : ¬s.IsLate a) : s'.PendsAlone := by
  cases heffect with
  | keeps hphase hworkers hhandle =>
      exact h.toPendsAlone.mono hphase fun n => isPending_of_congr hworkers (isHeld_congr hhandle).mp
  | works hworker => exact h.pendsAlone_work hworker
  | passes hphase hworkers hhandle =>
      exact h.toPendsAlone.mono hphase fun n =>
        isPending_of_congr hworkers (isHeld_of_passes hhandle).mp
  | joins ht hworker hfinished hphase hworkers hhandle =>
      exact h.toPendsAlone.mono hphase fun n =>
        isPending_of_congr hworkers fun hn => ((isHeld_of_drops hhandles hhandle).mp hn).1
  | @leaves _ t n ht hphase hworkers hhandle =>
      -- the worker that was waited for was the only one pending, and nobody can wait for it again
      refine pendsAlone_of_none fun m hm => ?_
      rcases hm with hbusy | ⟨hdied, hheld⟩
      · exact hlate ⟨t, n, rfl, m, (is_congr hworkers).mp hbusy⟩
      · obtain ⟨hheld, hne⟩ := (isHeld_of_drops hhandles hhandle).mp hheld
        have hm : s.IsPending m := .inr ⟨(is_congr hworkers).mp hdied, hheld⟩
        obtain rfl := h.sole m n hm (isPending_of_leaving (h.died t n ht) ht)
        exact hne (handle_of_task ht)
  | fails hphase hphase' hworkers hhandle =>
      refine pendsAlone_of_none fun m hm => h.not_isPending hphase m ?_
      exact isPending_of_congr hworkers
        (fun hn => ((isHeld_of_drops hhandles hhandle).mp hn).1) hm
  | starts ht hphase hphase' hduties hbusy hworkers hhandle =>
      have hnew : ∀ m, s'.IsPending m → m = s.workers.length := by
        intro m hm
        by_contra hne
        have his : ∀ {p : Worker R W → Bool}, s'.Is m p → s.Is m p := by
          intro p hp
          rcases (is_of_append hworkers).mp hp with hp | ⟨heq, -⟩
          · exact hp
          · exact absurd heq hne
        refine h.not_isPending hphase m ?_
        rcases hm with hm | ⟨hm, owner, howner⟩
        · exact .inl (his hm)
        · rcases handle_eq_some_of_starts hhandle howner with ⟨-, heq⟩ | ⟨-, hold⟩
          · exact absurd heq hne
          · exact .inr ⟨his hm, owner, hold⟩
      constructor
      · intro m n hm hn
        exact (hnew m hm).trans (hnew n hn).symm
      · intro _ _
        exact hphase'

theorem IsSteady.after (h : s.IsSteady) (hguarded : s.IsGuarded) (hhandles : s.HasHandles)
    (ha : s.Allows a) (hjob : ∀ job, a.job? = some job → job.duties.Reports) :
    (s.after a).IsSteady := by
  have heffect := hguarded.effect ha
  refine ⟨h.pendsAlone_effect hhandles heffect (h.not_isLate ha), h.reports_effect heffect,
    ?_, ?_⟩
  · intro t before job script ht
    rcases s.task_after a t with htask | htask | ⟨n, -, htask⟩ | ⟨n, -, htask⟩ |
      ⟨job', script', rfl, htask⟩
    · exact h.tasks t before job script (htask ▸ ht)
    · cases htask.symm.trans ht
    · cases htask.symm.trans ht
    · cases htask.symm.trans ht
    · cases htask.symm.trans ht
      exact hjob job rfl
  · intro t n ht
    rcases s.task_after a t with htask | htask | ⟨n', -, htask⟩ | ⟨n', rfl, htask⟩ |
      ⟨job', script', -, htask⟩
    · exact (h.died t n (htask ▸ ht)).hasDied_effect heffect
    · cases htask.symm.trans ht
    · cases htask.symm.trans ht
    · cases htask.symm.trans ht
      exact Is.hasDied_effect ha.2 heffect
    · cases htask.symm.trans ht

variable {world : W} {past : List (Scene R W × Action R W)}

theorem Leads.isSound (h : (new world).Leads past s) (hpast : ∀ e ∈ past, ¬e.1.IsLate e.2) :
    s.IsSound := by
  induction h with
  | refl => exact isSound_new world
  | step h ha ih =>
      obtain ⟨hlate, hpast⟩ := List.forall_mem_cons.mp hpast
      exact (ih hpast).effect h.hasHandles (h.isGuarded.effect ha) hlate

theorem Leads.isSteady (h : (new world).Leads past s)
    (hpast : ∀ e ∈ past, ∀ job, e.2.job? = some job → job.duties.Reports) : s.IsSteady := by
  induction h with
  | refl => exact isSteady_new world
  | step h ha ih =>
      obtain ⟨hjob, hpast⟩ := List.forall_mem_cons.mp hpast
      exact (ih hpast).after h.isGuarded h.hasHandles ha hjob

/-- If no report breaks down, no wait leaves the running phase of another run. -/
theorem Leads.not_isLate (h : (new world).Leads past s)
    (hpast : ∀ e ∈ past, ∀ job, e.2.job? = some job → job.duties.Reports) :
    ∀ e ∈ past, ¬e.1.IsLate e.2 := by
  induction h with
  | refl => rintro e ⟨⟩
  | step h ha ih =>
      obtain ⟨-, hpast⟩ := List.forall_mem_cons.mp hpast
      exact List.forall_mem_cons.mpr ⟨(h.isSteady hpast).not_isLate ha, ih hpast⟩

end Reports

end Scene

/-- Let threads start runs, wait, and make and withdraw requests to stop, in whatever order. As long as no wait whose worker
broke down has left the running phase while another run was going on, at most one machine exists; while it does, no start
is on its way and every other one is refused; and the phase is the running one only while a run is going on or until its
worker, which broke down, has been waited for. No wait does so if no report breaks down. -/
theorem at_most_one_machine {R W : Type} [NumberSystem R] (world : W)
    (past : List (Scene R W × Scene.Action R W)) (s : Scene R W) (h : (Scene.new world).Leads past s) :
    ((∀ e ∈ past, ¬e.1.IsLate e.2) →
      (∀ m n, s.Is m Worker.hasMachine → s.Is n Worker.hasMachine → m = n) ∧
      (∀ n, s.Is n Worker.hasMachine → s.Open ∧ ∀ job script,
        s.controller.start job script = (.error Controller.alreadyRunning, s.controller)) ∧
      (s.shared.phase = .running →
        ∃ n, s.Is n Worker.isBusy ∨ s.Is n Worker.hasDied ∧ s.IsHeld n)) ∧
    ((∀ e ∈ past, ∀ job, e.2.job? = some job → job.duties.Reports) →
      ∀ e ∈ past, ¬e.1.IsLate e.2) := by
  refine ⟨fun hpast => ?_, h.not_isLate⟩
  have hsound := h.isSound hpast
  have hbusy : ∀ n, s.Is n Worker.hasMachine → s.Is n Worker.isBusy :=
    fun n hn => hn.imp fun worker => Worker.isBusy_of_hasMachine
  refine ⟨fun m n hm hn => hsound.sole m n (hbusy m hm) (hbusy n hn), fun n hn => ?_,
    hsound.pending⟩
  have hrunning := hsound.running n (hbusy n hn)
  refine ⟨fun t => ?_, fun job script => ?_⟩
  · rw [Bool.eq_false_iff]
    intro ht
    have hidle := (h.isGuarded t ht).1
    rw [hrunning] at hidle
    cases hidle
  · have hisRunning : s.controller.isRunning := by
      simp [Controller.isRunning, Scene.controller, hrunning]
    rw [Controller.start, if_pos hisRunning]

namespace Scene

def emptyJob (report : Outcome → Unit → Option Unit) : Controller.Job Float Unit where
  machine := .ok {}
  duties := { report }

def emptyScript : Script where
  text := ""

/-- A run was started, and its worker broke down as it reported. -/
def afterReport : Scene Float Unit :=
  (((((((new ()).launch (emptyJob fun _ _ => none) emptyScript).work 0).work 0).work 0).work 0).work
    0)

/-- One thread waits for it, and another one starts a run before the first one has left the running phase. -/
def betweenWaits : Scene Float Unit :=
  ((afterReport.after (.take 1 0)).after (.lose 1 0)).launch (emptyJob fun _ => some) emptyScript

/-- The first thread has left the phase, which is that of the other run, and a third one waits for that run. -/
def afterWaits : Scene Float Unit :=
  (betweenWaits.after (.leave 1 0)).after (.take 2 1)

theorem leads_afterReport : ∃ past, (new ()).Leads past afterReport := by
  have hstart := leads_launch (t := 0) (open_new (R := Float) ()) rfl rfl (by rintro n ⟨⟩)
    (emptyJob fun _ _ => none) emptyScript
  have hdropped := hstart.step (a := .work 0) ⟨_, rfl, fun _ _ => rfl⟩
  have hcleared := hdropped.step (a := .work 0) ⟨_, rfl, fun _ _ => rfl⟩
  have hleft := hcleared.step (a := .work 0) ⟨_, rfl, fun _ _ => rfl⟩
  have hdied := hleft.step (a := .work 0) ⟨_, rfl, fun _ _ => rfl⟩
  exact ⟨_, hdied.step (a := .work 0) ⟨_, rfl, fun _ _ => rfl⟩⟩

theorem leads_betweenWaits : ∃ past, (new ()).Leads past betweenWaits := by
  obtain ⟨past, hreport⟩ := leads_afterReport
  have hopen : afterReport.Open := fun _ => rfl
  have htaken := hreport.step (a := .take 1 0) ⟨hopen, rfl, rfl⟩
  have hlost := htaken.step (a := .lose 1 0) ⟨rfl, _, rfl, rfl⟩
  have hopen := (hopen.assign 1 (.waiting 0) rfl).assign 1 (.leaving 0) rfl
  have hstart := leads_launch (s := (afterReport.after (.take 1 0)).after (.lose 1 0)) (t := 0) hopen
    rfl rfl (by rintro n ⟨⟩) (emptyJob fun _ => some) emptyScript
  exact ⟨_, hlost.trans hstart⟩

theorem leads_afterWaits : afterWaits.Open ∧ ∃ past, (new ()).Leads past afterWaits := by
  obtain ⟨past, hbetween⟩ := leads_betweenWaits
  have hopen : betweenWaits.Open := by
    have hopen : afterReport.Open := fun _ => rfl
    exact (hopen.assign 1 (.waiting 0) rfl).assign 1 (.leaving 0) rfl
  have hleft := hbetween.step (a := .leave 1 0) ⟨hopen, rfl⟩
  have hopen : (betweenWaits.after (.leave 1 0)).Open := hopen.assign 1 .free rfl
  exact ⟨hopen.assign 2 (.waiting 1) rfl, _,
    hleft.step (a := .take 2 1) ⟨hopen, rfl, rfl⟩⟩

end Scene

/-- A wait whose worker broke down leaves the running phase of a run that another thread has started. That run has a machine,
a start is not refused, and then there are two machines. -/
theorem two_machines_after_late_wait :
    ∃ past, (Scene.new ()).Leads past Scene.afterWaits ∧
      Scene.afterWaits.Is 1 Worker.hasMachine ∧
      (Scene.afterWaits.controller.start (Scene.emptyJob fun _ => some) Scene.emptyScript).1 =
        .ok () ∧
      ∃ past' s, Scene.afterWaits.Leads past' s ∧ s.Is 1 Worker.hasMachine ∧
        s.Is 2 Worker.hasMachine := by
  obtain ⟨hopen, past, hwaits⟩ := Scene.leads_afterWaits
  have hstart := Scene.leads_launch (t := 0) hopen rfl rfl (by rintro n ⟨⟩)
    (Scene.emptyJob fun _ => some) Scene.emptyScript
  exact ⟨past, hwaits, ⟨_, rfl, rfl⟩, rfl, _, _, hstart, ⟨_, rfl, rfl⟩, ⟨_, rfl, rfl⟩⟩

/-- After one start there is one machine, and another start is refused. -/
theorem at_most_one_machine_started :
    ∃ past s, (Scene.new () : Scene Float Unit).Leads past s ∧ s.Is 0 Worker.hasMachine ∧
      (∀ e ∈ past, ¬e.1.IsLate e.2) ∧ (∀ m, s.Is m Worker.hasMachine → m = 0) ∧
      ∀ job script, (s.controller.start job script).1 = .error Controller.alreadyRunning := by
  have hstart := Scene.leads_launch (t := 0) (Scene.open_new (R := Float) ()) rfl rfl
    (by rintro n ⟨⟩) (Scene.emptyJob fun _ => some) Scene.emptyScript
  have hmachine : ((Scene.new ()).launch (Scene.emptyJob fun _ => some) Scene.emptyScript).Is 0
      Worker.hasMachine := ⟨_, rfl, rfl⟩
  obtain ⟨hclauses, htimely⟩ := at_most_one_machine () _ _ hstart
  have hpast := htimely (by
    intro e he job hjob outcome world hreport
    rcases List.mem_pair.mp he with rfl | rfl
    · cases hjob
    · cases hjob
      cases hreport)
  obtain ⟨hsole, hrefused, -⟩ := hclauses hpast
  refine ⟨_, _, hstart, hmachine, hpast, fun m hm => hsole m 0 hm hmachine, fun job script => ?_⟩
  rw [(hrefused 0 hmachine).2]

end LineBasic
