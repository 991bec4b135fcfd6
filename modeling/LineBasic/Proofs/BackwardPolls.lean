import LineBasic.Proofs.Interruption

namespace LineBasic

variable {R W : Type}

namespace Event

variable {a : Nat} {l front back tail : List (Event R)}

theorem exists_of_append_eq (hl : ∀ e ∈ l, e.isInstruction = false)
    (h : l ++ tail = front ++ .instruction a :: back) :
    ∃ front', front = l ++ front' ∧ tail = front' ++ .instruction a :: back := by
  rcases List.append_eq_append_iff.mp h with ⟨front', hfront, htail⟩ | ⟨rest, hrest, hback⟩
  · exact ⟨front', hfront, htail⟩
  · cases rest with
    | nil => exact ⟨[], by simpa using hrest.symm, by simpa using hback.symm⟩
    | cons e rest =>
        obtain ⟨rfl, -⟩ := List.cons.inj hback
        have hmark := hl (.instruction a) (by simp [hrest])
        cases hmark

theorem countP_isInstruction_eq_zero (hl : ∀ e ∈ l, e.isInstruction = false) :
    l.countP isInstruction = 0 := by
  rw [List.countP_eq_zero]
  intro e he hinstruction
  rw [hl e he] at hinstruction
  cases hinstruction

end Event

/-- The poll that comes before the next instruction. -/
def Registers.dueEvents (r : Registers R) : List (Event R) :=
  if r.countdown ≤ 1 then [.poll false] else []

theorem Registers.poll_mem_dueEvents {r : Registers R} :
    (∃ answer, .poll answer ∈ r.dueEvents) ↔ r.countdown ≤ 1 := by
  unfold dueEvents
  split <;> simp [*]

theorem Registers.isInstruction_of_mem_dueEvents {r : Registers R} {e : Event R}
    (he : e ∈ r.dueEvents) : e.isInstruction = false := by
  unfold dueEvents at he
  split at he
  · rw [List.mem_singleton.mp he]
    rfl
  · cases he

namespace Machine

variable [NumberSystem R] {m : Machine R W} {hook : Hook W}

def historyFrom (m : Machine R W) (fuel : Nat) : Progress R × W → List (Event R)
  | (.running r, w) => m.history fuel r w
  | (.ended _ _, _) => []

theorem history_succ (m : Machine R W) (fuel : Nat) (r : Registers R) (w : W) :
    m.history (fuel + 1) r w = m.stepEvents r w ++ m.historyFrom fuel (m.step r w) := by
  rw [history]
  rcases m.step r w with ⟨_ | _, _⟩ <;> rfl

theorem exists_of_history_eq (hhook : m.hook = some hook) {fuel : Nat} {r : Registers R} {w : W}
    {front back : List (Event R)} {a : Nat}
    (h : m.history fuel r w = front ++ .instruction a :: back) :
    ∃ (fuel' : Nat) (i : Instruction R Nat) (acts : List (Event R)) (next : Progress R × W),
      fuel = fuel' + 1 ∧ m.linked.code[r.address]? = some i ∧
      (∀ e ∈ acts, e.isInstruction = false) ∧
      (∀ r', next.1 = .running r' →
        r'.countdown = (if r.countdown ≤ 1 then m.period else r.countdown - 1) ∧
          (r'.address ≤ r.address → ((∃ answer, .poll answer ∈ acts) ↔ ¬i.IsSilentBranch))) ∧
      ((front = r.dueEvents ∧ a = r.address ∧ back = acts ++ m.historyFrom fuel' next) ∨
        ∃ front', front = r.dueEvents ++ .instruction r.address :: (acts ++ front') ∧
          m.historyFrom fuel' next = front' ++ .instruction a :: back) := by
  cases fuel with
  | zero =>
      rw [history] at h
      simp at h
  | succ fuel =>
      have hsteps := steps hhook r w
      rw [history_succ] at h
      generalize m.stepEvents r w = events at hsteps h
      generalize m.step r w = next at hsteps h
      obtain ⟨p, w'⟩ := next
      cases hsteps with
      | ended => simp [historyFrom] at h
      | broken =>
          obtain ⟨front', -, htail⟩ := Event.exists_of_append_eq (l := [.poll true])
            (by simp [Event.isInstruction]) h
          simp [historyFrom] at htail
      | @executed due acts _ i hi hdue hacts hp =>
          refine ⟨fuel, i, acts, (p, w'), rfl, hi, hacts, hp, ?_⟩
          obtain rfl : due = r.dueEvents := hdue
          rw [List.append_assoc] at h
          obtain ⟨front₁, rfl, hfront₁⟩ :=
            Event.exists_of_append_eq (fun e he => Registers.isInstruction_of_mem_dueEvents he) h
          cases front₁ with
          | nil =>
              obtain ⟨hmark, hback⟩ := List.cons.inj hfront₁
              cases hmark
              exact .inl ⟨List.append_nil _, rfl, hback.symm⟩
          | cons e front₁ =>
              obtain ⟨rfl, hfront₂⟩ := List.cons.inj hfront₁
              obtain ⟨front₂, rfl, hrest⟩ := Event.exists_of_append_eq hacts hfront₂
              exact .inr ⟨front₂, rfl, hrest⟩

omit [NumberSystem R] in
theorem due_iff_dvd {period countdown done : Nat} (hpos : 1 ≤ countdown) (hle : countdown ≤ period)
    (hdone : period ∣ countdown + done) : countdown ≤ 1 ↔ period ∣ done + 1 := by
  constructor
  · intro hdue
    rwa [show done + 1 = countdown + done by omega]
  · intro hdvd
    have hrest := Nat.dvd_sub hdone hdvd
    have hzero := Nat.eq_zero_of_dvd_of_lt hrest (by omega)
    omega

omit [NumberSystem R] in
theorem countdown_next {m : Machine R W} {r r' : Registers R} {done : Nat} (hpos : 1 ≤ r.countdown)
    (hle : r.countdown ≤ m.period) (hdone : m.period ∣ r.countdown + done)
    (hnext : r'.countdown = if r.countdown ≤ 1 then m.period else r.countdown - 1) :
    1 ≤ r'.countdown ∧ r'.countdown ≤ m.period ∧ m.period ∣ r'.countdown + (done + 1) := by
  have hperiod := m.period_pos
  rw [hnext]
  split
  · refine ⟨hperiod, Nat.le_refl _, ?_⟩
    rw [show r.countdown + done = done + 1 by omega] at hdone
    exact Nat.dvd_add (Nat.dvd_refl _) hdone
  · refine ⟨by omega, by omega, ?_⟩
    rwa [show r.countdown - 1 + (done + 1) = r.countdown + done by omega]

/-- When so many instructions are done, the hook is asked between two instructions of which the second stands no further on
if the first one asks it or a poll is due before the second one. -/
theorem asked_iff_of_history_eq (hhook : m.hook = some hook) {fuel : Nat} {r : Registers R} {w : W}
    (hpos : 1 ≤ r.countdown) (hle : r.countdown ≤ m.period) {done : Nat}
    (hdone : m.period ∣ r.countdown + done) {front middle back : List (Event R)} {a b : Nat}
    (h : m.history fuel r w = front ++ .instruction a :: (middle ++ .instruction b :: back))
    (hmiddle : ∀ e ∈ middle, e.isInstruction = false) (hback : b ≤ a) :
    ∃ i, m.linked.code[a]? = some i ∧
      ((∃ answer, .poll answer ∈ middle) ↔
        ¬i.IsSilentBranch ∨ m.period ∣ done + front.countP Event.isInstruction + 2) := by
  induction fuel generalizing r w done front with
  | zero =>
      rw [history] at h
      simp at h
  | succ fuel ih =>
      obtain ⟨fuel', i, acts, ⟨p, w'⟩, hfuel, hi, hacts, hnext, hplace⟩ :=
        exists_of_history_eq hhook h
      obtain rfl : fuel = fuel' := Nat.succ.inj hfuel
      cases p with
      | ended ending r' =>
          rcases hplace with ⟨-, -, hrest⟩ | ⟨front', -, hrest⟩
          · have hmark : (.instruction b : Event R) ∈ acts := by
              rw [historyFrom, List.append_nil] at hrest
              simp [← hrest]
            cases hacts _ hmark
          · simp [historyFrom] at hrest
      | running r' =>
          obtain ⟨hcountdown, hasked⟩ := hnext r' rfl
          obtain ⟨hpos', hle', hdone'⟩ := countdown_next hpos hle hdone hcountdown
          rcases hplace with ⟨rfl, rfl, hrest⟩ | ⟨front', rfl, hrest⟩
          · obtain ⟨middle', rfl, hlater⟩ := Event.exists_of_append_eq hacts hrest.symm
            have hfirst : middle' = r'.dueEvents ∧ b = r'.address := by
              obtain ⟨_, _, _, _, -, -, -, -, ⟨hdue, hb, -⟩ | ⟨front', rfl, -⟩⟩ :=
                exists_of_history_eq hhook hlater
              · exact ⟨hdue, hb⟩
              · have hmark := hmiddle (.instruction r'.address) (by simp)
                cases hmark
            obtain ⟨rfl, rfl⟩ := hfirst
            have hcount : r.dueEvents.countP Event.isInstruction = 0 :=
              Event.countP_isInstruction_eq_zero fun e he =>
                Registers.isInstruction_of_mem_dueEvents he
            refine ⟨i, hi, ?_⟩
            rw [hcount, Nat.add_zero, ← due_iff_dvd hpos' hle' hdone',
              ← Registers.poll_mem_dueEvents, ← hasked hback]
            simp only [List.mem_append, exists_or]
          · have hcount : (r.dueEvents ++ Event.instruction r.address :: (acts ++ front')).countP
                Event.isInstruction = front'.countP Event.isInstruction + 1 := by
              rw [List.countP_append, List.countP_cons_of_pos rfl, List.countP_append,
                Event.countP_isInstruction_eq_zero hacts,
                Event.countP_isInstruction_eq_zero fun e he =>
                  Registers.isInstruction_of_mem_dueEvents he]
              omega
            have hlater := ih hpos' hle' hdone' hrest
            rwa [show done + 1 + front'.countP Event.isInstruction + 2 =
              done + (front'.countP Event.isInstruction + 1) + 2 by omega, ← hcount] at hlater

end Machine

/-- Let a run from an entry label be watched by a hook. Between an instruction and the next one, if that stands no further
on, the hook is asked if and only if the first is no IFNOT and no RETURN, or the number of the second in the run is a multiple
of the period. -/
theorem asked_before_going_back_iff [NumberSystem R] (m : Machine R W) (hook : Hook W)
    (entry : String) (r : Registers R) (hr : (m.watchedBy hook).start entry = .ok r) (fuel : Nat)
    (w : W) (front middle back : List (Event R)) (a b : Nat)
    (h : (m.watchedBy hook).history fuel r w =
      front ++ .instruction a :: (middle ++ .instruction b :: back))
    (hmiddle : ∀ e ∈ middle, e.isInstruction = false) (hback : b ≤ a) :
    ∃ i, m.linked.code[a]? = some i ∧
      ((∃ answer, .poll answer ∈ middle) ↔
        ¬i.IsSilentBranch ∨ m.period ∣ front.countP Event.isInstruction + 2) := by
  have hcountdown := Machine.countdown_of_start hr
  have hpos : 1 ≤ r.countdown := hcountdown ▸ Machine.period_pos _
  have hdone : (m.watchedBy hook).period ∣ r.countdown + 0 := hcountdown ▸ Nat.dvd_refl _
  have hasked := Machine.asked_iff_of_history_eq rfl hpos (Nat.le_of_eq hcountdown) hdone h hmiddle hback
  rwa [Nat.zero_add] at hasked

namespace Event

def ofOutline : Nat ⊕ Bool → Event R
  | .inl address => instruction address
  | .inr answer => poll answer

theorem eq_map_ofOutline {events : List (Event R)} {outline : List (Nat ⊕ Bool)}
    (h : events.map outline? = outline.map some) : events = outline.map ofOutline := by
  induction events generalizing outline with
  | nil =>
      obtain rfl := List.map_eq_nil_iff.mp h.symm
      rfl
  | cons e events ih =>
      cases outline with
      | nil => cases h
      | cons x outline =>
          obtain ⟨hx, hrest⟩ := List.cons.inj h
          rw [ih hrest, List.map_cons]
          congr 1
          cases e <;> cases hx <;> rfl

end Event

def Hook.patient : Hook Unit :=
  fun w => (false, w)

/-- An IFNOT that goes back does not ask the hook. -/
theorem not_asked_before_ifNot_back :
    ∃ (m : Machine Float Unit) (r : Registers Float) (front middle back : List (Event Float))
      (a b : Nat),
      ({} : Machine Float Unit).load "MAIN:\nA:\n PUSH X\n LIT 1\n POP X\n IFNOT A\n" = .ok m ∧
      (m.watchedBy Hook.patient).start Script.entry = .ok r ∧
      (m.watchedBy Hook.patient).history 9 r () =
        front ++ .instruction a :: (middle ++ .instruction b :: back) ∧
      (∀ e ∈ middle, e.isInstruction = false) ∧ b ≤ a ∧ ¬∃ answer, .poll answer ∈ middle := by
  have hrun : (({} : Machine Float Unit).watchedHistory? Hook.patient
      "MAIN:\nA:\n PUSH X\n LIT 1\n POP X\n IFNOT A\n" 9 ()).map (List.map Event.outline?) =
      some ([.inl 0, .inl 1, .inl 2, .inl 3, .inl 0, .inl 1, .inl 2, .inl 3].map some) := by
    decide +kernel
  obtain ⟨events, hevents, houtline⟩ := Option.map_eq_some_iff.mp hrun
  obtain ⟨linked, r, hload, hstart, hhistory⟩ := Machine.watchedHistory?_eq_some hevents
  rw [Event.eq_map_ofOutline houtline] at hhistory
  refine ⟨_, r, [.instruction 0, .instruction 1, .instruction 2], [],
    [.instruction 1, .instruction 2, .instruction 3], 3, 0, hload, hstart, hhistory, ?_, ?_, ?_⟩
  · rintro e ⟨⟩
  · decide
  · rintro ⟨answer, ⟨⟩⟩

/-- A JUMP that goes back asks it. -/
theorem asked_before_jump_back :
    ∃ (m : Machine Float Unit) (r : Registers Float),
      ({} : Machine Float Unit).load
        "MAIN:\nA:\n PUSH X\n IFNOT B\n END\nB:\n LIT 1\n POP X\n JUMP A\n" = .ok m ∧
      (m.watchedBy Hook.patient).start Script.entry = .ok r ∧
      (m.watchedBy Hook.patient).history 9 r () =
        [.instruction 0, .instruction 1, .instruction 3, .instruction 4] ++
          .instruction 5 :: ([.poll false] ++ .instruction 0 :: [.instruction 1, .instruction 2]) ∧
      (∀ e ∈ [(.poll false : Event Float)], e.isInstruction = false) ∧ 0 ≤ 5 ∧
      ∃ i, m.linked.code[5]? = some i ∧
        ((∃ answer, .poll answer ∈ [(.poll false : Event Float)]) ↔
          ¬i.IsSilentBranch ∨ m.period ∣ 6) := by
  have hrun : (({} : Machine Float Unit).watchedHistory? Hook.patient
      "MAIN:\nA:\n PUSH X\n IFNOT B\n END\nB:\n LIT 1\n POP X\n JUMP A\n" 9 ()).map
        (List.map Event.outline?) =
      some ([.inl 0, .inl 1, .inl 3, .inl 4, .inl 5, .inr false, .inl 0, .inl 1, .inl 2].map
        some) := by
    decide +kernel
  obtain ⟨events, hevents, houtline⟩ := Option.map_eq_some_iff.mp hrun
  obtain ⟨linked, r, hload, hstart, hhistory⟩ := Machine.watchedHistory?_eq_some hevents
  rw [Event.eq_map_ofOutline houtline] at hhistory
  have hmiddle : ∀ e ∈ [(.poll false : Event Float)], e.isInstruction = false := by
    simp [Event.isInstruction]
  exact ⟨_, r, hload, hstart, hhistory, hmiddle, by decide,
    asked_before_going_back_iff _ Hook.patient Script.entry r hstart 9 ()
      [.instruction 0, .instruction 1, .instruction 3, .instruction 4] [.poll false]
      [.instruction 1, .instruction 2] 5 0 hhistory hmiddle (by decide)⟩

end LineBasic
