import LineBasic.Proofs.Acceptance
import LineBasic.Proofs.History

namespace LineBasic

variable {R W V : Type}

namespace Machine

def watchedBy (hook : Hook W) (m : Machine R W) : Machine R W :=
  { m with hook := some hook }

def unwatched (m : Machine R W) : Machine R W :=
  { m with hook := none }

/-- The natives of a machine do not depend on a hook: they see and change but a part of the world, and the hook leaves that
part as it is. -/
structure Ignores (m : Machine R W) (hook : Hook W) (view : W → V) : Prop where
  view_hook : ∀ w, view (hook w).2 = view w
  native : ∀ (name : String) (native : Native R W), m.natives[name]? = some native →
    ∀ args w u, view w = view u → (native args w).1 = (native args u).1 ∧
      view (native args w).2 = view (native args u).2

end Machine

/-- What a watched run has come to and what has happened, and the same of the run without a hook: the runs have done the
same, or the hook has just broken the one and the other has gone on. -/
inductive Abreast (view : W → V) (p : Progress R) (w : W) (l : List (Event R)) (q : Progress R)
    (u : W) (l' : List (Event R)) : Prop where
  | together (hp : p = q) (hview : view w = view u) (hquiet : .poll true ∉ l)
      (hcalls : Event.calls l = Event.calls l')
  | broken (front : List (Event R)) (r : Registers R) (hl : l = front ++ [.poll true])
      (hquiet : .poll true ∉ front) (hp : p = r.fail { code := .break })
      (hcalls : Event.calls front <+: Event.calls l')

namespace Abreast

variable {view : W → V} {p q : Progress R} {w u : W} {l l' : List (Event R)}

theorem append_left (h : Abreast view p w l q u l') {front front' : List (Event R)}
    (hquiet : .poll true ∉ front) (hcalls : Event.calls front = Event.calls front') :
    Abreast view p w (front ++ l) q u (front' ++ l') := by
  cases h with
  | together hp hview hquiet' hcalls' =>
      refine .together hp hview ?_ ?_
      · simp [hquiet, hquiet']
      · simp [hcalls, hcalls']
  | broken middle r hl hquiet' hp hcalls' =>
      refine .broken (front ++ middle) r ?_ ?_ hp ?_
      · rw [hl, List.append_assoc]
      · simp [hquiet, hquiet']
      · simpa [hcalls] using hcalls'

theorem calls_prefix (h : Abreast view p w l q u l') : Event.calls l <+: Event.calls l' := by
  cases h with
  | together hp hview hquiet hcalls => exact hcalls ▸ List.prefix_rfl
  | broken front r hl hquiet hp hcalls =>
      have hfront : Event.calls l = Event.calls front := by
        rw [hl, Event.calls_append]
        exact List.append_nil _
      exact hfront ▸ hcalls

theorem of_quiet (h : Abreast view p w l q u l') (hquiet : .poll true ∉ l) :
    p = q ∧ view w = view u ∧ Event.calls l = Event.calls l' := by
  cases h with
  | together hp hview hquiet' hcalls => exact ⟨hp, hview, hcalls⟩
  | broken front r hl hquiet' hp hcalls =>
      rw [hl] at hquiet
      exact absurd (List.mem_append_right front (List.mem_singleton_self _)) hquiet

theorem of_poll (h : Abreast view p w l q u l') {front back : List (Event R)}
    (hsplit : l = front ++ .poll true :: back) :
    back = [] ∧ ∃ r : Registers R, p = r.fail { code := .break } := by
  cases h with
  | together hp hview hquiet hcalls =>
      rw [hsplit] at hquiet
      exact absurd (List.mem_append_right front List.mem_cons_self) hquiet
  | broken front' r hl hquiet hp hcalls =>
      refine ⟨?_, r, hp⟩
      rw [hl] at hsplit
      cases back with
      | nil => rfl
      | cons e back =>
          -- what stands before the last event would hold the answer
          have hinit := congrArg List.dropLast hsplit
          rw [List.dropLast_concat, List.dropLast_append_of_ne_nil (List.cons_ne_nil _ _),
            List.dropLast_cons_cons] at hinit
          rw [hinit] at hquiet
          exact absurd (List.mem_append_right front List.mem_cons_self) hquiet

end Abreast

namespace Machine

variable {m : Machine R W} {hook : Hook W} {view : W → V} {w u : W}

theorem abreast_polling (h : m.Ignores hook view) (hview : view w = view u) (r : Registers R)
    (p : Progress R) :
    Abreast view ((m.watchedBy hook).polling r w p).1 ((m.watchedBy hook).polling r w p).2
      ((m.watchedBy hook).pollEvents w) p u [] := by
  have hhook := h.view_hook w
  have hevents : (m.watchedBy hook).pollEvents w = [.poll (hook w).1] := rfl
  have hpoll : (m.watchedBy hook).poll w = hook w := rfl
  rw [hevents, polling, hpoll]
  rcases hasked : hook w with ⟨_ | _, w'⟩
  · rw [hasked] at hhook
    exact .together rfl (hhook.trans hview) (by simp) rfl
  · exact .broken [] r rfl (by simp) rfl List.nil_prefix

theorem abreast_answering (h : m.Ignores hook view) (hview : view w = view u) (name : String)
    (args : List (Value R)) (keep : Value R → Progress R) (r : Registers R) :
    Abreast view (m.answering name args keep r w).1 (m.answering name args keep r w).2
      (if m.natives.contains name then [.call { name, args }] else [])
      (m.answering name args keep r u).1 (m.answering name args keep r u).2
      (if m.natives.contains name then [.call { name, args }] else []) := by
  have hquiet : (Event.poll true : Event R) ∉
      if m.natives.contains name then [.call { name, args }] else [] := by
    split <;> simp
  unfold answering
  cases hnative : m.natives[name]? with
  | none => exact .together rfl hview hquiet rfl
  | some native =>
      obtain ⟨hanswer, hview'⟩ := h.native name native hnative args w u hview
      dsimp only
      rcases hw : native args w with ⟨answer, w'⟩
      rcases hu : native args u with ⟨answer', u'⟩
      rw [hw, hu] at hanswer hview'
      obtain rfl : answer = answer' := hanswer
      cases answer <;> exact .together rfl hview' hquiet rfl

variable [NumberSystem R]

theorem abreast_execute (h : m.Ignores hook view) (hview : view w = view u)
    (i : Instruction R Nat) (r : Registers R) :
    Abreast view ((m.watchedBy hook).execute i r w).1 ((m.watchedBy hook).execute i r w).2
      ((m.watchedBy hook).actEvents i r w) (m.unwatched.execute i r u).1
      (m.unwatched.execute i r u).2 (m.unwatched.actEvents i r u) := by
  rw [actEvents, actEvents]
  cases i.acts r with
  | alone p hp hexecute =>
      rw [hexecute, hexecute, hexecute, hexecute]
      exact .together rfl hview (by simp) rfl
  | asking r' p hi hp hexecute =>
      rw [hexecute, hexecute, hexecute, hexecute, polling_recording, polling_recording]
      exact abreast_polling h hview r' p
  | calling name args keep r' hkeep hexecute =>
      rw [hexecute, hexecute, hexecute, hexecute, answering_recording, answering_recording]
      exact abreast_answering h hview name args keep r'

theorem abreast_step (h : m.Ignores hook view) (hview : view w = view u) (r : Registers R) :
    Abreast view ((m.watchedBy hook).step r w).1 ((m.watchedBy hook).step r w).2
      ((m.watchedBy hook).stepEvents r w) (m.unwatched.step r u).1 (m.unwatched.step r u).2
      (m.unwatched.stepEvents r u) := by
  have hcode : (m.watchedBy hook).linked.code[r.address]? =
      m.unwatched.linked.code[r.address]? := rfl
  have hmark : (Event.poll true : Event R) ∉ [.instruction r.address] := by simp
  rw [step, stepEvents, step, stepEvents, hcode]
  cases m.unwatched.linked.code[r.address]? with
  | none => exact .together rfl hview (by simp) rfl
  | some i =>
      dsimp only
      split
      · have hpoll : (m.watchedBy hook).poll w = hook w := rfl
        have hevents : (m.watchedBy hook).pollEvents w = [.poll (hook w).1] := rfl
        have hhook := h.view_hook w
        rw [hpoll, hevents]
        rcases hasked : hook w with ⟨_ | _, w'⟩
        · rw [hasked] at hhook
          have hact := abreast_execute h (hhook.trans hview) i { r with countdown := m.period }
          refine (hact.append_left hmark rfl).append_left ?_ rfl
          simp
        · exact .broken [] _ rfl (by simp) rfl List.nil_prefix
      · exact (abreast_execute h hview i _).append_left hmark rfl

theorem abreast_history (h : m.Ignores hook view) (hview : view w = view u) (fuel : Nat)
    (r : Registers R) :
    Abreast view ((m.watchedBy hook).advance fuel r w).1 ((m.watchedBy hook).advance fuel r w).2
      ((m.watchedBy hook).history fuel r w) (m.unwatched.advance fuel r u).1
      (m.unwatched.advance fuel r u).2 (m.unwatched.history fuel r u) := by
  induction fuel generalizing r w u with
  | zero => exact .together rfl hview (by simp [history]) rfl
  | succ fuel ih =>
      have hstep := abreast_step h hview r
      rw [advance, history, advance, history]
      rcases hw : (m.watchedBy hook).step r w with ⟨p, w'⟩
      rcases hu : m.unwatched.step r u with ⟨q, u'⟩
      rw [hw, hu] at hstep
      cases hstep with
      | together hp hview' hquiet hcalls =>
          obtain rfl : p = q := hp
          cases p with
          | running r' => exact (ih hview' r').append_left hquiet hcalls
          | ended ending r' =>
              rw [List.append_nil, List.append_nil]
              exact .together rfl hview' hquiet hcalls
      | broken front r' hl hquiet hp hcalls =>
          obtain rfl : p = r'.fail { code := .break } := hp
          refine .broken front r' ?_ hquiet rfl ?_
          · rw [hl]
            exact List.append_nil _
          · rw [Event.calls_append]
            exact hcalls.trans (List.prefix_append _ _)

end Machine

namespace Event

/-- At most `left` instructions come before the first poll, and at most `period` from each poll to the next. -/
def Spaced (period : Nat) : Nat → List (Event R) → Prop
  | _, [] => True
  | _, .poll _ :: events => Spaced period period events
  | left, .instruction _ :: events => 0 < left ∧ Spaced period (left - 1) events
  | left, .call _ :: events => Spaced period left events

variable {period left left' : Nat} {events events' : List (Event R)}

theorem Spaced.mono (h : Spaced period left events) (hle : left ≤ left') :
    Spaced period left' events := by
  induction events generalizing left left' with
  | nil => trivial
  | cons e events ih =>
      cases e with
      | poll answer => exact h
      | instruction address => exact ⟨Nat.lt_of_lt_of_le h.1 hle, ih h.2 (by omega)⟩
      | call c => exact ih h hle

theorem Spaced.append_left (h : Spaced period left events) (hle : left ≤ period)
    (hnone : ∀ e ∈ events', e.isInstruction = false) : Spaced period left (events' ++ events) := by
  induction events' generalizing left with
  | nil => exact h
  | cons e events' ih =>
      rw [List.forall_mem_cons] at hnone
      cases e with
      | poll answer => exact ih (h.mono hle) (Nat.le_refl period) hnone.2
      | instruction address => cases hnone.1
      | call c => exact ih h hle hnone.2

theorem Spaced.of_append (h : Spaced period left (events' ++ events)) (hle : left ≤ period) :
    ∃ left' ≤ period, Spaced period left' events := by
  induction events' generalizing left with
  | nil => exact ⟨left, hle, h⟩
  | cons e events' ih =>
      cases e with
      | poll answer => exact ih h (Nat.le_refl period)
      | instruction address => exact ih h.2 (by omega)
      | call c => exact ih h hle

theorem Spaced.countP_le {stretch : List (Event R)} (h : Spaced period left (stretch ++ events))
    (hquiet : ∀ answer, .poll answer ∉ stretch) : stretch.countP isInstruction ≤ left := by
  induction stretch generalizing left with
  | nil => exact Nat.zero_le left
  | cons e stretch ih =>
      have hquiet' : ∀ answer, (.poll answer : Event R) ∉ stretch := fun answer hmem =>
        hquiet answer (List.mem_cons_of_mem e hmem)
      cases e with
      | poll answer => exact absurd List.mem_cons_self (hquiet answer)
      | instruction address =>
          have hcount := ih h.2 hquiet'
          have hpos : 0 < left := h.1
          rw [List.countP_cons_of_pos rfl]
          omega
      | call c =>
          rw [List.countP_cons_of_neg (by rintro ⟨⟩)]
          exact ih h hquiet'

end Event

namespace Machine

variable [NumberSystem R] {m : Machine R W} {hook : Hook W}

theorem spaced_history (hhook : m.hook = some hook) (fuel : Nat) {r : Registers R}
    (hr : r.countdown ≤ m.period) (w : W) :
    Event.Spaced m.period (r.countdown - 1) (m.history fuel r w) := by
  induction fuel generalizing r w with
  | zero => trivial
  | succ fuel ih =>
      have hpos := m.period_pos
      have hsteps := steps hhook r w
      rw [history]
      generalize m.stepEvents r w = events at hsteps
      generalize m.step r w = next at hsteps
      obtain ⟨p, w'⟩ := next
      cases hsteps with
      | ended => trivial
      | broken => trivial
      | @executed due acts _ i hi hdue hacts hp =>
          -- the instruction and what it does, and whatever is executed later
          have hrest {left : Nat} (hleft : left ≤ m.period) {later : List (Event R)}
              (hlater : Event.Spaced m.period left later) :
              Event.Spaced m.period left (acts ++ later) :=
            .append_left hlater hleft hacts
          subst hdue
          rw [List.append_assoc]
          cases p with
          | ended ending r' =>
              split
              · exact ⟨hpos, hrest (by omega) trivial⟩
              · exact ⟨by omega, hrest (by omega) trivial⟩
          | running r' =>
              obtain ⟨hcountdown, -⟩ := hp r' rfl
              split
              · rename_i hdue
                rw [if_pos hdue] at hcountdown
                exact ⟨hpos, hrest (by omega) ((ih (by omega) w').mono (by omega))⟩
              · rename_i hdue
                rw [if_neg hdue] at hcountdown
                exact ⟨by omega, hrest (by omega) ((ih (by omega) w').mono (by omega))⟩

end Machine

/-- Let the natives of a machine not depend on a hook, and let a run from any entry label be watched by the hook. Its native
calls are a prefix of those that the run makes without a hook. As long as the hook has not answered true, both runs come to
the same registers or to the same end, after the same calls. When it does, the run is over at once with BREAK. No more than a
period of instructions is executed before the first poll, or from one poll to the next. -/
theorem watched_run [NumberSystem R] (m : Machine R W) (hook : Hook W) (view : W → V)
    (h : m.Ignores hook view) (entry : String) :
    (m.watchedBy hook).start entry = m.unwatched.start entry ∧
      ∀ r, (m.watchedBy hook).start entry = .ok r → ∀ fuel w,
        let history := (m.watchedBy hook).history fuel r w
        let free := m.unwatched.history fuel r w
        Event.calls history <+: Event.calls free ∧
          (.poll true ∉ history →
            ((m.watchedBy hook).advance fuel r w).1 = (m.unwatched.advance fuel r w).1 ∧
              view ((m.watchedBy hook).advance fuel r w).2 = view (m.unwatched.advance fuel r w).2 ∧
              Event.calls history = Event.calls free) ∧
          (∀ front back, history = front ++ .poll true :: back →
            back = [] ∧ ∃ r' : Registers R,
              ((m.watchedBy hook).advance fuel r w).1 = r'.fail { code := .break }) ∧
          ∀ front stretch back, history = front ++ stretch ++ back →
            (∀ answer, .poll answer ∉ stretch) → stretch.countP Event.isInstruction ≤ m.period := by
  refine ⟨rfl, fun r hr fuel w => ?_⟩
  intro history free
  have hcountdown : r.countdown = m.period := Machine.countdown_of_start hr
  have habreast := Machine.abreast_history h (w := w) rfl fuel r
  refine ⟨habreast.calls_prefix, habreast.of_quiet,
    fun front back hsplit => habreast.of_poll hsplit, ?_⟩
  intro front stretch back hsplit hquiet
  have hspaced := Machine.spaced_history (m := m.watchedBy hook) rfl fuel
    (Nat.le_of_eq hcountdown) w
  rw [show (m.watchedBy hook).history fuel r w = _ from hsplit, List.append_assoc] at hspaced
  obtain ⟨left, hleft, hstretch⟩ := hspaced.of_append (by
    rw [hcountdown]
    exact Nat.sub_le _ _)
  exact Nat.le_trans (hstretch.countP_le hquiet) hleft

/-- What of an event can be compared: all but what is called. -/
def Event.outline? : Event R → Option (Nat ⊕ Bool)
  | .poll answer => some (.inr answer)
  | .instruction address => some (.inl address)
  | .call _ => none

/-- The history of a script on a machine that loads it and is watched by a hook. -/
def Machine.watchedHistory? (m : Machine Float W) (hook : Hook W) (script : String) (fuel : Nat)
    (w : W) : Option (List (Event Float)) := do
  let m ← (m.load script).toOption
  let r ← ((m.watchedBy hook).start Script.entry).toOption
  some ((m.watchedBy hook).history fuel r w)

theorem Machine.watchedHistory?_eq_some {m : Machine Float W} {hook : Hook W} {script : String}
    {fuel : Nat} {w : W} {events : List (Event Float)}
    (h : m.watchedHistory? hook script fuel w = some events) :
    ∃ linked r, m.load script = .ok { m with linked } ∧
      (({ m with linked } : Machine Float W).watchedBy hook).start Script.entry = .ok r ∧
      (({ m with linked } : Machine Float W).watchedBy hook).history fuel r w = events := by
  simp only [watchedHistory?, Option.bind_eq_bind, Option.bind_eq_some_iff] at h
  obtain ⟨m', hload, r, hstart, hevents⟩ := h
  have hload := eq_ok_of_toOption hload
  have hlinked : ∃ linked, m' = { m with linked } := by
    unfold load at hload
    cases hread : Script.read (R := Float) script with
    | error e =>
        rw [hread] at hload
        cases hload
    | ok code =>
        rw [hread] at hload
        cases hlink : LinkedCode.link code with
        | error e =>
            change (LinkedCode.link code >>= _) = _ at hload
            rw [hlink] at hload
            cases hload
        | ok linked =>
            change (LinkedCode.link code >>= _) = _ at hload
            rw [hlink] at hload
            cases hload
            exact ⟨linked, rfl⟩
  obtain ⟨linked, rfl⟩ := hlinked
  exact ⟨linked, r, hload, eq_ok_of_toOption hstart, Option.some.inj hevents⟩

/-- A native that counts its calls, in a world with the numbers of polls and of calls. -/
def Machine.counting : Machine Float (Nat × Nat) :=
  ({} : Machine Float (Nat × Nat)).bind "BEEP" fun _ w => (.value (.ofBool false), (w.1, w.2 + 1))

/-- A hook that answers true for the third time it is asked, and counts. -/
def Hook.third : Hook (Nat × Nat) :=
  fun w => (w.1 == 2, (w.1 + 1, w.2))

/-- An endless loop is broken at the third poll. -/
theorem watched_run_third :
    ∃ (m : Machine Float (Nat × Nat)) (r : Registers Float),
      Machine.counting.load "MAIN:\nA:\n EXEC BEEP 0\n JUMP A\n" = .ok m ∧
      m.Ignores Hook.third Prod.snd ∧ (m.watchedBy Hook.third).start Script.entry = .ok r ∧
      Event.calls ((m.watchedBy Hook.third).history 20 r (0, 0)) <+:
        Event.calls (m.unwatched.history 20 r (0, 0)) ∧
      ∃ r' : Registers Float,
        ((m.watchedBy Hook.third).advance 20 r (0, 0)).1 = r'.fail { code := .break } := by
  have hrun : (Machine.counting.watchedHistory? Hook.third
      "MAIN:\nA:\n EXEC BEEP 0\n JUMP A\n" 20 (0, 0)).map (List.map Event.outline?) =
      some [some (.inl 0), none, some (.inl 1), some (.inr false),
        some (.inl 0), none, some (.inl 1), some (.inr false),
        some (.inl 0), none, some (.inl 1), some (.inr true)] := by
    decide +kernel
  obtain ⟨events, hevents, houtline⟩ := Option.map_eq_some_iff.mp hrun
  obtain ⟨linked, r, hload, hstart, hhistory⟩ := Machine.watchedHistory?_eq_some hevents
  have hignores : ({ Machine.counting with linked } : Machine Float (Nat × Nat)).Ignores
      Hook.third Prod.snd := by
    refine ⟨fun w => rfl, fun name native hnative args w u hview => ?_⟩
    rw [Machine.counting, Machine.bind, Std.TreeMap.getElem?_insert] at hnative
    split at hnative
    · cases hnative
      exact ⟨rfl, congrArg (· + 1) hview⟩
    · rw [Std.TreeMap.getElem?_emptyc] at hnative
      cases hnative
  obtain ⟨-, hruns⟩ := watched_run _ Hook.third Prod.snd hignores Script.entry
  obtain ⟨hcalls, -, hbreak, -⟩ := hruns r hstart 20 (0, 0)
  have htrue : Event.poll true ∈ events := by
    have hmem : some (.inr true) ∈ events.map Event.outline? := by simp [houtline]
    obtain ⟨e, he, hshape⟩ := List.mem_map.mp hmem
    cases e with
    | poll answer =>
        cases hshape
        exact he
    | instruction address => cases hshape
    | call c => cases hshape
  rw [← hhistory] at htrue
  obtain ⟨front, back, hsplit⟩ := List.append_of_mem htrue
  exact ⟨_, r, hload, hignores, hstart, hcalls, (hbreak front back hsplit).2⟩

end LineBasic
