import LineBasic.Proofs.Trace

namespace LineBasic

variable {R W : Type}

inductive Event (R : Type) where
  | poll (answer : Bool)
  | instruction (address : Nat)
  | call (c : NativeCall R)

abbrev Recorded (R W : Type) := W × List (Event R)

def Native.recording (name : String) (native : Native R W) : Native R (Recorded R W) :=
  fun args w =>
    let (answer, world) := native args w.1
    (answer, (world, w.2 ++ [.call { name, args }]))

def Hook.recording (hook : Hook W) : Hook (Recorded R W) :=
  fun w =>
    let (answer, world) := hook w.1
    (answer, (world, w.2 ++ [.poll answer]))

namespace Event

def isInstruction : Event R → Bool
  | instruction _ => true
  | _ => false

def call? : Event R → Option (NativeCall R)
  | call c => some c
  | _ => none

def calls (events : List (Event R)) : List (NativeCall R) :=
  events.filterMap call?

/-- What natives and a hook notice of what happens. -/
def outside (events : List (Event R)) : List (Event R) :=
  events.filter fun e => !e.isInstruction

@[simp] theorem calls_append (events events' : List (Event R)) :
    calls (events ++ events') = calls events ++ calls events' :=
  List.filterMap_append

@[simp] theorem outside_append (events events' : List (Event R)) :
    outside (events ++ events') = outside events ++ outside events' :=
  List.filter_append ..

@[simp] theorem outside_instruction (address : Nat) (events : List (Event R)) :
    outside (instruction address :: events) = outside events :=
  rfl

theorem outside_eq_self {events : List (Event R)} (h : ∀ e ∈ events, e.isInstruction = false) :
    outside events = events := by
  rw [outside, List.filter_eq_self]
  intro e he
  rw [h e he]
  rfl

end Event

namespace Instruction

/-- A branch that never asks the hook. -/
def IsSilentBranch (i : Instruction R Nat) : Prop :=
  i = .return ∨ ∃ target, i = .ifNot target

end Instruction

/-- How a run goes on behind an instruction: with the same countdown, and back only under a condition. -/
def Progress.Continues (r : Registers R) (back : Prop) : Progress R → Prop
  | .running r' => r'.countdown = r.countdown ∧ (r'.address ≤ r.address → back)
  | .ended _ _ => True

namespace Progress

variable {r r' : Registers R} {back : Prop}

theorem continues_ended (ending : Ending) (r' : Registers R) :
    (ended ending r').Continues r back :=
  trivial

theorem continues_fail (e : Error) (r' : Registers R) : (r'.fail e).Continues r back :=
  trivial

theorem continues_forward (hcountdown : r'.countdown = r.countdown)
    (haddress : r'.address = r.address + 1) : (running r').Continues r back := by
  refine ⟨hcountdown, fun hle => ?_⟩
  omega

theorem continues_pushing (v : Value R) (hcountdown : r'.countdown = r.countdown)
    (haddress : r'.address = r.address + 1) : (r'.pushing v).Continues r back := by
  unfold Registers.pushing
  split
  · exact continues_forward hcountdown haddress
  · exact continues_fail _ _

theorem continues_pushingResult (result : Except Error (Value R))
    (hcountdown : r'.countdown = r.countdown) (haddress : r'.address = r.address + 1) :
    (r'.pushingResult result).Continues r back := by
  cases result with
  | ok v => exact continues_pushing v hcountdown haddress
  | error e => exact continues_fail _ _

end Progress

namespace Machine

def answering (m : Machine R W) (name : String) (args : List (Value R))
    (keep : Value R → Progress R) (r : Registers R) (w : W) : Progress R × W :=
  match m.natives[name]? with
  | none => (r.fail (ErrorCode.undefinedFunction.error name), w)
  | some native =>
      match native args w with
      | (.value v, w) => (keep v, w)
      | (.error e, w) => (r.fail e, w)
      | (.panic, w) => (.ended .panicked r, w)

theorem callNative_of_ok {m : Machine R W} {name : String} {count : Nat}
    {keep : Value R → Registers R → Progress R} {r : Registers R} {args : List (Value R)}
    {stack : Stack (Value R)} (h : r.stack.popN count = (.ok args, stack)) (w : W) :
    m.callNative name count keep r w =
      m.answering name args (fun v => keep v { r with stack }.forward) { r with stack } w := by
  rw [callNative, h]
  rfl

/-- The machine with natives and a hook that record what happens. -/
def recording (m : Machine R W) : Machine R (Recorded R W) where
  linked := m.linked
  natives := m.natives.map Native.recording
  hook := m.hook.map Hook.recording
  interval := m.interval

def pollEvents (m : Machine R W) (w : W) : List (Event R) :=
  match m.hook with
  | some hook => [.poll (hook w).1]
  | none => []

theorem isInstruction_of_mem_pollEvents {m : Machine R W} {w : W} {e : Event R}
    (he : e ∈ m.pollEvents w) : e.isInstruction = false := by
  unfold pollEvents at he
  split at he
  · rw [List.mem_singleton] at he
    rw [he]
    rfl
  · cases he

theorem natives_recording (m : Machine R W) (name : String) :
    m.recording.natives[name]? = (m.natives[name]?).map (Native.recording name) := by
  rw [recording, Std.TreeMap.getElem?_map]

theorem poll_recording (m : Machine R W) (w : W) (l : List (Event R)) :
    m.recording.poll (w, l) = ((m.poll w).1, ((m.poll w).2, l ++ m.pollEvents w)) := by
  unfold poll recording pollEvents
  cases m.hook with
  | none => simp
  | some hook => rfl

theorem polling_recording (m : Machine R W) (r : Registers R) (w : W) (l : List (Event R))
    (p : Progress R) :
    m.recording.polling r (w, l) p =
      ((m.polling r w p).1, ((m.polling r w p).2, l ++ m.pollEvents w)) := by
  rw [polling, poll_recording, polling]
  rcases m.poll w with ⟨_ | _, w'⟩ <;> rfl

theorem answering_recording (m : Machine R W) (name : String) (args : List (Value R))
    (keep : Value R → Progress R) (r : Registers R) (w : W) (l : List (Event R)) :
    m.recording.answering name args keep r (w, l) =
      ((m.answering name args keep r w).1, ((m.answering name args keep r w).2,
        l ++ if m.natives.contains name then [.call { name, args }] else [])) := by
  rw [answering, natives_recording, answering, Std.TreeMap.contains_eq_isSome_getElem?]
  cases m.natives[name]? with
  | none => simp
  | some native =>
      simp only [Option.map_some, Native.recording]
      rcases native args w with ⟨_ | _ | _, w'⟩ <;> rfl

end Machine

variable [NumberSystem R]

/-- What an instruction does in given registers, on any machine and in any world. Only a branch that never asks the hook
goes back without asking it. -/
inductive Instruction.Acts (i : Instruction R Nat) (r : Registers R) : Prop where
  | alone (p : Progress R) (hp : p.Continues r i.IsSilentBranch)
      (h : ∀ {W : Type} (m : Machine R W) (w : W), m.execute i r w = (p, w))
  | asking (r' : Registers R) (p : Progress R) (hi : ¬i.IsSilentBranch) (hp : p.Continues r True)
      (h : ∀ {W : Type} (m : Machine R W) (w : W), m.execute i r w = m.polling r' w p)
  | calling (name : String) (args : List (Value R)) (keep : Value R → Progress R)
      (r' : Registers R) (hkeep : ∀ v, (keep v).Continues r False)
      (h : ∀ {W : Type} (m : Machine R W) (w : W),
        m.execute i r w = m.answering name args keep r' w)

namespace Instruction

variable {r : Registers R}

theorem acts_of_pollingBack {i : Instruction R Nat} (hi : ¬i.IsSilentBranch) (target : Nat)
    (p : Progress R)
    (hp : ∀ r', p = .running r' → r'.countdown = r.countdown ∧ r'.address = target)
    (h : ∀ {W : Type} (m : Machine R W) (w : W), m.execute i r w = m.pollingBack target r w p) :
    i.Acts r := by
  by_cases hback : target ≤ r.address
  · refine .asking r p hi ?_ fun m w => ?_
    · cases p with
      | running r' => exact ⟨(hp r' rfl).1, fun _ => trivial⟩
      | ended ending r' => trivial
    · rw [h, Machine.pollingBack, if_pos hback]
  · refine .alone p ?_ fun m w => ?_
    · cases p with
      | running r' =>
          refine ⟨(hp r' rfl).1, fun hle => absurd ?_ hback⟩
          rwa [← (hp r' rfl).2]
      | ended ending r' => trivial
    · rw [h, Machine.pollingBack, if_neg hback]

theorem acts_of_callNative {i : Instruction R Nat} {name : String} {count : Nat}
    {keep : Value R → Registers R → Progress R}
    (hkeep : ∀ v r', r'.countdown = r.countdown → r'.address = r.address + 1 →
      (keep v r').Continues r False)
    (h : ∀ {W : Type} (m : Machine R W) (w : W),
      m.execute i r w = m.callNative name count keep r w) : i.Acts r := by
  rcases hpop : r.stack.popN count with ⟨e | args, stack⟩
  · refine .alone ({ r with stack }.fail e) (Progress.continues_fail _ _) fun m w => ?_
    rw [h, Machine.callNative, hpop]
  · refine .calling name args (fun v => keep v { r with stack }.forward) { r with stack }
      (fun v => hkeep v _ rfl rfl) fun m w => ?_
    rw [h, Machine.callNative_of_ok hpop]

theorem acts_next (var limit step : String) (body : Nat) (r : Registers R) :
    (Instruction.next var limit step body : Instruction R Nat).Acts r := by
  obtain ⟨numbers, hnumbers⟩ : ∃ numbers : Except Error (R × R × R), (do
      let limit ← r.readNumber limit
      let step ← r.readNumber step
      return (limit, step, ← r.readNumber var)) = numbers := ⟨_, rfl⟩
  cases numbers with
  | error e =>
      refine .alone (r.fail e) (Progress.continues_fail _ _) fun m w => ?_
      rw [Machine.execute, Machine.loop, hnumbers]
  | ok numbers =>
      obtain ⟨bound, stride, value⟩ := numbers
      let stepped := r.assign var (.number (NumberSystem.add value stride))
      by_cases hmore : (if NumberSystem.atLeastZero stride then
          NumberSystem.atMost (NumberSystem.add value stride) bound
        else NumberSystem.atMost bound (NumberSystem.add value stride)) = true
      · refine .asking stepped (.running (stepped.goTo body)) ?_ ⟨rfl, fun _ => trivial⟩
          fun m w => ?_
        · rintro (h | ⟨_, h⟩) <;> cases h
        · rw [Machine.execute, Machine.loop, hnumbers]
          exact if_pos hmore
      · refine .alone (.running stepped.forward) (Progress.continues_forward rfl rfl)
          fun m w => ?_
        rw [Machine.execute, Machine.loop, hnumbers]
        exact if_neg hmore

theorem acts (i : Instruction R Nat) (r : Registers R) : i.Acts r := by
  cases i with
  | label name =>
      exact .alone (.running r.forward) (Progress.continues_forward rfl rfl) fun m w => rfl
  | line number =>
      exact .alone (.running { r.forward with line := some number })
        (Progress.continues_forward rfl rfl) fun m w => rfl
  | literal v =>
      exact .alone (r.forward.pushing v) (Progress.continues_pushing v rfl rfl) fun m w => rfl
  | push name =>
      exact .alone (r.forward.pushing (r.read name)) (Progress.continues_pushing _ rfl rfl)
        fun m w => rfl
  | pop name =>
      rcases hpop : r.stack.pop with ⟨e | v, stack⟩
      · refine .alone ({ r with stack }.fail e) (Progress.continues_fail _ _) fun m w => ?_
        rw [Machine.execute, hpop]
      · by_cases htype : v.type = ValueType.ofName name
        · refine .alone (.running ({ r with stack }.forward.assign name v))
            (Progress.continues_forward rfl rfl) fun m w => ?_
          rw [Machine.execute, hpop]
          exact if_pos htype
        · refine .alone ({ r with stack }.fail { code := .typeMismatch })
            (Progress.continues_fail _ _) fun m w => ?_
          rw [Machine.execute, hpop]
          exact if_neg htype
  | jump target =>
      refine acts_of_pollingBack ?_ target (.running (r.goTo target)) ?_ fun m w => rfl
      · rintro (h | ⟨_, h⟩) <;> cases h
      · rintro r' ⟨⟩
        exact ⟨rfl, rfl⟩
  | ifNot target =>
      rcases hpop : r.stack.pop with ⟨e | v, stack⟩
      · refine .alone ({ r with stack }.fail e) (Progress.continues_fail _ _) fun m w => ?_
        rw [Machine.execute, hpop]
      · rcases htrue : v.isTrue? with e | _ | _
        · refine .alone ({ r with stack }.fail e) (Progress.continues_fail _ _) fun m w => ?_
          rw [Machine.execute, hpop]
          dsimp only
          rw [htrue]
        · refine .alone (.running ({ r with stack }.goTo target))
            ⟨rfl, fun _ => .inr ⟨target, rfl⟩⟩ fun m w => ?_
          rw [Machine.execute, hpop]
          dsimp only
          rw [htrue]
        · refine .alone (.running { r with stack }.forward) (Progress.continues_forward rfl rfl)
            fun m w => ?_
          rw [Machine.execute, hpop]
          dsimp only
          rw [htrue]
  | gosub target =>
      cases hpush : r.returns.push (r.address + 1) with
      | ok returns =>
          refine acts_of_pollingBack ?_ target (.running { r.goTo target with returns }) ?_
            fun m w => ?_
          · rintro (h | ⟨_, h⟩) <;> cases h
          · rintro r' ⟨⟩
            exact ⟨rfl, rfl⟩
          · rw [Machine.execute, hpush]
      | error e =>
          refine acts_of_pollingBack ?_ target (r.fail e) ?_ fun m w => ?_
          · rintro (h | ⟨_, h⟩) <;> cases h
          · rintro r' ⟨⟩
          · rw [Machine.execute, hpush]
  | «return» =>
      rcases hpop : r.returns.pop with ⟨e | address, returns⟩
      · refine .alone ({ r with returns }.fail { code := .returnWithoutGosub })
          (Progress.continues_fail _ _) fun m w => ?_
        rw [Machine.execute, hpop]
      · refine .alone (.running { r.goTo address with returns }) ⟨rfl, fun _ => .inl rfl⟩
          fun m w => ?_
        rw [Machine.execute, hpop]
  | next var limit step body => exact acts_next var limit step body r
  | «end» => exact .alone (.ended .finished r) (Progress.continues_ended _ _) fun m w => rfl
  | call name count =>
      exact acts_of_callNative (fun v r' => Progress.continues_pushing v) fun m w => rfl
  | exec name count =>
      exact acts_of_callNative (fun v r' => Progress.continues_forward) fun m w => rfl
  | unary op =>
      rcases hpop : r.stack.pop with ⟨e | v, stack⟩
      · refine .alone ({ r with stack }.fail e) (Progress.continues_fail _ _) fun m w => ?_
        rw [Machine.execute, hpop]
      · refine .alone ({ r.forward with stack }.pushingResult (op.apply v)) ?_ fun m w => ?_
        · apply Progress.continues_pushingResult <;> rfl
        · rw [Machine.execute, hpop]
  | binary op =>
      rcases hpop : r.stack.pop2 with ⟨e | ⟨x, y⟩, stack⟩
      · refine .alone ({ r with stack }.fail e) (Progress.continues_fail _ _) fun m w => ?_
        rw [Machine.execute, hpop]
      · refine .alone ({ r.forward with stack }.pushingResult (op.apply x y)) ?_ fun m w => ?_
        · apply Progress.continues_pushingResult <;> rfl
        · rw [Machine.execute, hpop]

end Instruction

namespace Machine

/-- What an instruction does that can be seen from outside. -/
def actEvents (m : Machine R W) (i : Instruction R Nat) (r : Registers R) (w : W) :
    List (Event R) :=
  (m.recording.execute i r (w, [])).2.2

def stepEvents (m : Machine R W) (r : Registers R) (w : W) : List (Event R) :=
  match m.linked.code[r.address]? with
  | none => []
  | some i =>
      if r.countdown ≤ 1 then
        m.pollEvents w ++
          match m.poll w with
          | (true, _) => []
          | (false, w) =>
              .instruction r.address :: m.actEvents i { r with countdown := m.period } w
      else .instruction r.address :: m.actEvents i { r with countdown := r.countdown - 1 } w

/-- What happens in at most `fuel` steps. -/
def history (m : Machine R W) : Nat → Registers R → W → List (Event R)
  | 0, _, _ => []
  | fuel + 1, r, w =>
      m.stepEvents r w ++
        match m.step r w with
        | (.running r, w) => m.history fuel r w
        | (.ended _ _, _) => []

theorem execute_recording (m : Machine R W) (i : Instruction R Nat) (r : Registers R) (w : W)
    (l : List (Event R)) :
    m.recording.execute i r (w, l) =
      ((m.execute i r w).1, ((m.execute i r w).2, l ++ m.actEvents i r w)) := by
  rw [actEvents]
  cases i.acts r with
  | alone p hp h =>
      rw [h, h, h]
      simp
  | asking r' p hi hp h =>
      rw [h, h, h, polling_recording, polling_recording]
      simp
  | calling name args keep r' hkeep h =>
      rw [h, h, h, answering_recording, answering_recording]
      simp

theorem isInstruction_of_mem_actEvents {m : Machine R W} {i : Instruction R Nat}
    {r : Registers R} {w : W} {e : Event R} (he : e ∈ m.actEvents i r w) :
    e.isInstruction = false := by
  rw [actEvents] at he
  cases i.acts r with
  | alone p hp h =>
      rw [h] at he
      cases he
  | asking r' p hi hp h =>
      rw [h, polling_recording] at he
      exact isInstruction_of_mem_pollEvents he
  | calling name args keep r' hkeep h =>
      rw [h, answering_recording] at he
      dsimp only at he
      split at he
      · rw [List.nil_append, List.mem_singleton] at he
        rw [he]
        rfl
      · cases he

theorem step_recording (m : Machine R W) (r : Registers R) (w : W) (l : List (Event R)) :
    m.recording.step r (w, l) =
      ((m.step r w).1, ((m.step r w).2, l ++ Event.outside (m.stepEvents r w))) := by
  have hcode : m.recording.linked.code[r.address]? = m.linked.code[r.address]? := rfl
  have hact (i : Instruction R Nat) (r : Registers R) (w : W) :
      Event.outside (m.actEvents i r w) = m.actEvents i r w :=
    Event.outside_eq_self fun e he => isInstruction_of_mem_actEvents he
  have hpoll : Event.outside (m.pollEvents w) = m.pollEvents w :=
    Event.outside_eq_self fun e he => isInstruction_of_mem_pollEvents he
  rw [step, hcode, step, stepEvents]
  cases m.linked.code[r.address]? with
  | none => simp [Event.outside]
  | some i =>
      dsimp only
      split
      · rw [poll_recording]
        rcases m.poll w with ⟨_ | _, w'⟩
        · dsimp only
          rw [execute_recording, Event.outside_append, Event.outside_instruction, hact, hpoll,
            List.append_assoc]
          rfl
        · rw [List.append_nil, hpoll]
          rfl
      · rw [execute_recording, Event.outside_instruction, hact]

/-- Natives and the hook of a machine notice its history but for the instructions, and recording changes nothing. -/
theorem advance_recording (m : Machine R W) (fuel : Nat) (r : Registers R) (w : W)
    (l : List (Event R)) :
    m.recording.advance fuel r (w, l) =
      ((m.advance fuel r w).1, ((m.advance fuel r w).2,
        l ++ Event.outside (m.history fuel r w))) := by
  induction fuel generalizing r w l with
  | zero => simp [advance, history, Event.outside]
  | succ fuel ih =>
      rw [advance, step_recording, advance, history, Event.outside_append]
      rcases m.step r w with ⟨r' | ⟨ending, r'⟩, w'⟩
      · dsimp only
        rw [ih, List.append_assoc]
      · simp [Event.outside]

/-- What can happen in a step under a hook, and how the run goes on. A run that goes back has asked the hook, unless the
branch is a silent one. -/
inductive Steps (m : Machine R W) (r : Registers R) : List (Event R) → Progress R → Prop where
  | ended {ending : Ending} {r' : Registers R} : Steps m r [] (.ended ending r')
  | broken {ending : Ending} {r' : Registers R} : Steps m r [.poll true] (.ended ending r')
  | executed {due acts : List (Event R)} {p : Progress R} (i : Instruction R Nat)
      (hi : m.linked.code[r.address]? = some i)
      (hdue : due = if r.countdown ≤ 1 then [.poll false] else [])
      (hacts : ∀ e ∈ acts, e.isInstruction = false)
      (hp : ∀ r', p = .running r' →
        r'.countdown = (if r.countdown ≤ 1 then m.period else r.countdown - 1) ∧
          (r'.address ≤ r.address → ((∃ answer, .poll answer ∈ acts) ↔ ¬i.IsSilentBranch))) :
      Steps m r (due ++ .instruction r.address :: acts) p

theorem poll_mem_actEvents {m : Machine R W} {hook : Hook W} (hhook : m.hook = some hook)
    {i : Instruction R Nat} {r r' : Registers R} {w w' : W}
    (h : m.execute i r w = (.running r', w')) :
    r'.countdown = r.countdown ∧ (r'.address ≤ r.address →
      ((∃ answer, .poll answer ∈ m.actEvents i r w) ↔ ¬i.IsSilentBranch)) := by
  rw [actEvents]
  cases i.acts r with
  | alone p hp hexecute =>
      rw [hexecute] at h ⊢
      obtain rfl : p = .running r' := (Prod.mk.inj h).1
      refine ⟨hp.1, fun hback => ?_⟩
      constructor
      · rintro ⟨answer, hanswer⟩
        cases hanswer
      · intro hloud
        exact absurd (hp.2 hback) hloud
  | asking r₀ p hi hp hexecute =>
      rw [hexecute] at h ⊢
      have hevents : m.pollEvents w = [.poll (hook w).1] := by
        rw [pollEvents, hhook]
      rw [polling] at h
      split at h
      · cases h
      · obtain rfl : p = .running r' := (Prod.mk.inj h).1
        refine ⟨hp.1, fun _ => ?_⟩
        rw [polling_recording, hevents]
        exact iff_of_true ⟨_, List.mem_singleton_self _⟩ hi
  | calling name args keep r₀ hkeep hexecute =>
      rw [hexecute, answering] at h
      split at h
      · cases h
      · split at h
        · rename_i v w₁ hv
          have hkept := hkeep v
          rw [(Prod.mk.inj h).1] at hkept
          exact ⟨hkept.1, fun hback => (hkept.2 hback).elim⟩
        · cases h
        · cases h

theorem steps {m : Machine R W} {hook : Hook W} (hhook : m.hook = some hook) (r : Registers R)
    (w : W) : m.Steps r (m.stepEvents r w) (m.step r w).1 := by
  rw [stepEvents, step]
  cases hi : m.linked.code[r.address]? with
  | none => exact .ended
  | some i =>
      have hacts (r : Registers R) (w : W) : ∀ e ∈ m.actEvents i r w, e.isInstruction = false :=
        fun e he => isInstruction_of_mem_actEvents he
      dsimp only
      split
      · rename_i hdue
        have hpoll : m.pollEvents w = [.poll (m.poll w).1] := by
          rw [pollEvents, poll, hhook]
        rw [hpoll]
        rcases m.poll w with ⟨_ | _, w'⟩
        · refine .executed i hi (if_pos hdue).symm (hacts _ _) fun r' hr' => ?_
          rw [if_pos hdue]
          exact poll_mem_actEvents hhook (Prod.ext hr' rfl)
        · exact .broken
      · rename_i hdue
        have hnone : [] = if r.countdown ≤ 1 then [(.poll false : Event R)] else [] :=
          (if_neg hdue).symm
        refine .executed i hi hnone (hacts _ _) fun r' hr' => ?_
        rw [if_neg hdue]
        exact poll_mem_actEvents hhook (Prod.ext hr' rfl)

omit [NumberSystem R] in
theorem period_pos (m : Machine R W) : 0 < m.period :=
  Nat.le_max_right m.interval 1

omit [NumberSystem R] in
theorem countdown_of_start {m : Machine R W} {entry : String} {r : Registers R}
    (h : m.start entry = .ok r) : r.countdown = m.period := by
  unfold start at h
  split at h
  · cases h
    rfl
  · cases h

end Machine

end LineBasic
