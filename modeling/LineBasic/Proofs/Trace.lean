import LineBasic.Machine
import LineBasic.Proofs.Process

namespace LineBasic

/-- How a run ends, where an error counts by its code. -/
inductive Verdict where
  | finished
  | failed (code : ErrorCode)
  | panicked
deriving DecidableEq, Repr

def Ending.verdict : Ending → Verdict
  | finished => .finished
  | failed e => .failed e.code
  | panicked => .panicked

structure NativeCall (R : Type) where
  name : String
  args : List (Value R)

/-- A world and the native calls that were made so far. -/
abbrev Noted (R W : Type) := W × List (NativeCall R)

variable {R W : Type}

def Native.noting (name : String) (native : Native R W) : Native R (Noted R W) :=
  fun args w =>
    let (answer, world) := native args w.1
    (answer, (world, w.2 ++ [{ name, args }]))

def Hook.noting (hook : Hook W) : Hook (Noted R W) :=
  fun w =>
    let (answer, world) := hook w.1
    (answer, (world, w.2))

namespace Machine

def noting (m : Machine R W) : Machine R (Noted R W) where
  linked := m.linked
  natives := m.natives.map Native.noting
  hook := m.hook.map Hook.noting
  interval := m.interval

theorem natives_noting (m : Machine R W) (name : String) :
    m.noting.natives[name]? = (m.natives[name]?).map (Native.noting name) := by
  rw [noting, Std.TreeMap.getElem?_map]

variable [NumberSystem R]

def process (m : Machine R W) : Process (Registers R × W) (Verdict × W) where
  step s :=
    match m.step s.1 s.2 with
    | (.running r, w) => .inl (r, w)
    | (.ended ending _, w) => .inr (ending.verdict, w)

end Machine

/-- The calls that were noted when a process was in some state, or when it
ended. -/
def notedCalls {σ : Type} :
    (σ × Noted R W) ⊕ (Verdict × Noted R W) → List (NativeCall R)
  | .inl s => s.2.2
  | .inr e => e.2.2

namespace Machine

theorem poll_noting (m : Machine R W) (w : Noted R W) : (m.noting.poll w).2.2 = w.2 := by
  unfold poll noting
  cases m.hook <;> rfl

theorem polling_noting (m : Machine R W) (r : Registers R) (w : Noted R W)
    (next : Progress R) : (m.noting.polling r w next).2.2 = w.2 := by
  have hpoll := m.poll_noting w
  unfold polling
  split <;> simp_all

theorem pollingBack_noting (m : Machine R W) (target : Nat) (r : Registers R)
    (w : Noted R W) (next : Progress R) :
    (m.noting.pollingBack target r w next).2.2 = w.2 := by
  unfold pollingBack
  split
  · exact m.polling_noting r w next
  · rfl

theorem callNative_noting (m : Machine R W) (name : String) (count : Nat)
    (keep : Value R → Registers R → Progress R) (r : Registers R) (w : Noted R W) :
    w.2 <+: (m.noting.callNative name count keep r w).2.2 := by
  unfold callNative
  rw [natives_noting]
  rcases r.stack.popN count with ⟨_ | args, stack⟩
  · exact List.prefix_rfl
  · cases m.natives[name]? with
    | none => exact List.prefix_rfl
    | some native =>
        simp only [Option.map_some, Native.noting]
        rcases native args w.1 with ⟨answer, world⟩
        cases answer <;> exact List.prefix_append _ _

variable [NumberSystem R]

theorem loop_noting (m : Machine R W) (var limit step : String) (body : Nat)
    (r : Registers R) (w : Noted R W) :
    (m.noting.loop var limit step body r w).2.2 = w.2 := by
  unfold loop
  extract_lets numbers
  cases numbers with
  | error e => rfl
  | ok numbers =>
      dsimp only
      split <;> split
      · exact m.polling_noting _ w _
      · rfl
      · exact m.polling_noting _ w _
      · rfl

theorem execute_noting (m : Machine R W) (i : Instruction R Nat) (r : Registers R)
    (w : Noted R W) : w.2 <+: (m.noting.execute i r w).2.2 := by
  cases i with
  | jump target => exact (m.pollingBack_noting target r w _) ▸ List.prefix_rfl
  | gosub target => exact (m.pollingBack_noting target r w _) ▸ List.prefix_rfl
  | next var limit step body =>
      exact (m.loop_noting var limit step body r w) ▸ List.prefix_rfl
  | call name count => exact m.callNative_noting name count _ r w
  | exec name count => exact m.callNative_noting name count _ r w
  | _ =>
      simp only [execute]
      repeat' split
      all_goals exact List.prefix_rfl

theorem step_noting (m : Machine R W) (r : Registers R) (w : Noted R W) :
    w.2 <+: (m.noting.step r w).2.2 := by
  unfold step
  split
  · exact List.prefix_rfl
  · split
    · have hpoll := m.poll_noting w
      dsimp only
      split
      · rename_i w' heq
        rw [heq] at hpoll
        exact hpoll ▸ List.prefix_rfl
      · rename_i w' heq
        rw [heq] at hpoll
        exact hpoll ▸ m.execute_noting _ _ w'
    · exact m.execute_noting _ _ w

theorem grows_noting (m : Machine R W) : m.noting.process.Grows notedCalls := by
  rintro ⟨r, w⟩
  have hstep := m.step_noting r w
  unfold process
  dsimp only
  split
  · rename_i heq
    rw [heq] at hstep
    exact hstep
  · rename_i heq
    rw [heq] at hstep
    exact hstep

/-- Both machines have the entry label, and their runs from it do the same. -/
def RunAlike (m m' : Machine R W) (w : W) : Prop :=
  ∃ r r', m.start Script.entry = .ok r ∧ m'.start Script.entry = .ok r' ∧
    Process.Same m.noting.process notedCalls (r, (w, []))
      m'.noting.process notedCalls (r', (w, []))

end Machine

end LineBasic
