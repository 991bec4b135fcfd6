import LineBasic.Proofs.Acceptance
import LineBasic.Proofs.Running

namespace LineBasic

variable {R W : Type}

namespace Stack

variable {α : Type} {s t : Stack α}

theorem mem_of_push {a b : α} (h : s.push a = .ok t) (hb : b ∈ t.items) : b = a ∨ b ∈ s.items := by
  unfold push at h
  split at h
  · cases h
    exact List.mem_cons.mp hb
  · cases h

theorem subset_pop (s : Stack α) : s.pop.2.items ⊆ s.items := by
  unfold pop
  split
  · exact List.Subset.refl _
  · rename_i a items hitems
    intro b hb
    rw [hitems]
    exact List.mem_cons_of_mem a hb

theorem mem_of_pop {a : α} (h : s.pop = (.ok a, t)) : a ∈ s.items := by
  unfold pop at h
  split at h
  · cases h
  · rename_i b items hitems
    cases h
    rw [hitems]
    exact List.mem_cons_self

theorem subset_pop2 (s : Stack α) : s.pop2.2.items ⊆ s.items := by
  have hfirst := s.subset_pop
  unfold pop2
  rcases hpop : s.pop with ⟨_ | _, t⟩ <;> rw [hpop] at hfirst
  · exact hfirst
  · have hsecond := t.subset_pop
    dsimp only
    rcases hpop : t.pop with ⟨_ | _, u⟩ <;> rw [hpop] at hsecond <;>
      exact List.Subset.trans hsecond hfirst

theorem mem_of_pop2 {a b : α} (h : s.pop2 = (.ok (a, b), t)) : a ∈ s.items ∧ b ∈ s.items := by
  unfold pop2 at h
  have hsubset := s.subset_pop
  rcases hfirst : s.pop with ⟨_ | second, u⟩ <;> rw [hfirst] at h hsubset
  · cases h
  · dsimp only at h
    rcases hsecond : u.pop with ⟨_ | first, v⟩ <;> rw [hsecond] at h
    · cases h
    · cases h
      exact ⟨hsubset (mem_of_pop hsecond), mem_of_pop hfirst⟩

theorem subset_popN (count : Nat) (s : Stack α) : (s.popN count).2.items ⊆ s.items := by
  unfold popN
  split
  · exact List.drop_subset count s.items
  · exact List.Subset.refl _

end Stack

def Progress.registers : Progress R → Registers R
  | running r => r
  | ended _ r => r

variable [NumberSystem R]

namespace Instruction

/-- An instruction that is executed with these registers in this world may put the value on the stack. -/
inductive Pushes (m : Machine R W) (r : Registers R) (w : W) :
    Instruction R Nat → Value R → Prop where
  | literal (v : Value R) : Pushes m r w (.literal v) v
  | push (name : String) : Pushes m r w (.push name) (r.read name)
  | call {name : String} {count : Nat} {args : List (Value R)} {native : Native R W} {v : Value R}
      (hargs : (r.stack.popN count).1 = .ok args) (hnative : m.natives[name]? = some native)
      (hanswer : (native args w).1 = .value v) : Pushes m r w (.call name count) v
  | unary {op : UnaryOp} {x v : Value R} (hx : x ∈ r.stack.items) (hresult : op.apply x = .ok v) :
      Pushes m r w (.unary op) v
  | binary {op : BinaryOp} {x y v : Value R} (hx : x ∈ r.stack.items) (hy : y ∈ r.stack.items)
      (hresult : op.apply x y = .ok v) : Pushes m r w (.binary op) v

/-- An instruction that is executed with these registers may assign the value to the variable. -/
inductive Assigns (r : Registers R) : Instruction R Nat → String → Value R → Prop where
  | pop {name : String} {v : Value R} (hv : v ∈ r.stack.items) (htype : v.type = .ofName name) :
      Assigns r (.pop name) name v
  | next {var limit step : String} {body : Nat} {l s n : R} (hlimit : r.readNumber limit = .ok l)
      (hstep : r.readNumber step = .ok s) (hvar : r.readNumber var = .ok n) :
      Assigns r (.next var limit step body) var (.number (NumberSystem.add n s))

end Instruction

open Instruction (Pushes Assigns)

/-- What an instruction has written when the first registers have become the second ones. -/
structure Registers.Written (m : Machine R W) (i : Instruction R Nat) (r : Registers R) (w : W)
    (r' : Registers R) : Prop where
  stack : ∀ v ∈ r'.stack.items, v ∈ r.stack.items ∨ Pushes m r w i v
  memory : r'.memory = r.memory ∨
    ∃ name v, Assigns r i name v ∧ r'.memory = r.memory.insert name v

namespace Registers

variable {m : Machine R W} {i : Instruction R Nat} {r r' : Registers R} {w : W}

theorem written_of_subset (hstack : r'.stack.items ⊆ r.stack.items) (hmemory : r'.memory = r.memory) :
    Written m i r w r' :=
  ⟨fun _ hv => .inl (hstack hv), .inl hmemory⟩

theorem Written.pushing {v : Value R} (hpush : Pushes m r w i v)
    (hstack : r'.stack.items ⊆ r.stack.items) (hmemory : r'.memory = r.memory) :
    Written m i r w (r'.pushing v).registers := by
  unfold Registers.pushing
  cases hpushed : r'.stack.push v with
  | error e => exact written_of_subset hstack hmemory
  | ok stack =>
      refine ⟨fun b hb => ?_, .inl hmemory⟩
      rcases Stack.mem_of_push hpushed hb with rfl | hb
      · exact .inr hpush
      · exact .inl (hstack hb)

theorem Written.pushingResult {result : Except Error (Value R)}
    (hpush : ∀ v, result = .ok v → Pushes m r w i v) (hstack : r'.stack.items ⊆ r.stack.items)
    (hmemory : r'.memory = r.memory) : Written m i r w (r'.pushingResult result).registers := by
  cases result with
  | error e => exact written_of_subset hstack hmemory
  | ok v => exact .pushing (hpush v rfl) hstack hmemory

end Registers

namespace Machine

open Registers (Written written_of_subset)

variable {m : Machine R W} {i : Instruction R Nat} {r r' : Registers R} {w : W}

omit [NumberSystem R] in
theorem registers_polling (m : Machine R W) (r : Registers R) (w : W) (next : Progress R) :
    (m.polling r w next).1.registers = r ∨ (m.polling r w next).1.registers = next.registers := by
  unfold polling
  split
  · exact .inl rfl
  · exact .inr rfl

theorem written_pollingBack {next : Progress R} (h : Written m i r w next.registers) (target : Nat) :
    Written m i r w (m.pollingBack target r w next).1.registers := by
  unfold Machine.pollingBack
  split
  · rcases m.registers_polling r w next with heq | heq <;> rw [heq]
    · exact written_of_subset (List.Subset.refl _) rfl
    · exact h
  · exact h

section

variable {var limit step : String} {body : Nat} {l s n : R}

theorem registers_loop_of_ok (m : Machine R W) (hlimit : r.readNumber limit = .ok l)
    (hstep : r.readNumber step = .ok s) (hvar : r.readNumber var = .ok n) (body : Nat) (w : W) :
    (m.loop var limit step body r w).1.registers.stack = r.stack ∧
      (m.loop var limit step body r w).1.registers.memory =
        r.memory.insert var (.number (NumberSystem.add n s)) := by
  have hnumbers : (do
      let l ← r.readNumber limit
      let s ← r.readNumber step
      return (l, s, ← r.readNumber var) : Except Error (R × R × R)) = .ok (l, s, n) := by
    rw [hlimit, hstep, hvar]
    rfl
  rw [loop, hnumbers]
  dsimp only
  generalize (if NumberSystem.atLeastZero s then _ else _ : Bool) = more
  cases more with
  | false => exact ⟨rfl, rfl⟩
  | true =>
      rw [if_pos rfl]
      rcases m.registers_polling _ w _ with heq | heq <;> rw [heq] <;> exact ⟨rfl, rfl⟩

theorem registers_loop_of_error (m : Machine R W)
    (h : ∀ l s n, r.readNumber limit = .ok l → r.readNumber step = .ok s → r.readNumber var ≠ .ok n)
    (body : Nat) (w : W) : (m.loop var limit step body r w).1.registers = r := by
  unfold loop
  cases hlimit : r.readNumber limit with
  | error e => rfl
  | ok l =>
      cases hstep : r.readNumber step with
      | error e => rfl
      | ok s =>
          cases hvar : r.readNumber var with
          | error e => rfl
          | ok n => exact absurd hvar (h l s n hlimit hstep)

end

theorem written_callNative {name : String} {count : Nat} {keep : Value R → Registers R → Progress R}
    (hkeep : ∀ args native v, (r.stack.popN count).1 = .ok args → m.natives[name]? = some native →
      (native args w).1 = .value v → ∀ r' : Registers R, r'.stack.items ⊆ r.stack.items →
        r'.memory = r.memory → Written m i r w (keep v r').registers) :
    Written m i r w (m.callNative name count keep r w).1.registers := by
  have hsubset := r.stack.subset_popN count
  unfold callNative
  rcases hpop : r.stack.popN count with ⟨e | args, stack⟩ <;> rw [hpop] at hsubset
  · exact written_of_subset hsubset rfl
  · dsimp only
    cases hnative : m.natives[name]? with
    | none => exact written_of_subset hsubset rfl
    | some native =>
        dsimp only
        rcases hanswer : native args w with ⟨v | e | _, w'⟩
        · refine hkeep args native v ?_ hnative ?_ _ hsubset rfl
          · rw [hpop]
          · rw [hanswer]
        · exact written_of_subset hsubset rfl
        · exact written_of_subset hsubset rfl

theorem written_execute (m : Machine R W) (i : Instruction R Nat) (r : Registers R) (w : W) :
    Written m i r w (m.execute i r w).1.registers := by
  have hkept : ∀ r' : Registers R, r'.stack = r.stack → r'.memory = r.memory →
      Written m i r w r' := fun r' hstack hmemory =>
    written_of_subset (hstack ▸ List.Subset.refl _) hmemory
  cases i with
  | label name | line number | «end» => exact hkept _ rfl rfl
  | literal v => exact .pushing (.literal v) (List.Subset.refl _) rfl
  | push name => exact .pushing (.push name) (List.Subset.refl _) rfl
  | pop name =>
      have hsubset := r.stack.subset_pop
      rw [execute]
      rcases hpop : r.stack.pop with ⟨e | v, stack⟩ <;> rw [hpop] at hsubset
      · exact written_of_subset hsubset rfl
      · dsimp only
        split
        · rename_i htype
          exact ⟨fun b hb => .inl (hsubset hb),
            .inr ⟨name, v, .pop (Stack.mem_of_pop hpop) htype, rfl⟩⟩
        · exact written_of_subset hsubset rfl
  | jump target => exact written_pollingBack (hkept _ rfl rfl) target
  | ifNot target =>
      have hsubset := r.stack.subset_pop
      rw [execute]
      rcases hpop : r.stack.pop with ⟨e | v, stack⟩ <;> rw [hpop] at hsubset
      · exact written_of_subset hsubset rfl
      · dsimp only
        rcases v.isTrue? with e | _ | _ <;> exact written_of_subset hsubset rfl
  | gosub target =>
      rw [execute]
      refine written_pollingBack ?_ target
      cases r.returns.push (r.address + 1) <;> exact hkept _ rfl rfl
  | «return» =>
      rw [execute]
      rcases r.returns.pop with ⟨_ | address, returns⟩ <;> exact hkept _ rfl rfl
  | next var limit step body =>
      by_cases hnumbers : ∃ l s n, r.readNumber limit = .ok l ∧ r.readNumber step = .ok s ∧
          r.readNumber var = .ok n
      · obtain ⟨l, s, n, hlimit, hstep, hvar⟩ := hnumbers
        obtain ⟨hstack, hmemory⟩ := m.registers_loop_of_ok hlimit hstep hvar body w
        refine ⟨fun v hv => .inl ?_, .inr ⟨var, _, .next hlimit hstep hvar, hmemory⟩⟩
        rwa [execute, hstack] at hv
      · have heq : (m.loop var limit step body r w).1.registers = r :=
          m.registers_loop_of_error (fun l s n hlimit hstep hvar =>
            hnumbers ⟨l, s, n, hlimit, hstep, hvar⟩) body w
        rw [execute, heq]
        exact hkept r rfl rfl
  | call name count =>
      exact written_callNative fun args native v hargs hnative hanswer r' hstack hmemory =>
        .pushing (.call hargs hnative hanswer) hstack hmemory
  | exec name count =>
      exact written_callNative fun _ _ _ _ _ _ r' hstack hmemory => written_of_subset hstack hmemory
  | unary op =>
      have hsubset := r.stack.subset_pop
      rw [execute]
      rcases hpop : r.stack.pop with ⟨e | x, stack⟩ <;> rw [hpop] at hsubset
      · exact written_of_subset hsubset rfl
      · exact .pushingResult (fun v hv => .unary (Stack.mem_of_pop hpop) hv) hsubset rfl
  | binary op =>
      have hsubset := r.stack.subset_pop2
      rw [execute]
      rcases hpop : r.stack.pop2 with ⟨e | ⟨x, y⟩, stack⟩ <;> rw [hpop] at hsubset
      · exact written_of_subset hsubset rfl
      · obtain ⟨hx, hy⟩ := Stack.mem_of_pop2 hpop
        exact .pushingResult (fun v hv => .binary hx hy hv) hsubset rfl

/-- A step executes an instruction, in the world that the poll before it leaves if one is due. -/
def Executes (m : Machine R W) (i : Instruction R Nat) (r : Registers R) (w w' : W) : Prop :=
  m.linked.code[r.address]? = some i ∧ if r.countdown ≤ 1 then m.poll w = (false, w') else w' = w

/-- A step may put the value on the stack. -/
def Gets (m : Machine R W) (r : Registers R) (w : W) (v : Value R) : Prop :=
  ∃ i w', m.Executes i r w w' ∧ Pushes m r w' i v

/-- A step may assign the value to the variable. -/
def Sets (m : Machine R W) (r : Registers R) (w : W) (name : String) (v : Value R) : Prop :=
  ∃ i w', m.Executes i r w w' ∧ Assigns r i name v

theorem step_of_executes {w' : W} (h : m.Executes i r w w') :
    m.step r w = m.execute i (m.ticked r) w' := by
  obtain ⟨hi, hpoll⟩ := h
  rw [step, hi, ticked]
  dsimp only
  split <;> rename_i hdue <;> simp only [hdue, if_true, if_false] at hpoll ⊢
  · rw [hpoll]
  · rw [hpoll]

theorem executes_or_ended (m : Machine R W) (r : Registers R) (w : W) :
    (∃ i w', m.Executes i r w w') ∨
      (m.step r w).1.registers.stack = r.stack ∧ (m.step r w).1.registers.memory = r.memory := by
  unfold Executes step
  cases m.linked.code[r.address]? with
  | none => exact .inr ⟨rfl, rfl⟩
  | some i =>
      dsimp only
      split
      · rcases m.poll w with ⟨_ | _, w'⟩
        · exact .inl ⟨i, w', rfl, rfl⟩
        · exact .inr ⟨rfl, rfl⟩
      · exact .inl ⟨i, w, rfl, rfl⟩

theorem stack_of_step {v : Value R} (h : v ∈ (m.step r w).1.registers.stack.items) :
    v ∈ r.stack.items ∨ m.Gets r w v := by
  rcases m.executes_or_ended r w with ⟨i, w', hi⟩ | ⟨hstack, -⟩
  · rw [step_of_executes hi] at h
    rcases (m.written_execute i (m.ticked r) w').stack v h with hv | hv
    · exact .inl hv
    · refine .inr ⟨i, w', hi, ?_⟩
      cases hv with
      | literal => exact .literal v
      | push name => exact .push name
      | call hargs hnative hanswer => exact .call hargs hnative hanswer
      | unary hx hresult => exact .unary hx hresult
      | binary hx hy hresult => exact .binary hx hy hresult
  · rw [hstack] at h
    exact .inl h

theorem memory_of_step {name : String} {v : Value R}
    (h : (m.step r w).1.registers.memory[name]? = some v) :
    r.memory[name]? = some v ∨ m.Sets r w name v := by
  rcases m.executes_or_ended r w with ⟨i, w', hi⟩ | ⟨-, hmemory⟩
  · rw [step_of_executes hi] at h
    rcases (m.written_execute i (m.ticked r) w').memory with hmemory | ⟨other, v', hassigns, hmemory⟩ <;>
      rw [hmemory] at h
    · exact .inl h
    · rw [Std.TreeMap.getElem?_insert] at h
      split at h
      · rename_i heq
        obtain rfl := Std.LawfulEqCmp.compare_eq_iff_eq.mp heq
        cases h
        refine .inr ⟨i, w', hi, ?_⟩
        cases hassigns with
        | pop hv htype => exact .pop hv htype
        | next hlimit hstep hvar => exact .next hlimit hstep hvar
      · exact .inl h
  · rw [hmemory] at h
    exact .inl h

/-- A NEXT that finds three numbers assigns their sum. -/
theorem memory_of_executes_next {var limit step : String} {body : Nat} {w' : W} {l s n : R}
    (h : m.Executes (.next var limit step body) r w w') (hlimit : r.readNumber limit = .ok l)
    (hstep : r.readNumber step = .ok s) (hvar : r.readNumber var = .ok n) :
    (m.step r w).1.registers.memory[var]? = some (.number (NumberSystem.add n s)) := by
  rw [step_of_executes h, execute,
    (m.registers_loop_of_ok (r := m.ticked r) hlimit hstep hvar body w').2]
  exact Std.TreeMap.getElem?_insert_self

/-- A run comes to these registers and this world, and goes on. -/
def Visits (m : Machine R W) (start : Registers R) (w : W) (r : Registers R) (w' : W) : Prop :=
  ∃ fuel, m.advance fuel start w = (.running r, w')

theorem advance_succ (m : Machine R W) (fuel : Nat) (r : Registers R) (w : W) :
    m.advance (fuel + 1) r w =
      match m.advance fuel r w with
      | (.running r', w') => m.step r' w'
      | (.ended ending r', w') => (.ended ending r', w') := by
  induction fuel generalizing r w with
  | zero =>
      change _ = m.step r w
      rw [advance]
      rcases m.step r w with ⟨_ | _, _⟩ <;> rfl
  | succ fuel ih =>
      rw [advance, advance]
      rcases m.step r w with ⟨r' | _, w'⟩
      · exact ih r' w'
      · rfl

/-- What a run starts with and every step of it keeps holds all the time. -/
theorem holds_advance {P : Registers R → Prop} {start : Registers R} {w : W} (hstart : P start)
    (hstep : ∀ r w', m.Visits start w r w' → P r → P (m.step r w').1.registers) (fuel : Nat) :
    P (m.advance fuel start w).1.registers := by
  induction fuel with
  | zero => exact hstart
  | succ fuel ih =>
      -- The step is taken off at the end, where the run is known to come by.
      rw [advance_succ]
      rcases hadvance : m.advance fuel start w with ⟨r | ⟨ending, r⟩, w'⟩ <;> rw [hadvance] at ih
      · exact hstep r w' ⟨fuel, hadvance⟩ ih
      · exact ih

/-- What holds all the time in a run holds behind every step of it. -/
theorem holds_step {P : Registers R → Prop} {start : Registers R} {w w' : W}
    (h : ∀ fuel, P (m.advance fuel start w).1.registers) (hvisits : m.Visits start w r w') :
    P (m.step r w').1.registers := by
  obtain ⟨fuel, hadvance⟩ := hvisits
  have hnext := h (fuel + 1)
  rwa [advance_succ, hadvance] at hnext

omit [NumberSystem R] in
/-- A run starts without variables and with an empty stack. -/
theorem registers_of_start {entry : String} (h : m.start entry = .ok r) :
    (∀ name : String, r.memory[name]? = none) ∧ r.stack.items = [] := by
  unfold start at h
  split at h
  · cases h
    exact ⟨fun name => Std.TreeMap.getElem?_emptyc, rfl⟩
  · cases h

/-- What is true of every value when it is assigned is true of the variables all the time. -/
theorem memory_of_advance {P : String → Value R → Prop} {entry : String} {start : Registers R} {w : W}
    (hstart : m.start entry = .ok start)
    (hsets : ∀ r w', m.Visits start w r w' →
      (∀ (name : String) (v : Value R), r.memory[name]? = some v → P name v) →
      ∀ name v, m.Sets r w' name v → P name v)
    (fuel : Nat) (name : String) (v : Value R)
    (h : (m.advance fuel start w).1.registers.memory[name]? = some v) : P name v := by
  refine holds_advance (P := fun r => ∀ (name : String) (v : Value R),
    r.memory[name]? = some v → P name v) ?_ (fun r w' hvisits hr name v hv => ?_) fuel name v h
  · intro name v hv
    rw [(registers_of_start hstart).1] at hv
    cases hv
  · rcases memory_of_step hv with hv | hset
    · exact hr name v hv
    · exact hsets r w' hvisits hr name v hset

def valueAfter? (m : Machine R W) (script : String) (fuel : Nat) (w : W) (name : String) :
    Option (Value R) := do
  let m ← (m.load script).toOption
  let start ← (m.start Script.entry).toOption
  (m.advance fuel start w).1.registers.memory[name]?

theorem exists_of_valueAfter? {script name : String} {fuel : Nat} {v : Value R}
    (h : m.valueAfter? script fuel w name = some v) :
    ∃ (m' : Machine R W) (start : Registers R), m.load script = .ok m' ∧
      m'.start Script.entry = .ok start ∧
      (m'.advance fuel start w).1.registers.memory[name]? = some v := by
  simp only [valueAfter?, Option.bind_eq_bind, Option.bind_eq_some_iff] at h
  obtain ⟨m', hload, start, hstart, hvalue⟩ := h
  exact ⟨m', start, eq_ok_of_toOption hload, eq_ok_of_toOption hstart, hvalue⟩

end Machine

end LineBasic
