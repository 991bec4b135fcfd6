import LineBasic.Proofs.FailingLines
import LineBasic.Proofs.FiniteWords
import LineBasic.Proofs.LabelPlaces
import LineBasic.Proofs.WorldSteps
import LineBasic.Proofs.Writes

namespace LineBasic

variable {R W : Type} [NumberSystem R]

open NumberSystem

/-- A value that is a number is a finite one. -/
def Value.IsFinite : Value R → Prop
  | number n => isFinite n = true
  | string _ => True

instance : DecidablePred (Value.IsFinite : Value R → Prop)
  | .number n => inferInstanceAs (Decidable (isFinite n = true))
  | .string _ => inferInstanceAs (Decidable True)

/-- All numbers on the stack and in the variables are finite. -/
structure Registers.AllFinite (r : Registers R) : Prop where
  stack : ∀ v ∈ r.stack.items, v.IsFinite
  memory : ∀ (name : String) (v : Value R), r.memory[name]? = some v → v.IsFinite

/-- If an instruction pushes a number of its own, then a finite one. -/
def Instruction.hasFinite {T : Type} : Instruction R T → Bool
  | literal (.number n) => isFinite n
  | _ => true

/-- What an operator computes of two numbers before the result is tested, if it is an operator of arithmetic. -/
def BinaryOp.arithmetic? : BinaryOp → Option (R → R → R)
  | power => some pow
  | multiply => some mul
  | divide => some div
  | add => some NumberSystem.add
  | subtract => some sub
  | _ => none

namespace Value

variable [FiniteWords R] {x y v : Value R}

omit [FiniteWords R] in
theorem isFinite_of_finite {n : R} (h : finite n = .ok v) : v.IsFinite := by
  unfold finite at h
  split at h
  · rename_i hfinite
    cases h
    exact hfinite
  · cases h

theorem isFinite_ofWord (word : BitVec 32) : (ofWord word : Value R).IsFinite := by
  have hle := BitVec.le_toInt word
  have hlt := BitVec.toInt_lt (x := word)
  exact FiniteWords.isFinite_ofInt _ (by omega) (by omega)

theorem isFinite_ofBool (b : Bool) : (ofBool b : Value R).IsFinite := by
  cases b <;> exact FiniteWords.isFinite_ofInt _ (by decide) (by decide)

theorem isFinite_default (name : String) : (default name : Value R).IsFinite := by
  unfold default
  split
  · trivial
  · exact FiniteWords.isFinite_ofInt _ (by decide) (by decide)

omit [FiniteWords R] in
theorem isFinite_of_power (h : x.power y = .ok v) : v.IsFinite := by
  unfold power at h
  obtain ⟨m, -, h⟩ := Stmt.bind_eq_ok h
  obtain ⟨n, -, h⟩ := Stmt.bind_eq_ok h
  split at h
  · cases h
  · split at h
    · cases h
    · exact isFinite_of_finite h

omit [FiniteWords R] in
theorem isFinite_of_divide (h : x.divide y = .ok v) : v.IsFinite := by
  unfold divide at h
  obtain ⟨n, -, h⟩ := Stmt.bind_eq_ok h
  split at h
  · cases h
  · obtain ⟨m, -, h⟩ := Stmt.bind_eq_ok h
    exact isFinite_of_finite h

theorem isFinite_of_modulus (h : x.modulus y = .ok v) : v.IsFinite := by
  unfold modulus at h
  obtain ⟨m, -, h⟩ := Stmt.bind_eq_ok h
  obtain ⟨n, -, h⟩ := Stmt.bind_eq_ok h
  split at h
  · cases h
  · rename_i hzero
    split at h
    · cases h
    · cases h
      have hpos : 0 < n.toInt.natAbs := Int.natAbs_pos.mpr fun h => hzero (BitVec.eq_of_toInt_eq h)
      have hremainder : (Int.tmod m.toInt n.toInt).natAbs < n.toInt.natAbs :=
        Int.natAbs_tmod _ _ ▸ Nat.mod_lt _ hpos
      have hle := BitVec.le_toInt n
      have hlt := BitVec.toInt_lt (x := n)
      exact FiniteWords.isFinite_ofInt _ (by omega) (by omega)

omit [FiniteWords R] in
theorem isFinite_of_add (h : x.add y = .ok v) : v.IsFinite := by
  unfold add at h
  split at h
  · cases h
    trivial
  · exact isFinite_of_finite h
  · cases h

end Value

section

variable [FiniteWords R]

theorem UnaryOp.isFinite_apply {op : UnaryOp} {x v : Value R} (hx : x.IsFinite)
    (h : op.apply x = .ok v) : v.IsFinite := by
  cases op with
  | negate =>
      cases x with
      | number n =>
          cases h
          exact FiniteWords.isFinite_neg n hx
      | string s => cases h
  | not =>
      obtain ⟨word, -, h⟩ := Stmt.bind_eq_ok h
      cases h
      exact Value.isFinite_ofWord _

theorem BinaryOp.isFinite_apply {op : BinaryOp} {x y v : Value R} (h : op.apply x y = .ok v) :
    v.IsFinite := by
  cases op with
  | power => exact Value.isFinite_of_power h
  | divide => exact Value.isFinite_of_divide h
  | modulus => exact Value.isFinite_of_modulus h
  | add => exact Value.isFinite_of_add h
  | multiply | subtract =>
      obtain ⟨m, -, h⟩ := Stmt.bind_eq_ok h
      obtain ⟨n, -, h⟩ := Stmt.bind_eq_ok h
      exact Value.isFinite_of_finite h
  | and | or =>
      obtain ⟨m, -, h⟩ := Stmt.bind_eq_ok h
      obtain ⟨n, -, h⟩ := Stmt.bind_eq_ok h
      cases h
      exact Value.isFinite_ofWord _
  | equal | notEqual | less | lessEqual | greater | greaterEqual =>
      obtain ⟨order, -, h⟩ := Stmt.bind_eq_ok h
      cases h
      exact Value.isFinite_ofBool _

end

theorem BinaryOp.error_of_not_isFinite {op : BinaryOp} {f : R → R → R}
    (hop : op.arithmetic? = some f) {m n : R} (hresult : isFinite (f m n) = false) :
    ∃ e, op.apply (.number m) (.number n) = .error e ∧
      e.code ∈ [ErrorCode.overflow, .divisionByZero, .illegalFunctionCall] := by
  have hfinite : (Value.finite (f m n) : Except Error (Value R)) = .error { code := .overflow } := by
    rw [Value.finite, hresult]
    rfl
  cases op with
  | power =>
      cases hop
      simp only [apply, Value.power, Value.number?, bind, Except.bind]
      split
      · exact ⟨_, rfl, by decide⟩
      · split
        · exact ⟨_, rfl, by decide⟩
        · exact ⟨_, hfinite, by decide⟩
  | divide =>
      cases hop
      simp only [apply, Value.divide, Value.number?, bind, Except.bind]
      split
      · exact ⟨_, rfl, by decide⟩
      · exact ⟨_, hfinite, by decide⟩
  | multiply | add | subtract =>
      cases hop
      exact ⟨_, hfinite, by decide⟩
  | _ => cases hop

namespace Machine

variable {m : Machine R W} {r : Registers R} {w : W}

/-- In this step a NEXT counts to a number that is not finite. -/
def LoopOverflows (m : Machine R W) (r : Registers R) (w : W) : Prop :=
  ∃ (var limit step : String) (body : Nat) (w' : W) (l s n : R),
    m.Executes (.next var limit step body) r w w' ∧ r.readNumber limit = .ok l ∧
      r.readNumber step = .ok s ∧ r.readNumber var = .ok n ∧
      isFinite (NumberSystem.add n s) = false

/-- A native that this step calls answers a finite value, if it answers one. -/
def AnswersFinite (m : Machine R W) (r : Registers R) (w : W) : Prop :=
  ∀ (name : String) (count : Nat) (w' : W) (args : List (Value R)) (native : Native R W)
    (v : Value R), m.Executes (.call name count) r w w' → (r.stack.popN count).1 = .ok args →
      m.natives[name]? = some native → (native args w').1 = .value v → v.IsFinite

def LiteralsFinite (m : Machine R W) : Prop :=
  ∀ (address : Nat) (v : Value R), m.linked.code[address]? = some (.literal v) → v.IsFinite

theorem literalsFinite_of_load {script : String} {m₀ : Machine R W} (hload : m₀.load script = .ok m)
    (h : ∀ code : List (Instruction R String), Script.read script = .ok code →
      code.all Instruction.hasFinite = true) : m.LiteralsFinite := by
  unfold load at hload
  obtain ⟨code, hread, hload⟩ := Stmt.bind_eq_ok hload
  obtain ⟨linked, hlink, hload⟩ := Stmt.bind_eq_ok hload
  cases hload
  intro address v hv
  cases v with
  | string s => trivial
  | number n =>
      obtain ⟨i, hi, place, hretarget⟩ := LinkedCode.exists_mem_of_link hlink hv
      cases i with
      | literal v' =>
          cases hretarget
          exact List.all_eq_true.mp (h code hread) _ hi
      | _ => cases hretarget

theorem allFinite_of_start {entry : String} (h : m.start entry = .ok r) : r.AllFinite := by
  obtain ⟨hmemory, hstack⟩ := registers_of_start h
  constructor
  · intro v hv
    rw [hstack] at hv
    cases hv
  · intro name v hv
    rw [hmemory] at hv
    cases hv

variable [FiniteWords R]

theorem isFinite_of_gets {v : Value R} (hliterals : m.LiteralsFinite) (hr : r.AllFinite)
    (hnatives : m.AnswersFinite r w) (h : m.Gets r w v) : v.IsFinite := by
  obtain ⟨i, w', hi, hpushes⟩ := h
  cases hpushes with
  | literal => exact hliterals r.address v hi.1
  | push name =>
      rw [Registers.read]
      cases hvalue : r.memory[name]? with
      | none => exact Value.isFinite_default name
      | some v => exact hr.memory name v hvalue
  | call hargs hnative hanswer => exact hnatives _ _ _ _ _ _ hi hargs hnative hanswer
  | unary hx hresult => exact UnaryOp.isFinite_apply (hr.stack _ hx) hresult
  | binary hx hy hresult => exact BinaryOp.isFinite_apply hresult

omit [FiniteWords R] in
theorem isFinite_of_sets {name : String} {v : Value R} (hr : r.AllFinite)
    (hloop : ¬m.LoopOverflows r w) (h : m.Sets r w name v) : v.IsFinite := by
  obtain ⟨i, w', hi, hassigns⟩ := h
  cases hassigns with
  | pop hv htype => exact hr.stack v hv
  | @next var limit step body l s n hlimit hstep hvar =>
      cases hsum : isFinite (NumberSystem.add n s) with
      | true => exact hsum
      | false => exact absurd ⟨_, _, _, _, _, _, _, _, hi, hlimit, hstep, hvar, hsum⟩ hloop

theorem allFinite_step (hliterals : m.LiteralsFinite) (hr : r.AllFinite)
    (hnatives : m.AnswersFinite r w) (hloop : ¬m.LoopOverflows r w) :
    (m.step r w).1.registers.AllFinite where
  stack v hv := by
    rcases Machine.stack_of_step hv with hv | hgets
    · exact hr.stack v hv
    · exact isFinite_of_gets hliterals hr hnatives hgets
  memory name v hv := by
    rcases Machine.memory_of_step hv with hv | hsets
    · exact hr.memory name v hv
    · exact isFinite_of_sets hr hloop hsets

omit [FiniteWords R] in
theorem not_allFinite_step (h : m.LoopOverflows r w) : ¬(m.step r w).1.registers.AllFinite := by
  obtain ⟨var, limit, step, body, w', l, s, n, hi, hlimit, hstep, hvar, hsum⟩ := h
  intro hall
  have hfinite := hall.memory var _ (memory_of_executes_next hi hlimit hstep hvar)
  rw [Value.IsFinite, hsum] at hfinite
  cases hfinite

omit [FiniteWords R] in
theorem ended_of_not_isFinite {op : BinaryOp} {f : R → R → R} {x y : R} {w' : W}
    (hi : m.Executes (.binary op) r w w') (hop : op.arithmetic? = some f)
    (hpop : r.stack.pop2.1 = .ok (.number x, .number y)) (hresult : isFinite (f x y) = false) :
    ∃ e r', m.step r w = (.ended (.failed e) r', w') ∧
      e.code ∈ [ErrorCode.overflow, .divisionByZero, .illegalFunctionCall] := by
  obtain ⟨e, happly, hcode⟩ := BinaryOp.error_of_not_isFinite hop hresult
  have hstack : (m.ticked r).stack.pop2 = (.ok (.number x, .number y), r.stack.pop2.2) :=
    Prod.ext hpop rfl
  rw [step_of_executes hi, execute, hstack]
  dsimp only
  rw [happly]
  refine ⟨_, _, rfl, ?_⟩
  rwa [Error.orLine_code]

end Machine

/-- Let a machine run a script from one of its labels, with finite literals in the script and finite answers of the natives that
it calls. Then all numbers on the stack and in the variables are finite at any time if and only if no NEXT ever counts to a number
that is not. No operator brings such a number about: where its result would be one, it ends the run with an error. -/
theorem numbers_stay_finite_iff [FiniteWords R] {script : String} {m₀ m : Machine R W}
    (hload : m₀.load script = .ok m)
    (hliterals : ∀ code : List (Instruction R String), Script.read script = .ok code →
      code.all Instruction.hasFinite = true)
    {entry : String} {start : Registers R} (hstart : m.start entry = .ok start) (w : W)
    (hnatives : ∀ r w', m.Visits start w r w' → m.AnswersFinite r w') :
    ((∀ fuel, (m.advance fuel start w).1.registers.AllFinite) ↔
      ∀ r w', m.Visits start w r w' → ¬m.LoopOverflows r w') ∧
    ∀ (r : Registers R) (w' w'' : W) (op : BinaryOp) (f : R → R → R) (x y : R),
      m.Executes (.binary op) r w' w'' → op.arithmetic? = some f →
      r.stack.pop2.1 = .ok (.number x, .number y) → isFinite (f x y) = false →
      ∃ e r', m.step r w' = (.ended (.failed e) r', w'') ∧
        e.code ∈ [ErrorCode.overflow, .divisionByZero, .illegalFunctionCall] := by
  refine ⟨⟨fun h r w' hvisits hloop => ?_, fun h fuel => ?_⟩, ?_⟩
  · exact Machine.not_allFinite_step hloop (Machine.holds_step h hvisits)
  · refine Machine.holds_advance (Machine.allFinite_of_start hstart) (fun r w' hvisits hr => ?_) fuel
    exact Machine.allFinite_step (Machine.literalsFinite_of_load hload hliterals) hr
      (hnatives r w' hvisits) (h r w' hvisits)
  · intro r w' w'' op f x y hi hop hpop hresult
    exact Machine.ended_of_not_isFinite hi hop hpop hresult

theorem all_hasFinite_of_read {script : String}
    (h : (Script.read (R := R) script).toOption.all (List.all · Instruction.hasFinite) = true) :
    ∀ code : List (Instruction R String), Script.read script = .ok code →
      code.all Instruction.hasFinite = true := by
  intro code hread
  rw [hread] at h
  exact h

theorem Machine.answersFinite_of_natives {m : Machine R W}
    (h : ∀ (name : String) (native : Native R W) args w v, m.natives[name]? = some native →
      (native args w).1 = .value v → v.IsFinite) (r : Registers R) (w : W) :
    m.AnswersFinite r w :=
  fun name _ w' args native v _ _ hnative hanswer => h name native args w' v hnative hanswer

/-- A NEXT that counts from `1E308` on by as much makes an infinite number of it. -/
theorem not_allFinite_counting :
    FiniteWords Float ∧ ∃ (m : Machine Float Unit) (start : Registers Float),
      ({} : Machine Float Unit).load "MAIN:\n LIT 1E308\n POP I\nB:\n NEXT I L I B\n" = .ok m ∧
      (∀ code : List (Instruction Float String),
        Script.read "MAIN:\n LIT 1E308\n POP I\nB:\n NEXT I L I B\n" = .ok code →
          code.all Instruction.hasFinite = true) ∧
      m.start Script.entry = .ok start ∧
      (∀ r w, m.Visits start () r w → m.AnswersFinite r w) ∧
      ¬(m.advance 3 start ()).1.registers.AllFinite := by
  have hrun : (({} : Machine Float Unit).valueAfter?
      "MAIN:\n LIT 1E308\n POP I\nB:\n NEXT I L I B\n" 3 () "I").any
        (fun v => !decide v.IsFinite) := by
    decide +kernel
  obtain ⟨v, hvalue, hinfinite⟩ := (Option.any_eq_true _ _).mp hrun
  obtain ⟨m, start, hload, hstart, hmemory⟩ := Machine.exists_of_valueAfter? hvalue
  refine ⟨inferInstance, m, start, hload, all_hasFinite_of_read (by decide +kernel), hstart,
    fun r w _ => Machine.answersFinite_of_natives ?_ r w, fun hall => ?_⟩
  · intro name native args w v hnative
    rw [(Machine.natives_of_load hload).1, Std.TreeMap.getElem?_emptyc] at hnative
    cases hnative
  · rw [decide_eq_true (hall.memory "I" v hmemory)] at hinfinite
    cases hinfinite

def threeMachine : Machine Float Unit :=
  ({} : Machine Float Unit).bind "THREE" fun _ w => (.value (.number (ofInt 3)), w)

/-- A sum with what a native answers. -/
theorem numbers_stay_finite_sum :
    ∃ (m : Machine Float Unit) (start : Registers Float),
      threeMachine.load "MAIN:\n CALL THREE 0\n LIT 4\n ADD\n POP A\n" = .ok m ∧
      m.start Script.entry = .ok start ∧
      ∀ fuel, (m.advance fuel start ()).1.registers.AllFinite := by
  have hrun : (threeMachine.load
      "MAIN:\n CALL THREE 0\n LIT 4\n ADD\n POP A\n").toOption.any (fun m =>
        (m.start Script.entry).toOption.isSome && m.linked.code.all fun i => i.target?.isNone) := by
    decide +kernel
  obtain ⟨m, hload, hm⟩ := (Option.any_eq_true _ _).mp hrun
  obtain ⟨hstarts, hcode⟩ := (Bool.and_eq_true _ _).mp hm
  obtain ⟨start, hstart⟩ := Option.isSome_iff_exists.mp hstarts
  have hload := eq_ok_of_toOption hload
  have hstart := eq_ok_of_toOption hstart
  have hnatives (name : String) (native : Native Float Unit) args w v
      (hnative : m.natives[name]? = some native) (hanswer : (native args w).1 = .value v) :
      v.IsFinite := by
    rw [(Machine.natives_of_load hload).1, threeMachine, Machine.bind,
      Std.TreeMap.getElem?_insert] at hnative
    split at hnative
    · cases hnative
      cases hanswer
      exact FiniteWords.isFinite_ofInt 3 (by decide) (by decide)
    · rw [Std.TreeMap.getElem?_emptyc] at hnative
      cases hnative
  refine ⟨m, start, hload, hstart, (numbers_stay_finite_iff hload
    (all_hasFinite_of_read (by decide +kernel)) hstart ()
    fun r w _ => Machine.answersFinite_of_natives hnatives r w).1.mpr fun r w _ hloop => ?_⟩
  obtain ⟨var, limit, step, body, w', l, s, n, ⟨hi, -⟩, -⟩ := hloop
  have htarget := Array.all_eq_true_iff_forall_mem.mp hcode _ (Array.mem_of_getElem? hi)
  cases htarget

end LineBasic
