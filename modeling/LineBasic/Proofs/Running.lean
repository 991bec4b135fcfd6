import LineBasic.Proofs.Calls
import LineBasic.Proofs.Layout
import LineBasic.Proofs.Names

namespace LineBasic

variable {R W : Type}

/-- The registers at an address, with the given stack, memory and returns. -/
structure Registers.Stand (address : Nat) (items : List (Value R))
    (memory : Std.TreeMap String (Value R)) (returns : List Nat) (r : Registers R) : Prop where
  address_eq : r.address = address
  items_eq : r.stack.items = items
  memory_eq : r.memory = memory
  returns_eq : r.returns.items = returns

theorem Registers.Stand.forward {address : Nat} {items items' : List (Value R)}
    {memory : Std.TreeMap String (Value R)} {returns : List Nat} {r : Registers R}
    (hr : Registers.Stand address items memory returns r) {stack : Stack (Value R)}
    (hitems : stack.items = items') :
    Registers.Stand (address + 1) items' memory returns { r.forward with stack } :=
  ⟨congrArg (· + 1) hr.address_eq, hitems, hr.memory_eq, hr.returns_eq⟩

namespace Stack

variable {α : Type}

theorem push_of_lt {s : Stack α} {items : List α} (h : s.items = items)
    (hlt : items.length < capacity) (a : α) : ∃ t, s.push a = .ok t ∧ t.items = a :: items := by
  have hsize : s.size < capacity := by rwa [s.size_eq, h]
  exact ⟨_, if_pos hsize, congrArg (a :: ·) h⟩

theorem pop_of_cons {s : Stack α} {a : α} {items : List α} (h : s.items = a :: items) :
    ∃ t, s.pop = (.ok a, t) ∧ t.items = items := by
  unfold pop
  split
  · rename_i hnil
    rw [h] at hnil
    cases hnil
  · rename_i b rest hcons
    rw [h, List.cons.injEq] at hcons
    obtain ⟨rfl, rfl⟩ := hcons
    exact ⟨_, rfl, rfl⟩

theorem pop2_of_cons {s : Stack α} {a b : α} {items : List α}
    (h : s.items = b :: a :: items) : ∃ t, s.pop2 = (.ok (a, b), t) ∧ t.items = items := by
  obtain ⟨t, ht, hitems⟩ := pop_of_cons h
  obtain ⟨u, hu, hitems'⟩ := pop_of_cons hitems
  refine ⟨u, ?_, hitems'⟩
  rw [pop2, ht]
  dsimp only
  rw [hu]

theorem popN_of_append {s : Stack α} {args items : List α}
    (h : s.items = args.reverse ++ items) :
    ∃ t, s.popN args.length = (.ok args, t) ∧ t.items = items := by
  have hsize : args.length ≤ s.size := by
    rw [s.size_eq, h]
    simp
  have htake : (s.items.take args.length).reverse = args := by simp [h]
  refine ⟨_, by rw [popN, dif_pos hsize, htake], ?_⟩
  simp [h]

end Stack

variable [NumberSystem R]

theorem Expr.code_length_pos (e : Expr R) : 0 < e.code.length := by
  cases e <;> simp only [Expr.code, List.length_append, List.length_singleton] <;> omega

namespace Machine

/-- From any registers that fit `start` the machine ends where the effect does,
and else comes, after at least `least` steps, to registers that fit `finish`. -/
def Runs {α : Type} (m : Machine R W) (least : Nat) (start : Registers R → Prop)
    (x : Effect W α) (finish : α → Registers R → Prop) : Prop :=
  ∀ r w, start r →
    match x w with
    | (.ok a, w') => ∃ n r', m.process.after (n + least) (r, w) = .inl (r', w') ∧ finish a r'
    | (.error v, w') => m.process.EndsWith (r, w) (v, w')

variable {m : Machine R W} {α β : Type} {start : Registers R → Prop}
  {mid finish : α → Registers R → Prop} {finish' : β → Registers R → Prop}

theorem Runs.pure {a : α} (h : ∀ r, start r → finish a r) :
    m.Runs 0 start (pure a : Effect W α) finish :=
  fun r _ hr => ⟨0, r, rfl, h r hr⟩

private theorem Runs.bind_add {k l : Nat} {x : Effect W α} {f : α → Effect W β}
    (hx : m.Runs k start x mid) (hf : ∀ a, m.Runs l (mid a) (f a) finish') :
    m.Runs (k + l) start (x >>= f) finish' := by
  intro r w hr
  have hx := hx r w hr
  rw [Effect.bind_apply]
  cases hxw : x w with
  | mk result w₁ =>
      rw [hxw] at hx
      cases result with
      | error v => exact hx
      | ok a =>
          obtain ⟨n, r₁, hn, hmid⟩ := hx
          have hf := hf a r₁ w₁ hmid
          dsimp only
          cases hfw : f a w₁ with
          | mk result w₂ =>
              rw [hfw] at hf
              cases result with
              | error v => exact Process.Reaches.endsWith ⟨_, hn⟩ hf
              | ok b =>
                  obtain ⟨n', r₂, hn', hfinish⟩ := hf
                  refine ⟨n + n', r₂, ?_, hfinish⟩
                  rw [show n + n' + (k + l) = (n + k) + (n' + l) by omega,
                    Process.after_add hn, hn']

theorem Runs.weaken {k : Nat} {x : Effect W α} (h : m.Runs k start x finish) :
    m.Runs 0 start x finish := by
  intro r w hr
  have h := h r w hr
  cases hxw : x w with
  | mk result w' =>
      rw [hxw] at h
      cases result with
      | error v => exact h
      | ok a =>
          obtain ⟨n, r', hn, hfinish⟩ := h
          exact ⟨n + k, r', hn, hfinish⟩

/-- Effects one after the other, of which the first makes the steps. -/
theorem Runs.bind {k : Nat} {x : Effect W α} {f : α → Effect W β}
    (hx : m.Runs k start x mid) (hf : ∀ a, m.Runs 0 (mid a) (f a) finish') :
    m.Runs k start (x >>= f) finish' :=
  hx.bind_add hf

/-- Effects one after the other, of which the last makes the steps. -/
theorem Runs.bind_last {k : Nat} {x : Effect W α} {f : α → Effect W β}
    (hx : m.Runs 0 start x mid) (hf : ∀ a, m.Runs k (mid a) (f a) finish') :
    m.Runs k start (x >>= f) finish' := by
  have h := hx.bind_add hf
  rwa [Nat.zero_add] at h

theorem Runs.imp {k : Nat} {x : Effect W α} {finish₁ : α → Registers R → Prop}
    (h : m.Runs k start x finish) (himp : ∀ a r, finish a r → finish₁ a r) :
    m.Runs k start x finish₁ := by
  intro r w hr
  have h := h r w hr
  cases hxw : x w with
  | mk result w' =>
      rw [hxw] at h
      cases result with
      | error v => exact h
      | ok a =>
          obtain ⟨n, r', hn, hfinish⟩ := h
          exact ⟨n, r', hn, himp a r' hfinish⟩

theorem verdict_fail_orLine (e : Error) (line : Option LineNumber) :
    (Ending.failed (e.orLine line)).verdict = .failed e.code := by
  unfold Error.orLine Ending.verdict
  dsimp only
  split <;> rfl

/-- The registers in which an instruction is executed. -/
def ticked (m : Machine R W) (r : Registers R) : Registers R :=
  { r with countdown := if r.countdown ≤ 1 then m.period else r.countdown - 1 }

omit [NumberSystem R] in
theorem poll_of_no_hook (h : m.hook = none) (w : W) : m.poll w = (false, w) := by
  rw [poll, h]

theorem step_of_no_hook (h : m.hook = none) {r : Registers R} {i : Instruction R Nat}
    (hi : m.linked.code[r.address]? = some i) (w : W) :
    m.step r w = m.execute i (m.ticked r) w := by
  rw [step, hi]
  dsimp only
  split
  · rename_i hdue
    rw [poll_of_no_hook h, ticked, if_pos hdue]
  · rename_i hdue
    rw [ticked, if_neg hdue]

omit [NumberSystem R] in
theorem pollingBack_of_no_hook (h : m.hook = none) (target : Nat) (r : Registers R) (w : W)
    (next : Progress R) : m.pollingBack target r w next = (next, w) := by
  unfold pollingBack polling
  rw [poll_of_no_hook h]
  split <;> rfl

/-- Progress does what an effect does. -/
def Fits (finish : α → Registers R → Prop) :
    Except Verdict α × W → Progress R × W → Prop
  | (.ok a, w), (.running r, w') => w' = w ∧ finish a r
  | (.error v, w), (.ended ending _, w') => w' = w ∧ ending.verdict = v
  | _, _ => False

section

variable {address : Nat} {items : List (Value R)} {memory : Std.TreeMap String (Value R)}
  {returns : List Nat}

/-- An instruction has an effect if executing it does what the effect does. -/
theorem Runs.of_execute (h : m.hook = none) {i : Instruction R Nat}
    (hi : m.linked.code[address]? = some i) {x : Effect W α}
    (hexecute : ∀ r w, Registers.Stand address items memory returns r →
      Fits finish (x w) (m.execute i r w)) :
    m.Runs 1 (Registers.Stand address items memory returns) x finish := by
  intro r w hr
  have hstep := step_of_no_hook h (r := r) (by rwa [hr.address_eq]) w
  have hexecute := hexecute (m.ticked r) w ⟨hr.1, hr.2, hr.3, hr.4⟩
  rcases hxw : x w with ⟨_ | a, w'⟩ <;>
    rcases hrun : m.execute i (m.ticked r) w with ⟨_ | ⟨ending, r'⟩, w''⟩ <;>
    rw [hxw, hrun] at hexecute
  · exact hexecute.elim
  · obtain ⟨rfl, hverdict⟩ := hexecute
    refine Process.EndsWith.of_step ?_
    simp only [process, hstep, hrun, hverdict]
  · rename_i r'
    obtain ⟨rfl, hfinish⟩ := hexecute
    refine ⟨0, r', ?_, hfinish⟩
    simp only [Nat.zero_add, Process.after_succ, process, hstep, hrun]
    rfl
  · exact hexecute.elim

omit [NumberSystem R] in
theorem fits_pushing (result : Except Error (Value R)) {r : Registers R}
    (hr : Registers.Stand address items memory returns r)
    (hroom : items.length < Stack.capacity) (w : W) :
    Fits (fun v => Registers.Stand address (v :: items) memory returns)
      (Effect.ofExcept result w) (r.pushingResult result, w) := by
  cases result with
  | error e => exact ⟨rfl, verdict_fail_orLine e r.line⟩
  | ok v =>
      obtain ⟨stack, hpush, hitems⟩ := Stack.push_of_lt hr.items_eq hroom v
      rw [Registers.pushingResult, Registers.pushing, hpush]
      exact ⟨rfl, hr.address_eq, hitems, hr.memory_eq, hr.returns_eq⟩

theorem runs_literal (h : m.hook = none) {v : Value R}
    (hi : m.linked.code[address]? = some (.literal v)) (hroom : items.length < Stack.capacity) :
    m.Runs 1 (Registers.Stand address items memory returns) (pure v : Effect W (Value R))
      fun v => Registers.Stand (address + 1) (v :: items) memory returns :=
  Runs.of_execute h hi fun _ w hr =>
    fits_pushing (.ok v) (hr.forward hr.items_eq) hroom w

theorem runs_push (h : m.hook = none) {name : String} {v : Value R}
    (hi : m.linked.code[address]? = some (.push name)) (hroom : items.length < Stack.capacity)
    (hv : (memory[name]?).getD (.default name) = v) :
    m.Runs 1 (Registers.Stand address items memory returns) (pure v : Effect W (Value R))
      fun v => Registers.Stand (address + 1) (v :: items) memory returns := by
  refine Runs.of_execute h hi fun r w hr => ?_
  have hread : r.read name = v := by rw [Registers.read, hr.memory_eq, hv]
  rw [execute, hread]
  exact fits_pushing (.ok v) (hr.forward hr.items_eq) hroom w

theorem runs_unary (h : m.hook = none) {op : UnaryOp} {x : Value R}
    (hi : m.linked.code[address]? = some (.unary op)) (hroom : items.length < Stack.capacity) :
    m.Runs 1 (Registers.Stand address (x :: items) memory returns)
      (Effect.ofExcept (op.apply x) : Effect W (Value R))
      fun v => Registers.Stand (address + 1) (v :: items) memory returns := by
  refine Runs.of_execute h hi fun r w hr => ?_
  obtain ⟨stack, hpop, hitems⟩ := Stack.pop_of_cons hr.items_eq
  rw [execute, hpop]
  exact fits_pushing _ (hr.forward hitems) hroom w

theorem runs_binary (h : m.hook = none) {op : BinaryOp} {x y : Value R}
    (hi : m.linked.code[address]? = some (.binary op))
    (hroom : items.length < Stack.capacity) :
    m.Runs 1 (Registers.Stand address (y :: x :: items) memory returns)
      (Effect.ofExcept (op.apply x y) : Effect W (Value R))
      fun v => Registers.Stand (address + 1) (v :: items) memory returns := by
  refine Runs.of_execute h hi fun r w hr => ?_
  obtain ⟨stack, hpop, hitems⟩ := Stack.pop2_of_cons hr.items_eq
  rw [execute, hpop]
  exact fits_pushing _ (hr.forward hitems) hroom w

omit [NumberSystem R] in
/-- A call takes its arguments off the stack; what becomes of the answer is up
to the instruction. -/
theorem fits_callNative {name : String} {args : List (Value R)}
    {finish : Value R → Registers R → Prop} {keep : Value R → Registers R → Progress R}
    {r : Registers R} (hr : Registers.Stand address (args.reverse ++ items) memory returns r)
    (hkeep : ∀ v r', Registers.Stand (address + 1) items memory returns r' →
      ∃ r'', keep v r' = .running r'' ∧ finish v r'') (w : W) :
    Fits finish (callEffect m.native? name args w)
      (m.callNative name args.length keep r w) := by
  obtain ⟨stack, hpop, hitems⟩ := Stack.popN_of_append hr.items_eq
  rw [callEffect, native?, callNative, hpop]
  cases hnative : m.natives[name]? with
  | none => exact ⟨rfl, verdict_fail_orLine _ _⟩
  | some native =>
      dsimp only
      rcases hanswer : native args w with ⟨answer, w'⟩
      cases answer with
      | value v =>
          obtain ⟨r'', hrun, hfinish⟩ := hkeep v ({ r with stack } : Registers R).forward
            (hr.forward hitems)
          dsimp only
          rw [hrun]
          exact ⟨rfl, hfinish⟩
      | error e => exact ⟨rfl, verdict_fail_orLine _ _⟩
      | panic => exact ⟨rfl, rfl⟩

theorem runs_call (h : m.hook = none) {name : String} {args : List (Value R)}
    (hi : m.linked.code[address]? = some (.call name args.length))
    (hroom : items.length < Stack.capacity) :
    m.Runs 1 (Registers.Stand address (args.reverse ++ items) memory returns)
      (callEffect m.native? name args : Effect W (Value R))
      fun v => Registers.Stand (address + 1) (v :: items) memory returns := by
  refine Runs.of_execute h hi fun r w hr => fits_callNative hr (fun v r' hr' => ?_) w
  obtain ⟨stack, hpush, hitems⟩ := Stack.push_of_lt hr'.items_eq hroom v
  refine ⟨{ r' with stack }, ?_, hr'.address_eq, hitems, hr'.memory_eq, hr'.returns_eq⟩
  rw [Registers.pushing, hpush]

theorem runs_exec (h : m.hook = none) {name : String} {args : List (Value R)}
    (hi : m.linked.code[address]? = some (.exec name args.length)) :
    m.Runs 1 (Registers.Stand address (args.reverse ++ items) memory returns)
      (callEffect m.native? name args : Effect W (Value R))
      fun _ => Registers.Stand (address + 1) items memory returns :=
  Runs.of_execute h hi fun _ w hr =>
    fits_callNative hr (fun _ r' hr' => ⟨r', rfl, hr'⟩) w

/-- A value goes into a variable of its type, and nowhere else. -/
def store (name : String) (v : Value R) : Effect W Unit :=
  if v.type = ValueType.ofName name then pure () else Effect.stop (.failed .typeMismatch)

theorem runs_pop (h : m.hook = none) {name : String} {v : Value R}
    (hi : m.linked.code[address]? = some (.pop name)) :
    m.Runs 1 (Registers.Stand address (v :: items) memory returns) (store name v)
      fun _ => Registers.Stand (address + 1) items (memory.insert name v) returns := by
  refine Runs.of_execute h hi fun r w hr => ?_
  obtain ⟨stack, hpop, hitems⟩ := Stack.pop_of_cons hr.items_eq
  rw [execute, hpop, store]
  dsimp only
  split
  · refine ⟨rfl, congrArg (· + 1) hr.address_eq, hitems, ?_, hr.returns_eq⟩
    rw [Registers.assign, ← hr.memory_eq]
    rfl
  · exact ⟨rfl, verdict_fail_orLine { code := .typeMismatch } r.line⟩

end

/-- The memory has the values of the variables, as far as names are concerned
that a text can have. -/
def Holds (memory : Std.TreeMap String (Value R)) (vars : Vars R) : Prop :=
  ∀ name, IsName name → (memory[name]?).getD (.default name) = vars name

section

variable {memory : Std.TreeMap String (Value R)} {returns : List Nat} {vars : Vars R}

mutual

theorem runs_code (h : m.hook = none) (hvars : Holds memory vars) :
    ∀ (e : Expr R) (items : List (Value R)) {address : Nat}, (∀ n ∈ e.names, IsName n) →
      m.linked.Placed address e.code → items.length + e.code.length ≤ Stack.capacity →
      m.Runs 1 (Registers.Stand address items memory returns)
        (e.value m.native? vars : Effect W (Value R))
        fun v => Registers.Stand (address + LinkedCode.widthOf e.code) (v :: items) memory
          returns
  | .number _ n, items, address, _, hplaced, hroom =>
      runs_literal h (LinkedCode.code_of_holds hplaced.1 rfl rfl) hroom
  | .string _ s, items, address, _, hplaced, hroom =>
      runs_literal h (LinkedCode.code_of_holds hplaced.1 rfl rfl) hroom
  | .char _ c, items, address, _, hplaced, hroom =>
      runs_literal h (LinkedCode.code_of_holds hplaced.1 rfl rfl) hroom
  | .var _ name, items, address, hnames, hplaced, hroom =>
      runs_push h (LinkedCode.code_of_holds hplaced.1 rfl rfl) hroom
        (hvars name (hnames name (List.mem_singleton.mpr rfl)))
  | .unary op _ e, items, address, hnames, hplaced, hroom => by
      rw [Expr.code, LinkedCode.placed_append] at hplaced
      rw [Expr.code, List.length_append, List.length_singleton] at hroom
      rw [Expr.value, Expr.code, LinkedCode.widthOf_append, ← Nat.add_assoc]
      have he := runs_code h hvars e items hnames hplaced.1 (by omega)
      refine he.bind fun x => ?_
      exact (runs_unary h (LinkedCode.code_of_holds hplaced.2.1 rfl rfl) (by omega)).weaken
  | .binary op _ l r, items, address, hnames, hplaced, hroom => by
      rw [Expr.code, LinkedCode.placed_append, LinkedCode.placed_append] at hplaced
      rw [Expr.code, List.length_append, List.length_append, List.length_singleton] at hroom
      rw [Expr.value, Expr.code, LinkedCode.widthOf_append, LinkedCode.widthOf_append,
        ← Nat.add_assoc, ← Nat.add_assoc]
      rw [LinkedCode.widthOf_append, ← Nat.add_assoc] at hplaced
      have hpositive := l.code_length_pos
      have hl := runs_code h hvars l items
        (fun n hn => hnames n (List.mem_append_left _ hn)) hplaced.1.1 (by omega)
      refine hl.bind fun x => ?_
      have hr := runs_code h hvars r (x :: items)
        (fun n hn => hnames n (List.mem_append_right _ hn)) hplaced.1.2
        (by rw [List.length_cons]; omega)
      refine hr.weaken.bind fun y => ?_
      exact (runs_binary h (LinkedCode.code_of_holds hplaced.2.1 rfl rfl) (by omega)).weaken
  | .call _ name args, items, address, hnames, hplaced, hroom => by
      rw [Expr.code, LinkedCode.placed_append] at hplaced
      rw [Expr.code, List.length_append, List.length_singleton] at hroom
      rw [Expr.value, Expr.code, LinkedCode.widthOf_append, ← Nat.add_assoc]
      have hargs := runs_codeAll h hvars args items
        (fun n hn => hnames n (List.mem_cons_of_mem _ hn)) hplaced.1 (by omega)
      refine hargs.bind_last fun vs r w hr => ?_
      have hi := LinkedCode.code_of_holds hplaced.2.1 rfl rfl
      rw [← hr.1] at hi
      exact runs_call h hi (by omega) r w hr.2

theorem runs_codeAll (h : m.hook = none) (hvars : Holds memory vars) :
    ∀ (es : List (Expr R)) (items : List (Value R)) {address : Nat},
      (∀ n ∈ Expr.namesAll es, IsName n) → m.linked.Placed address (Expr.codeAll es) →
      items.length + (Expr.codeAll es).length ≤ Stack.capacity →
      m.Runs 0 (Registers.Stand address items memory returns)
        (Expr.valueAll m.native? vars es : Effect W (List (Value R)))
        fun vs r => vs.length = es.length ∧
          Registers.Stand (address + LinkedCode.widthOf (Expr.codeAll es))
            (vs.reverse ++ items) memory returns r
  | [], items, address, _, _, _ => Runs.pure fun _ hr => ⟨rfl, hr⟩
  | e :: es, items, address, hnames, hplaced, hroom => by
      rw [Expr.codeAll, LinkedCode.placed_append] at hplaced
      rw [Expr.codeAll, List.length_append] at hroom
      rw [Expr.valueAll, Expr.codeAll, LinkedCode.widthOf_append, ← Nat.add_assoc]
      have hpositive := e.code_length_pos
      have he := runs_code h hvars e items
        (fun n hn => hnames n (List.mem_append_left _ hn)) hplaced.1 (by omega)
      refine he.weaken.bind fun v => ?_
      have hes := runs_codeAll h hvars es (v :: items)
        (fun n hn => hnames n (List.mem_append_right _ hn)) hplaced.2
        (by rw [List.length_cons]; omega)
      refine hes.bind fun vs => Runs.pure fun r hr => ⟨congrArg (· + 1) hr.1, ?_⟩
      rw [List.reverse_cons, List.append_assoc]
      exact hr.2

end

end

end Machine

end LineBasic
