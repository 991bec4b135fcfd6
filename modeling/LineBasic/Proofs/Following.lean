import LineBasic.Proofs.Ahead

/-!
A machine that runs the code of a program follows the program step by step: with nothing on its stack, at an address from
where the code performs what is left, and with a memory that has the variables and the registers of the loops.
-/

namespace LineBasic

variable {R W : Type} [NumberSystem R]

namespace Place

theorem limit_inj {p q : Place} (h : p.limit = q.limit) : p = q := by
  rw [limit, limit, String.append_right_inj] at h
  exact congrArg Place.mk (Nat.repr_inj.mp h)

theorem step_inj {p q : Place} (h : p.step = q.step) : p = q := by
  rw [step, step, String.append_right_inj] at h
  exact congrArg Place.mk (Nat.repr_inj.mp h)

theorem limit_ne_step (p q : Place) : p.limit ≠ q.step := by
  intro h
  have hsecond := congrArg (fun s => s.toList[1]?) h
  simp [limit, step] at hsecond

private theorem namesString_append {s : String} (hs : '$' ∉ s.toList) (k : Nat) :
    namesString (s ++ toString k) = false := by
  rw [namesString, beq_eq_false_iff_ne]
  intro hlast
  have hmem := List.mem_of_getLast? hlast
  rw [String.toList_append, List.mem_append] at hmem
  rcases hmem with hmem | hmem
  · exact hs hmem
  · have hdigit := Nat.isDigit_of_mem_toDigits (b := 10) (by decide) (by decide)
      (Nat.toList_repr ▸ hmem)
    revert hdigit
    decide

theorem namesString_limit (p : Place) : namesString p.limit = false :=
  namesString_append (by decide) p.k

theorem namesString_step (p : Place) : namesString p.step = false :=
  namesString_append (by decide) p.k

end Place

omit [NumberSystem R] in
theorem getElem?_insert_of_ne {memory : Std.TreeMap String (Value R)} {name other : String}
    (h : other ≠ name) {v : Value R} : (memory.insert name v)[other]? = memory[other]? := by
  rw [Std.TreeMap.getElem?_insert, if_neg]
  rw [Std.LawfulEqCmp.compare_eq_iff_eq]
  exact h.symm

/-- A memory has the variables, and the registers of the loops. -/
structure Remembers (memory : Std.TreeMap String (Value R)) (t : Moment R) : Prop where
  vars : Machine.Holds memory t.vars
  limits : ∀ k, (memory[Place.limit ⟨k⟩]?).getD (.number NumberSystem.zero) =
    .number (t.limits k)
  steps : ∀ k, (memory[Place.step ⟨k⟩]?).getD (.number NumberSystem.zero) =
    .number (t.steps k)

namespace Remembers

variable {memory : Std.TreeMap String (Value R)} {t : Moment R}

theorem assign (h : Remembers memory t) {name : String} (hname : IsName name) (v : Value R) :
    Remembers (memory.insert name v) { t with vars := Function.update t.vars name v } where
  vars other hother := by
    rcases eq_or_ne other name with rfl | hne
    · rw [Std.TreeMap.getElem?_insert_self]
      exact (Function.update_self other v t.vars).symm
    · rw [getElem?_insert_of_ne hne]
      exact (h.vars other hother).trans (Function.update_of_ne hne v t.vars).symm
  limits k := by
    rw [getElem?_insert_of_ne (hname.ne_limit _).symm]
    exact h.limits k
  steps k := by
    rw [getElem?_insert_of_ne (hname.ne_step _).symm]
    exact h.steps k

/-- A FOR sets the two registers of its loop. -/
theorem setLoop (h : Remembers memory t) (k : Nat) (limit step : R) :
    Remembers ((memory.insert (Place.limit ⟨k⟩) (.number limit)).insert (Place.step ⟨k⟩)
        (.number step))
      { t with
        limits := Function.update t.limits k limit
        steps := Function.update t.steps k step } where
  vars other hother := by
    rw [getElem?_insert_of_ne (hother.ne_step _), getElem?_insert_of_ne (hother.ne_limit _)]
    exact h.vars other hother
  limits j := by
    rw [getElem?_insert_of_ne (Place.limit_ne_step _ _)]
    rcases eq_or_ne j k with rfl | hne
    · rw [Std.TreeMap.getElem?_insert_self]
      exact congrArg Value.number (Function.update_self j limit t.limits).symm
    · rw [getElem?_insert_of_ne fun heq => hne (Place.mk.inj (Place.limit_inj heq))]
      exact (h.limits j).trans
        (congrArg Value.number (Function.update_of_ne hne limit t.limits).symm)
  steps j := by
    rcases eq_or_ne j k with rfl | hne
    · rw [Std.TreeMap.getElem?_insert_self]
      exact congrArg Value.number (Function.update_self j step t.steps).symm
    · rw [getElem?_insert_of_ne fun heq => hne (Place.mk.inj (Place.step_inj heq)),
        getElem?_insert_of_ne (Place.limit_ne_step _ _).symm]
      exact (h.steps j).trans
        (congrArg Value.number (Function.update_of_ne hne step t.steps).symm)

end Remembers

theorem remembers_start (lines : List (ActionLine R)) :
    Remembers (∅ : Std.TreeMap String (Value R)) (Moment.start lines) where
  vars _ _ := rfl
  limits _ := rfl
  steps _ := rfl

/-- The labels of lines and loops lead to the places that they stand for. -/
structure LinkedCode.Labels (linked : LinkedCode R) (lines : List (ActionLine R)) : Prop where
  line : ∀ number point, Point.at? number lines = some point →
    linked.LeadsTo lines (lineLabel number) point
  body : ∀ number point, Point.behind? number lines = some point →
    linked.LeadsTo lines (Place.body ⟨number⟩) point

namespace Machine

variable {m : Machine R W} {lines : List (ActionLine R)}

theorem Holds.insert {memory : Std.TreeMap String (Value R)} {vars : Vars R}
    (h : Holds memory vars) {name : String} (hname : ∀ n, IsName n → n ≠ name) {v : Value R} :
    Holds (memory.insert name v) vars :=
  fun other hother => by
    rw [getElem?_insert_of_ne (hname other hother)]
    exact h other hother

/-- The machine stands where the run of the program is. -/
structure Follows (m : Machine R W) (lines : List (ActionLine R)) (t : Moment R)
    (r : Registers R) : Prop where
  ahead : m.linked.Ahead lines r.address t.point
  items_eq : r.stack.items = []
  remembers : Remembers r.memory t
  returns : List.Forall₂ (m.linked.Ahead lines) r.returns.items t.returns

theorem Follows.of_stand {address : Nat} {memory : Std.TreeMap String (Value R)}
    {returns : List Nat} {t : Moment R} {r : Registers R}
    (hr : Registers.Stand address [] memory returns r)
    (hahead : m.linked.Ahead lines address t.point) (hmemory : Remembers memory t)
    (hreturns : List.Forall₂ (m.linked.Ahead lines) returns t.returns) :
    m.Follows lines t r where
  ahead := hr.address_eq ▸ hahead
  items_eq := hr.items_eq
  remembers := hr.memory_eq ▸ hmemory
  returns := hr.returns_eq ▸ hreturns

section

variable {address b : Nat} {memory : Std.TreeMap String (Value R)} {returns : List Nat}
  {t : Moment R}

/-- What is common to all actions: the memory is that of the moment, and so are
the returns. -/
structure Ready (m : Machine R W) (lines : List (ActionLine R))
    (memory : Std.TreeMap String (Value R)) (returns : List Nat) (t : Moment R) : Prop where
  remembers : Remembers memory t
  returns : List.Forall₂ (m.linked.Ahead lines) returns t.returns

theorem Ready.follows (hready : m.Ready lines memory returns t)
    (hahead : m.linked.Ahead lines address t.point) {r : Registers R}
    (hr : Registers.Stand address [] memory returns r) : m.Follows lines t r :=
  .of_stand hr hahead hready.remembers hready.returns

theorem Ready.goTo (hready : m.Ready lines memory returns t) (point : Point R) :
    m.Ready lines memory returns { t with point } :=
  ⟨⟨hready.remembers.vars, hready.remembers.limits, hready.remembers.steps⟩, hready.returns⟩

theorem runs_performCall (h : m.hook = none) {name : String} {args : List (Expr R)}
    (hnames : ∀ n ∈ Expr.namesAll args, IsName n)
    (hplaced : m.linked.Placed address ((Action.call name args).code b).1)
    (hroom : ((Action.call name args).code b).1.length ≤ Stack.capacity)
    (hahead : m.linked.Ahead lines
      (address + LinkedCode.widthOf ((Action.call name args).code b).1) t.point)
    (hready : m.Ready lines memory returns t) :
    m.Runs 1 (Registers.Stand address [] memory returns)
      ((Action.call name args).perform m.native? (some Stack.capacity) lines t)
      (m.Follows lines) := by
  rw [Action.code, LinkedCode.placed_append] at hplaced
  rw [Action.code, List.length_append, List.length_singleton] at hroom
  rw [Action.code, LinkedCode.widthOf_append, ← Nat.add_assoc] at hahead
  refine (runs_codeAll h hready.remembers.vars args [] hnames hplaced.1
    (by rw [List.length_nil]; omega)).bind_last fun vs r w hr => ?_
  have hi := LinkedCode.code_of_holds hplaced.2.1 rfl rfl
  rw [← hr.1] at hi
  exact (runs_exec h hi).bind
    (fun _ => Runs.pure fun _ hr => hready.follows hahead hr) r w hr.2

theorem runs_assign (h : m.hook = none) {items : List (Value R)} {name : String} {v : Value R}
    (hname : IsName name) (hi : m.linked.code[address]? = some (.pop name))
    (hready : m.Ready lines memory returns t) :
    m.Runs 1 (Registers.Stand address (v :: items) memory returns) (t.assign name v)
      fun t' r => m.Ready lines (memory.insert name v) returns t' ∧ t'.point = t.point ∧
        t' = { t with vars := t'.vars } ∧
        Registers.Stand (address + 1) items (memory.insert name v) returns r := by
  have hpop : m.Runs 1 (Registers.Stand address (v :: items) memory returns)
      (store name v : Effect W Unit) _ := runs_pop h hi
  by_cases htype : v.type = ValueType.ofName name
  · rw [store, if_pos htype] at hpop
    rw [Moment.assign, if_pos htype]
    intro r w hr
    obtain ⟨n, r', hn, hr'⟩ := hpop r w hr
    exact ⟨n, r', hn, ⟨hready.remembers.assign hname v, hready.returns⟩, rfl, rfl, hr'⟩
  · rw [store, if_neg htype] at hpop
    rw [Moment.assign, if_neg htype]
    exact hpop

theorem runs_popNumber (h : m.hook = none) {items : List (Value R)} {name : String}
    {v : Value R} (hname : namesString name = false)
    (hi : m.linked.code[address]? = some (.pop name)) :
    m.Runs 1 (Registers.Stand address (v :: items) memory returns)
      (Effect.ofExcept v.number? : Effect W R)
      fun n r =>
        Registers.Stand (address + 1) items (memory.insert name (.number n)) returns r := by
  have hpop : m.Runs 1 (Registers.Stand address (v :: items) memory returns)
      (store name v : Effect W Unit) _ := runs_pop h hi
  have htype : ValueType.ofName name = .number := by
    rw [ValueType.ofName, hname]
    rfl
  cases v with
  | number n =>
      rw [store, if_pos (show (Value.number n).type = _ from htype.symm)] at hpop
      exact hpop
  | string s =>
      rw [store, if_neg (by simp [htype, Value.type])] at hpop
      exact hpop

theorem runs_performAssign (h : m.hook = none) {name : String} {e : Expr R}
    (hname : IsName name) (hnames : ∀ n ∈ e.names, IsName n)
    (hplaced : m.linked.Placed address ((Action.assign name e).code b).1)
    (hroom : ((Action.assign name e).code b).1.length ≤ Stack.capacity)
    (hahead : m.linked.Ahead lines
      (address + LinkedCode.widthOf ((Action.assign name e).code b).1) t.point)
    (hready : m.Ready lines memory returns t) :
    m.Runs 1 (Registers.Stand address [] memory returns)
      ((Action.assign name e).perform m.native? (some Stack.capacity) lines t)
      (m.Follows lines) := by
  rw [Action.code, LinkedCode.placed_append] at hplaced
  rw [Action.code, List.length_append, List.length_singleton] at hroom
  rw [Action.code, LinkedCode.widthOf_append, ← Nat.add_assoc] at hahead
  refine (runs_code h hready.remembers.vars e [] hnames hplaced.1
    (by rw [List.length_nil]; omega)).bind fun v => ?_
  have hi := LinkedCode.code_of_holds hplaced.2.1 rfl rfl
  refine ((runs_assign h hname hi hready).imp ?_).weaken
  rintro t' r ⟨hready', hpoint, -, hr⟩
  exact hready'.follows (hpoint ▸ hahead) hr

theorem runs_stepValue (h : m.hook = none) {vars : Vars R} (hvars : Holds memory vars)
    (items : List (Value R)) {step : Option (Expr R)} {code : List (Instruction R String)}
    (hcode : code = match step with
      | some step => step.code
      | none => [.literal (.number NumberSystem.one)])
    (hnames : ∀ e ∈ step, ∀ n ∈ e.names, IsName n) (hplaced : m.linked.Placed address code)
    (hroom : items.length + code.length ≤ Stack.capacity) :
    m.Runs 0 (Registers.Stand address items memory returns)
      (stepValue m.native? vars step : Effect W (Value R))
      fun v => Registers.Stand (address + LinkedCode.widthOf code) (v :: items) memory
        returns := by
  subst hcode
  cases step with
  | some e => exact (runs_code h hvars e items (hnames e rfl) hplaced hroom).weaken
  | none => exact (runs_literal h (LinkedCode.code_of_holds hplaced.1 rfl rfl) hroom).weaken

theorem runs_performFor (h : m.hook = none) {loop : Loop} {start limit : Expr R}
    {step : Option (Expr R)} (hproper : (Action.for loop start limit step).Proper lines)
    (hplaced : m.linked.Placed address ((Action.for loop start limit step).code b).1)
    (hroom : ((Action.for loop start limit step).code b).1.length ≤ Stack.capacity)
    (hahead : m.linked.Ahead lines
      (address + LinkedCode.widthOf ((Action.for loop start limit step).code b).1) t.point)
    (hready : m.Ready lines memory returns t) :
    m.Runs 1 (Registers.Stand address [] memory returns)
      ((Action.for loop start limit step).perform m.native? (some Stack.capacity) lines t)
      (m.Follows lines) := by
  obtain ⟨hname, hstart, hlimit, hstep⟩ := hproper
  rw [Action.code, Stmt.loopCode.eq_def] at hplaced hroom hahead
  simp only [LinkedCode.placed_append, LinkedCode.widthOf_append, List.length_append,
    List.length_cons, List.length_nil, ← Nat.add_assoc] at hplaced hroom hahead
  obtain ⟨⟨⟨⟨⟨hstartCode, hstartPop, -⟩, hlimitCode⟩, hlimitPop, -⟩, hstepCode⟩, hstepPop, -⟩ :=
    hplaced
  have hstepRoom : ∀ n, start.code.length + 1 + limit.code.length + 1 + n + 1 + 1 ≤
      Stack.capacity → 0 + n ≤ Stack.capacity := by
    intro n hn
    omega
  refine (runs_code h hready.remembers.vars start [] hstart hstartCode
    (by rw [List.length_nil]; omega)).bind fun v => ?_
  refine ((runs_assign h hname (LinkedCode.code_of_holds hstartPop rfl rfl)
    hready).weaken).bind fun t' => ?_
  rintro r w ⟨hready', hpoint, -, hr⟩
  -- the memory has the new value from here on
  refine ((runs_code h hready'.remembers.vars limit [] hlimit hlimitCode
    (by rw [List.length_nil]; omega)).bind fun limitValue => ?_).weaken r w hr
  refine (runs_popNumber h (Place.namesString_limit _)
    (LinkedCode.code_of_holds hlimitPop rfl rfl)).weaken.bind fun limitNumber => ?_
  refine (runs_stepValue h (hready'.remembers.vars.insert fun _ hn => hn.ne_limit _) [] rfl
    hstep hstepCode (hstepRoom _ hroom)).bind fun stepValue => ?_
  refine (runs_popNumber h (Place.namesString_step _)
    (LinkedCode.code_of_holds hstepPop rfl rfl)).weaken.bind fun stepNumber => ?_
  refine Runs.pure fun r hr => ?_
  have hset := hready'.remembers.setLoop loop.number limitNumber stepNumber
  exact .of_stand hr (hpoint ▸ hahead) hset hready'.returns

theorem runs_performBranch (h : m.hook = none) {condition : Expr R}
    {thenBody elseBody : List (Action R)}
    (hproper : (Action.branch condition thenBody elseBody).Proper lines)
    (hplaced : m.linked.Placed address
      ((Action.branch condition thenBody elseBody).code b).1)
    (hroom : ((Action.branch condition thenBody elseBody).code b).1.length ≤ Stack.capacity)
    (hahead : m.linked.Ahead lines
      (address + LinkedCode.widthOf ((Action.branch condition thenBody elseBody).code b).1)
      t.point)
    (hready : m.Ready lines memory returns t) :
    m.Runs 1 (Registers.Stand address [] memory returns)
      ((Action.branch condition thenBody elseBody).perform m.native? (some Stack.capacity)
        lines t)
      (m.Follows lines) := by
  obtain ⟨hnames, hthen, helse⟩ := hproper
  obtain ⟨atElse, hbranch⟩ := LinkedCode.branchPlaced lines hplaced
  obtain ⟨hconditionLength, hthenLength, helseLength⟩ :=
    Action.bodies_length_le b condition thenBody elseBody
  refine (runs_code h hready.remembers.vars condition [] hnames
    hbranch.condition_placed (by rw [List.length_nil]; omega)).bind fun v => ?_
  have haheadThen := LinkedCode.ahead_codeAll hthen hbranch.then_placed (by omega)
    (hbranch.ahead_then _ hahead)
  have haheadElse := LinkedCode.ahead_codeAll helse hbranch.else_placed (by omega)
    (hbranch.ahead_else _ hahead)
  refine (Runs.of_execute h hbranch.test fun r w hr => ?_).weaken
  obtain ⟨stack, hpop, hitems⟩ := Stack.pop_of_cons hr.items_eq
  rw [execute, hpop]
  dsimp only
  cases htrue : v.isTrue? with
  | error e => exact ⟨rfl, verdict_fail_orLine e r.line⟩
  | ok holds =>
      cases holds with
      | true => exact ⟨rfl, (hready.goTo _).follows haheadThen (hr.forward hitems)⟩
      | false =>
          exact ⟨rfl, (hready.goTo _).follows haheadElse
            ⟨rfl, hitems, hr.memory_eq, hr.returns_eq⟩⟩

theorem runs_performGoto (h : m.hook = none) (hlabels : m.linked.Labels lines)
    {line : LineNumber} (hproper : (Action.goto line : Action R).Proper lines)
    (hplaced : m.linked.Placed address ((Action.goto line : Action R).code b).1)
    (hready : m.Ready lines memory returns t) :
    m.Runs 1 (Registers.Stand address [] memory returns)
      ((Action.goto line).perform m.native? (some Stack.capacity) lines t)
      (m.Follows lines) := by
  obtain ⟨point, hpoint⟩ := Option.isSome_iff_exists.mp hproper
  obtain ⟨target, hlabel, hahead⟩ := hlabels.line line point hpoint
  refine Runs.of_execute h (LinkedCode.jump_of_holds hplaced.1 hlabel) fun r w hr => ?_
  rw [execute, pollingBack_of_no_hook h, Action.perform, hpoint]
  exact ⟨rfl, (hready.goTo point).follows hahead
    ⟨rfl, hr.items_eq, hr.memory_eq, hr.returns_eq⟩⟩

theorem runs_performGosub (h : m.hook = none) (hlabels : m.linked.Labels lines)
    {line : LineNumber} (hproper : (Action.gosub line : Action R).Proper lines)
    (hplaced : m.linked.Placed address ((Action.gosub line : Action R).code b).1)
    (hahead : m.linked.Ahead lines
      (address + LinkedCode.widthOf ((Action.gosub line : Action R).code b).1) t.point)
    (hready : m.Ready lines memory returns t) :
    m.Runs 1 (Registers.Stand address [] memory returns)
      ((Action.gosub line).perform m.native? (some Stack.capacity) lines t)
      (m.Follows lines) := by
  obtain ⟨point, hpoint⟩ := Option.isSome_iff_exists.mp hproper
  obtain ⟨target, hlabel, haheadTarget⟩ := hlabels.line line point hpoint
  refine Runs.of_execute h (LinkedCode.gosub_of_holds hplaced.1 hlabel) fun r w hr => ?_
  have hlength : returns.length = t.returns.length := hready.returns.length_eq
  rw [execute, pollingBack_of_no_hook h, Action.perform, Moment.remember, hr.address_eq]
  by_cases hfull : t.returns.length < Stack.capacity
  · obtain ⟨stack, hpush, hitems⟩ :=
      Stack.push_of_lt hr.returns_eq (hlength ▸ hfull) (address + 1)
    rw [if_pos (by simpa using hfull), hpush, hpoint]
    have hstand : Registers.Stand target [] memory ((address + 1) :: returns)
        { r.goTo target with returns := stack } :=
      ⟨rfl, hr.items_eq, hr.memory_eq, hitems⟩
    refine ⟨rfl, .of_stand hstand haheadTarget ?_ ?_⟩
    · exact ⟨hready.remembers.vars, hready.remembers.limits, hready.remembers.steps⟩
    · exact .cons hahead hready.returns
  · have hpush : r.returns.push (address + 1) =
        .error (ErrorCode.outOfMemory.error r.returns.overflow) := by
      rw [Stack.push, if_neg (by rwa [r.returns.size_eq, hr.returns_eq, hlength])]
    rw [if_neg (by simpa using hfull), hpush]
    exact ⟨rfl, verdict_fail_orLine _ _⟩

theorem runs_performReturn (h : m.hook = none)
    (hplaced : m.linked.Placed address ((Action.return : Action R).code b).1)
    (hready : m.Ready lines memory returns t) :
    m.Runs 1 (Registers.Stand address [] memory returns)
      (Action.return.perform m.native? (some Stack.capacity) lines t) (m.Follows lines) := by
  refine Runs.of_execute h (LinkedCode.code_of_holds hplaced.1 rfl rfl) fun r w hr => ?_
  rw [execute, Action.perform]
  cases hreturns : t.returns with
  | nil =>
      have hnil : r.returns.items = [] := by
        have hforall := hreturns ▸ hready.returns
        rw [hr.returns_eq]
        exact List.forall₂_nil_right_iff.mp hforall
      have hpop : r.returns.pop = (.error Stack.underflow, r.returns) := by
        unfold Stack.pop
        split
        · rfl
        · rename_i hcons
          rw [hnil] at hcons
          cases hcons
      rw [hpop]
      exact ⟨rfl, verdict_fail_orLine { code := .returnWithoutGosub } _⟩
  | cons point points =>
      have hforall := hreturns ▸ hready.returns
      obtain ⟨a, rest, hahead, hrest, rfl⟩ := List.forall₂_cons_right_iff.mp hforall
      obtain ⟨stack, hpop, hitems⟩ := Stack.pop_of_cons hr.returns_eq
      rw [hpop]
      have hstand : Registers.Stand a [] memory rest
          { r.goTo a with returns := stack } :=
        ⟨rfl, hr.items_eq, hr.memory_eq, hitems⟩
      refine ⟨rfl, .of_stand hstand hahead ?_ hrest⟩
      exact ⟨hready.remembers.vars, hready.remembers.limits, hready.remembers.steps⟩

theorem readNumber_eq {r : Registers R} {name : String} {n : R}
    (h : (r.memory[name]?).getD (.number NumberSystem.zero) = .number n) :
    r.readNumber name = .ok n := by
  rw [Registers.readNumber]
  cases hmemory : r.memory[name]? with
  | none =>
      rw [hmemory] at h
      cases h
      rfl
  | some v =>
      rw [hmemory, Option.getD_some] at h
      rw [h]
      rfl

theorem readNumber_of_vars {r : Registers R} {name : String} {v : Value R}
    (hname : namesString name = false)
    (h : (r.memory[name]?).getD (.default name) = v) : r.readNumber name = v.number? := by
  rw [Registers.readNumber]
  cases hmemory : r.memory[name]? with
  | none =>
      rw [hmemory, Option.getD_none, Value.default, hname] at h
      rw [← h]
      rfl
  | some v' =>
      rw [hmemory, Option.getD_some] at h
      rw [h]

theorem runs_performNext (h : m.hook = none) (hlabels : m.linked.Labels lines) {loop : Loop}
    (hproper : (Action.next loop : Action R).Proper lines)
    (hplaced : m.linked.Placed address ((Action.next loop : Action R).code b).1)
    (hahead : m.linked.Ahead lines
      (address + LinkedCode.widthOf ((Action.next loop : Action R).code b).1) t.point)
    (hready : m.Ready lines memory returns t) :
    m.Runs 1 (Registers.Stand address [] memory returns)
      ((Action.next loop).perform m.native? (some Stack.capacity) lines t)
      (m.Follows lines) := by
  obtain ⟨hname, hnumber, hbehind⟩ := hproper
  obtain ⟨point, hpoint⟩ := Option.isSome_iff_exists.mp hbehind
  obtain ⟨target, hlabel, haheadTarget⟩ := hlabels.body loop.number point hpoint
  rw [Action.code_next] at hplaced hahead
  refine Runs.of_execute h (LinkedCode.next_of_holds hplaced.1 hlabel) fun r w hr => ?_
  have hlimit := readNumber_eq (r := r) (hr.memory_eq ▸ hready.remembers.limits loop.number)
  have hstep := readNumber_eq (r := r) (hr.memory_eq ▸ hready.remembers.steps loop.number)
  have hvar := readNumber_of_vars hnumber
    (hr.memory_eq ▸ hready.remembers.vars loop.name hname)
  rw [execute, Machine.loop, hlimit, hstep, hvar, Action.perform]
  cases hvalue : (t.vars loop.name).number? with
  | error e => exact ⟨rfl, verdict_fail_orLine e _⟩
  | ok value =>
      have hready' : m.Ready lines
          (memory.insert loop.name (.number (NumberSystem.add value (t.steps loop.number))))
          returns { t with
            vars := Function.update t.vars loop.name
              (.number (NumberSystem.add value (t.steps loop.number))) } :=
        ⟨hready.remembers.assign hname _, hready.returns⟩
      have hmemory : r.memory.insert loop.name
          (.number (NumberSystem.add value (t.steps loop.number))) =
          memory.insert loop.name (.number (NumberSystem.add value (t.steps loop.number))) := by
        rw [hr.memory_eq]
      change Fits (m.Follows lines) (t.turn lines loop value w) _
      simp only [Moment.turn, Bind.bind, Except.bind, Pure.pure, Except.pure]
      generalize (if NumberSystem.atLeastZero (t.steps loop.number) then
        NumberSystem.atMost (NumberSystem.add value (t.steps loop.number))
          (t.limits loop.number)
        else NumberSystem.atMost (t.limits loop.number)
          (NumberSystem.add value (t.steps loop.number))) = more
      cases more with
      | true =>
          rw [if_pos rfl, polling, poll_of_no_hook h, hpoint]
          exact ⟨rfl, (hready'.goTo point).follows haheadTarget
            ⟨rfl, hr.items_eq, hmemory, hr.returns_eq⟩⟩
      | false =>
          exact ⟨rfl, hready'.follows hahead
            ⟨congrArg (· + 1) hr.address_eq, hr.items_eq, hmemory, hr.returns_eq⟩⟩

end

end Machine

end LineBasic
