import LineBasic.Proofs.Calls
import LineBasic.Proofs.Places

namespace LineBasic

variable {R W : Type}

/-- An answer is one of a native with the given type of result, if it has one:
its error is none that checks rule out. -/
def Answer.Keeps (result : Option ValueType) : Answer R → Prop
  | value v => ∀ type, result = some type → v.type = type
  | error e => e.code.isFault = false
  | panic => True

/-- Every native that is declared is there, and answers as its signature says
when it is called as the signature asks for. PRINT takes whatever there is. -/
structure Natives.Honour (registry : Registry) (natives : Natives R W) : Prop where
  print : ∃ native : Native R W, natives "PRINT" = some native ∧
    ∀ args w, (native args w).1.Keeps none
  declared : ∀ name signature, registry.get? name = some signature →
    ∃ native : Native R W, natives name = some native ∧ ∀ args w,
      signature.fits (args.map Value.type) → (native args w).1.Keeps signature.result

namespace Registers

/-- What registers hold besides an address and a stack of values fits the types
of some code. -/
structure Kept (registry : Registry) (code : List (Instruction R String))
    (memory : Std.TreeMap String (Value R)) (returns : Stack Nat) : Prop where
  typed : ∀ (name : String) (v : Value R), memory[name]? = some v → v.type = .ofName name
  emptyAt : ∀ address ∈ returns.items, EmptyAt registry code address
  overflow_eq : returns.overflow = "TOO MANY GOSUBS"

/-- Registers fit the types of some code. -/
structure Typed (registry : Registry) (code : List (Instruction R String))
    (r : Registers R) : Prop where
  typesAt : TypesAt registry code r.address (r.stack.items.map Value.type)
  kept : Kept registry code r.memory r.returns

variable {registry : Registry} {code : List (Instruction R String)}

theorem Kept.type_read [NumberSystem R] {r : Registers R}
    (h : Kept registry code r.memory r.returns) (name : String) :
    (r.read name).type = .ofName name := by
  rw [Registers.read]
  cases hname : r.memory[name]? with
  | none => exact Value.type_default name
  | some v => exact h.typed name v hname

theorem Kept.readNumber_isOk [NumberSystem R] {r : Registers R}
    (h : Kept registry code r.memory r.returns) {name : String}
    (hname : namesString name = false) : ∃ n, r.readNumber name = .ok n := by
  rw [Registers.readNumber]
  cases hvalue : r.memory[name]? with
  | none => exact ⟨_, rfl⟩
  | some v =>
      have htype := h.typed name v hvalue
      rw [ValueType.ofName, hname] at htype
      obtain ⟨n, rfl⟩ := Value.exists_number htype
      exact ⟨n, rfl⟩

theorem Kept.insert {memory : Std.TreeMap String (Value R)} {returns : Stack Nat}
    (h : Kept registry code memory returns) {name : String} {v : Value R}
    (hv : v.type = .ofName name) :
    Kept registry code (memory.insert name v) returns := by
  refine ⟨fun other v' hother => ?_, h.emptyAt, h.overflow_eq⟩
  rw [Std.TreeMap.getElem?_insert] at hother
  split at hother
  · rename_i heq
    rw [Std.LawfulEqCmp.compare_eq_iff_eq] at heq
    cases hother
    rw [hv, heq]
  · exact h.typed other v' hother

end Registers

namespace Machine

/-- An error is what a native answered to some call. -/
def Raises (m : Machine R W) (e : Error) : Prop :=
  ∃ (name : String) (native : Native R W) (args : List (Value R)) (w : W) (answer : Error)
    (line : Option LineNumber), m.natives[name]? = some native ∧
      (native args w).1 = .error answer ∧ e = answer.orLine line

/-- A checked program may come to an error: it is none that checks rule out, and
only a native says that an expression is too complex. -/
def Allows (m : Machine R W) (e : Error) : Prop :=
  e.code.isFault = false ∧ (e.text = "EXPRESSION TOO COMPLEX" → m.Raises e)

def Safe (m : Machine R W) (registry : Registry) (code : List (Instruction R String)) :
    Progress R → Prop
  | .running r => r.Typed registry code
  | .ended (.failed e) _ => m.Allows e
  | .ended _ _ => True

/-- A machine has code that was checked, and natives that honour what it was
checked against. -/
structure Checked (m : Machine R W) (registry : Registry)
    (code : List (Instruction R String)) : Prop where
  link_eq : LinkedCode.link code = .ok m.linked
  typed : typesBehind? registry [] code ≠ none
  room : code.length ≤ Program.maxCode
  honour : m.native?.Honour registry

variable {m : Machine R W} {registry : Registry} {code : List (Instruction R String)}

theorem text_orLine (e : Error) (line : Option LineNumber) : (e.orLine line).text = e.text := by
  unfold Error.orLine
  split <;> rfl

theorem safe_fail {e : Error} (r : Registers R) (hcode : e.code.isFault = false)
    (htext : e.text ≠ "EXPRESSION TOO COMPLEX") : m.Safe registry code (r.fail e) := by
  refine ⟨?_, fun h => ?_⟩
  · rw [Error.orLine_code, hcode]
  · rw [text_orLine] at h
    exact absurd h htext

theorem safe_polling {next : Progress R} (h : m.Safe registry code next) (r : Registers R)
    (w : W) : m.Safe registry code (m.polling r w next).1 := by
  unfold polling
  split
  · exact safe_fail r rfl (by decide)
  · exact h

theorem safe_pollingBack {next : Progress R} (h : m.Safe registry code next) (target : Nat)
    (r : Registers R) (w : W) : m.Safe registry code (m.pollingBack target r w next).1 := by
  unfold pollingBack
  split
  · exact safe_polling h r w
  · exact h

variable {r : Registers R} {types : List ValueType}

theorem safe_pushing {v : Value R} (hkept : Registers.Kept registry code r.memory r.returns)
    (hroom : r.stack.items.length < Stack.capacity)
    (htypes : TypesAt registry code r.address (v.type :: r.stack.items.map Value.type)) :
    m.Safe registry code (r.pushing v) := by
  obtain ⟨stack, hpush, hitems⟩ := Stack.push_of_lt rfl hroom v
  rw [Registers.pushing, hpush]
  refine ⟨?_, hkept⟩
  dsimp only
  rw [hitems]
  exact htypes

theorem safe_pushingResult {result : Except Error (Value R)} {type : ValueType}
    (hkept : Registers.Kept registry code r.memory r.returns)
    (hroom : r.stack.items.length < Stack.capacity) (hyields : Yields type result)
    (htypes : TypesAt registry code r.address (type :: r.stack.items.map Value.type)) :
    m.Safe registry code (r.pushingResult result) := by
  cases result with
  | error e =>
      refine safe_fail r hyields.1 ?_
      rw [hyields.2]
      decide
  | ok v =>
      cases hyields
      exact safe_pushing hkept hroom htypes

variable [NumberSystem R]

/-- What is known before an instruction of checked code is executed. -/
structure Prepared (m : Machine R W) (registry : Registry) (code : List (Instruction R String))
    (i : Instruction R String) (r : Registers R) : Prop where
  checked : m.Checked registry code
  kept : Registers.Kept registry code r.memory r.returns
  room : r.stack.items.length < Stack.capacity
  next : ∃ types, i.types? registry (r.stack.items.map Value.type) = some types ∧
    TypesAt registry code (r.address + 1) types

namespace Prepared

omit [NumberSystem R]

variable {i : Instruction R String} {j : Instruction R Nat}

theorem of_typed (hm : m.Checked registry code) (hr : r.Typed registry code)
    {j : Instruction R Nat} (hj : m.linked.code[r.address]? = some j) :
    ∃ i, i.resolve (LinkedCode.find m.linked.labels) = .ok j ∧ m.Prepared registry code i r := by
  obtain ⟨front, back, hplace⟩ := hr.typesAt
  have hbound : r.address < LinkedCode.widthOf code := by
    rw [← LinkedCode.size_of_link hm.link_eq]
    exact (Array.getElem?_eq_some_iff.mp hj).1
  obtain ⟨i, front, back, hstands⟩ := exists_standsIn hm.typed hplace hbound
  obtain ⟨j', hresolve, hcode⟩ := hstands.code_eq (LinkedCode.placed_of_link hm.link_eq)
  obtain ⟨types, htypes⟩ := hstands.exists_types? hm.typed
  have hlength := hstands.length_lt
  rw [hj] at hcode
  cases hcode
  rw [List.length_map] at hlength
  exact ⟨i, hresolve, hm, hr.kept, Nat.lt_of_lt_of_le hlength hm.room, types, htypes,
    hstands.typesAt_next htypes⟩

/-- Nothing is on the stack where a branch goes. -/
theorem branch (h : m.Prepared registry code i r) {name : String} {target : Nat}
    (htarget : LinkedCode.find m.linked.labels name = .ok target) :
    TypesAt registry code target [] :=
  typesAt_nil_iff.mpr (LinkedCode.emptyAt_of_label h.checked.typed h.checked.link_eq
    (LinkedCode.label_of_find htarget))

/-- The stack is empty before and behind an instruction that asks for that. -/
theorem empty (h : m.Prepared registry code i r)
    (htypes : ∀ types, i.types? registry types = if types = [] then some [] else none) :
    r.stack.items = [] ∧ TypesAt registry code (r.address + 1) [] := by
  obtain ⟨types, heq, hnext⟩ := h.next
  rw [htypes] at heq
  obtain ⟨hnil, hsome⟩ := Option.ite_none_right_eq_some.mp heq
  cases hsome
  exact ⟨List.map_eq_nil_iff.mp hnil, hnext⟩

end Prepared

section

variable {w : W}

omit [NumberSystem R] in
theorem safe_at (r : Registers R) (hkept : Registers.Kept registry code r.memory r.returns)
    (hitems : r.stack.items = []) (h : TypesAt registry code r.address []) :
    m.Safe registry code (.running r) := by
  refine ⟨?_, hkept⟩
  rw [hitems]
  exact h

theorem safe_literal {v : Value R} (h : m.Prepared registry code (.literal v) r) :
    m.Safe registry code (m.execute (.literal v) r w).1 := by
  obtain ⟨types, htypes, hnext⟩ := h.next
  cases htypes
  exact safe_pushing h.kept h.room hnext

theorem safe_push {name : String} (h : m.Prepared registry code (.push name) r) :
    m.Safe registry code (m.execute (.push name) r w).1 := by
  obtain ⟨types, htypes, hnext⟩ := h.next
  cases htypes
  refine safe_pushing h.kept h.room ?_
  rw [h.kept.type_read name]
  exact hnext

theorem safe_pop {name : String} (h : m.Prepared registry code (.pop name) r) :
    m.Safe registry code (m.execute (.pop name) r w).1 := by
  obtain ⟨types, htypes, hnext⟩ := h.next
  cases hitems : r.stack.items with
  | nil =>
      rw [hitems] at htypes
      cases htypes
  | cons v items =>
      rw [hitems] at htypes
      obtain ⟨htype, hsome⟩ := Option.ite_none_right_eq_some.mp htypes
      cases hsome
      obtain ⟨stack, hpop, hstack⟩ := Stack.pop_of_cons hitems
      rw [execute, hpop]
      dsimp only
      rw [if_pos htype]
      refine ⟨?_, h.kept.insert htype⟩
      dsimp only [Registers.assign, Registers.forward]
      rw [hstack]
      exact hnext

theorem safe_ifNot {name : String} {target : Nat}
    (h : m.Prepared registry code (.ifNot name) r)
    (htarget : LinkedCode.find m.linked.labels name = .ok target) :
    m.Safe registry code (m.execute (.ifNot target) r w).1 := by
  obtain ⟨types, htypes, hnext⟩ := h.next
  obtain ⟨hnumber, hsome⟩ := Option.ite_none_right_eq_some.mp htypes
  cases hsome
  obtain ⟨v, hitems, htype⟩ := List.map_eq_singleton_iff.mp hnumber
  obtain ⟨n, rfl⟩ := Value.exists_number htype
  obtain ⟨stack, hpop, hstack⟩ := Stack.pop_of_cons hitems
  rw [execute, hpop]
  have htrue : (Value.number n).isTrue? = .ok !NumberSystem.isZero n := rfl
  dsimp only
  rw [htrue]
  cases NumberSystem.isZero n with
  | true => exact safe_at _ h.kept hstack (h.branch htarget)
  | false => exact safe_at _ h.kept hstack hnext

theorem safe_gosub {name : String} {target : Nat}
    (h : m.Prepared registry code (.gosub name) r)
    (htarget : LinkedCode.find m.linked.labels name = .ok target) :
    m.Safe registry code (m.execute (.gosub target) r w).1 := by
  obtain ⟨hitems, hnext⟩ := h.empty fun _ => rfl
  refine safe_pollingBack ?_ target r w
  rw [Stack.push]
  split
  · rename_i returns hpush
    split at hpush
    · cases hpush
      refine safe_at _ ⟨h.kept.typed, ?_, h.kept.overflow_eq⟩ hitems (h.branch htarget)
      rintro address haddress
      rcases List.mem_cons.mp haddress with rfl | haddress
      · exact typesAt_nil_iff.mp hnext
      · exact h.kept.emptyAt address haddress
    · cases hpush
  · rename_i e hpush
    split at hpush
    · cases hpush
    · cases hpush
      refine safe_fail r rfl ?_
      rw [h.kept.overflow_eq]
      decide

theorem safe_return (h : m.Prepared registry code .return r) :
    m.Safe registry code (m.execute .return r w).1 := by
  obtain ⟨hitems, -⟩ := h.empty fun _ => rfl
  rw [execute]
  cases hreturns : r.returns.items with
  | nil =>
      have hpop : r.returns.pop = (.error Stack.underflow, r.returns) := by
        unfold Stack.pop
        split
        · rfl
        · rename_i hcons
          rw [hreturns] at hcons
          cases hcons
      rw [hpop]
      exact safe_fail _ rfl (by decide)
  | cons address addresses =>
      obtain ⟨returns, hpop, hrest⟩ := Stack.pop_of_cons hreturns
      rw [hpop]
      have hemptyAt := h.kept.emptyAt
      rw [hreturns, List.forall_mem_cons] at hemptyAt
      refine safe_at _ ⟨h.kept.typed, ?_, ?_⟩ hitems (typesAt_nil_iff.mpr hemptyAt.1)
      · dsimp only
        rw [hrest]
        exact hemptyAt.2
      · have hsame : returns.overflow = r.returns.overflow := by
          rw [show returns = r.returns.pop.2 by rw [hpop], Stack.pop]
          split <;> rfl
        exact hsame.trans h.kept.overflow_eq

theorem safe_next {var limit step name : String} {body : Nat}
    (h : m.Prepared registry code (.next var limit step name) r)
    (hbody : LinkedCode.find m.linked.labels name = .ok body) :
    m.Safe registry code (m.execute (.next var limit step body) r w).1 := by
  obtain ⟨types, htypes, hnext⟩ := h.next
  obtain ⟨⟨hnil, hvar, hlimit, hstep⟩, hsome⟩ := Option.ite_none_right_eq_some.mp htypes
  cases hsome
  have hitems := List.map_eq_nil_iff.mp hnil
  obtain ⟨x, hx⟩ := h.kept.readNumber_isOk hvar
  obtain ⟨y, hy⟩ := h.kept.readNumber_isOk hlimit
  obtain ⟨z, hz⟩ := h.kept.readNumber_isOk hstep
  have hvalue : (Value.number (NumberSystem.add x z)).type = .ofName var := by
    rw [ValueType.ofName, hvar]
    rfl
  have hkept := h.kept.insert hvalue
  let turned := r.assign var (.number (NumberSystem.add x z))
  have hturn (more : Bool) :
      m.Safe registry code (if more then m.polling turned w (.running (turned.goTo body))
        else (.running turned.forward, w)).1 := by
    cases more with
    | true =>
        exact safe_polling (safe_at (turned.goTo body) hkept hitems (h.branch hbody)) turned w
    | false => exact safe_at turned.forward hkept hitems hnext
  simp only [execute, loop, hx, hy, hz, Bind.bind, Except.bind, Pure.pure, Except.pure]
  split <;> exact hturn _

theorem safe_unary {op : UnaryOp} (h : m.Prepared registry code (.unary op) r) :
    m.Safe registry code (m.execute (.unary op) r w).1 := by
  obtain ⟨types, htypes, hnext⟩ := h.next
  have hroom := h.room
  rcases hitems : r.stack.items with _ | ⟨v, items⟩ <;> rw [hitems] at htypes hroom
  · cases htypes
  · obtain ⟨htype, rfl⟩ : v.type = .number ∧ types = .number :: items.map Value.type := by
      cases v with
      | number n => exact ⟨rfl, (Option.some.inj htypes).symm⟩
      | string s => cases htypes
    obtain ⟨stack, hpop, rfl⟩ := Stack.pop_of_cons hitems
    rw [List.length_cons] at hroom
    rw [execute, hpop]
    refine safe_pushingResult h.kept ?_ (op.yields_apply htype) hnext
    exact Nat.lt_of_succ_lt hroom

theorem safe_binary {op : BinaryOp} (h : m.Prepared registry code (.binary op) r) :
    m.Safe registry code (m.execute (.binary op) r w).1 := by
  obtain ⟨types, htypes, hnext⟩ := h.next
  have hroom := h.room
  rcases hitems : r.stack.items with _ | ⟨y, _ | ⟨x, items⟩⟩ <;> rw [hitems] at htypes hroom
  · cases htypes
  · cases htypes
  · obtain ⟨type, hresult, rfl⟩ := Option.map_eq_some_iff.mp htypes
    obtain ⟨stack, hpop, rfl⟩ := Stack.pop2_of_cons hitems
    simp only [List.length_cons] at hroom
    rw [execute, hpop]
    refine safe_pushingResult h.kept ?_ (BinaryOp.yields_apply hresult) hnext
    exact Nat.lt_of_succ_lt (Nat.lt_of_succ_lt hroom)

omit [NumberSystem R] in
/-- A call is safe if the native keeps what is promised for the arguments, and
what becomes of its value is safe. -/
theorem safe_callNative {name : String} {count : Nat} {result : Option ValueType}
    {keep : Value R → Registers R → Progress R} (hcount : count ≤ r.stack.items.length)
    (hnative : ∃ native : Native R W, m.native? name = some native ∧
      (native (r.stack.items.take count).reverse w).1.Keeps result)
    (hkeep : ∀ v stack, (∀ type, result = some type → v.type = type) →
      stack.items = r.stack.items.drop count →
      m.Safe registry code (keep v { r.forward with stack })) :
    m.Safe registry code (m.callNative name count keep r w).1 := by
  obtain ⟨native, hname, hkeeps⟩ := hnative
  have hargs : r.stack.items =
      (r.stack.items.take count).reverse.reverse ++ r.stack.items.drop count := by
    rw [List.reverse_reverse, List.take_append_drop]
  have hlength : (r.stack.items.take count).reverse.length = count := by
    rw [List.length_reverse, List.length_take, Nat.min_eq_left hcount]
  obtain ⟨stack, hpop, hstack⟩ := Stack.popN_of_append hargs
  rw [hlength] at hpop
  rw [native?] at hname
  rw [callNative, hpop, hname]
  dsimp only
  rcases hanswer : native (r.stack.items.take count).reverse w with ⟨answer, w'⟩
  rw [hanswer] at hkeeps
  cases answer with
  | value v => exact hkeep v stack hkeeps hstack
  | error e =>
      refine ⟨?_, fun _ => ⟨name, native, _, w, e, _, hname, congrArg Prod.fst hanswer, rfl⟩⟩
      rw [Error.orLine_code]
      exact hkeeps
  | panic => trivial

theorem safe_call {name : String} {count : Nat}
    (h : m.Prepared registry code (.call name count) r) :
    m.Safe registry code (m.execute (.call name count) r w).1 := by
  obtain ⟨types, htypes, hnext⟩ := h.next
  cases hget : registry.get? name with
  | none =>
      rw [Instruction.types?, hget] at htypes
      cases htypes
  | some signature =>
      rw [Instruction.types?, hget] at htypes
      obtain ⟨⟨hcount, hfits⟩, hresult⟩ := Option.ite_none_right_eq_some.mp htypes
      obtain ⟨type, htype, rfl⟩ := Option.map_eq_some_iff.mp hresult
      obtain ⟨native, hnative, hkeeps⟩ := h.checked.honour.declared name signature hget
      rw [List.length_map] at hcount
      refine safe_callNative hcount ⟨native, hnative, hkeeps _ w ?_⟩ fun v stack hv hstack => ?_
      · rw [List.map_reverse, List.map_take]
        exact hfits
      · refine safe_pushing h.kept ?_ ?_
        · have hroom := h.room
          dsimp only
          rw [hstack, List.length_drop]
          omega
        · dsimp only
          rw [hstack, hv type htype, List.map_drop]
          exact hnext

theorem safe_exec {name : String} {count : Nat}
    (h : m.Prepared registry code (.exec name count) r) :
    m.Safe registry code (m.execute (.exec name count) r w).1 := by
  obtain ⟨types, htypes, hnext⟩ := h.next
  obtain ⟨⟨hcount, hname⟩, hsome⟩ := Option.ite_none_right_eq_some.mp htypes
  cases hsome
  rw [List.length_map] at hcount
  subst hcount
  have hnative : ∃ (native : Native R W) (result : Option ValueType),
      m.native? name = some native ∧ (native r.stack.items.reverse w).1.Keeps result := by
    rcases hname with rfl | hfits
    · obtain ⟨native, hnative, hkeeps⟩ := h.checked.honour.print
      exact ⟨native, none, hnative, hkeeps _ w⟩
    · obtain ⟨signature, hget, hfits⟩ : ∃ signature, registry.get? name = some signature ∧
          signature.fits (r.stack.items.map Value.type).reverse := by
        cases hget : registry.get? name with
        | none =>
            rw [hget] at hfits
            cases hfits
        | some signature =>
            rw [hget] at hfits
            exact ⟨signature, rfl, hfits⟩
      obtain ⟨native, hnative, hkeeps⟩ := h.checked.honour.declared name signature hget
      refine ⟨native, signature.result, hnative, hkeeps _ w ?_⟩
      rw [List.map_reverse]
      exact hfits
  obtain ⟨native, result, hnative, hkeeps⟩ := hnative
  rw [← List.take_length (l := r.stack.items)] at hkeeps
  refine safe_callNative (Nat.le_refl _) ⟨native, hnative, hkeeps⟩ fun v stack _ hstack => ?_
  rw [List.drop_length] at hstack
  exact safe_at _ h.kept hstack hnext

end

theorem safe_execute {i : Instruction R String} {j : Instruction R Nat}
    (h : m.Prepared registry code i r)
    (hj : i.resolve (LinkedCode.find m.linked.labels) = .ok j) (w : W) :
    m.Safe registry code (m.execute j r w).1 := by
  cases i with
  | label _ | line _ =>
      cases hj
      obtain ⟨hitems, hnext⟩ := h.empty fun _ => rfl
      exact safe_at _ h.kept hitems hnext
  | literal v =>
      cases hj
      exact safe_literal h
  | push name =>
      cases hj
      exact safe_push h
  | pop name =>
      cases hj
      exact safe_pop h
  | jump name =>
      obtain ⟨target, htarget, hj⟩ := Stmt.bind_eq_ok hj
      cases hj
      obtain ⟨hitems, -⟩ := h.empty fun _ => rfl
      exact safe_pollingBack (safe_at (r.goTo target) h.kept hitems (h.branch htarget)) _ r w
  | ifNot name =>
      obtain ⟨target, htarget, hj⟩ := Stmt.bind_eq_ok hj
      cases hj
      exact safe_ifNot h htarget
  | gosub name =>
      obtain ⟨target, htarget, hj⟩ := Stmt.bind_eq_ok hj
      cases hj
      exact safe_gosub h htarget
  | «return» =>
      cases hj
      exact safe_return h
  | next var limit step name =>
      obtain ⟨body, hbody, hj⟩ := Stmt.bind_eq_ok hj
      cases hj
      exact safe_next h hbody
  | «end» =>
      cases hj
      trivial
  | call name count =>
      cases hj
      exact safe_call h
  | exec name count =>
      cases hj
      exact safe_exec h
  | unary op =>
      cases hj
      exact safe_unary h
  | binary op =>
      cases hj
      exact safe_binary h

theorem Checked.safe_step (hm : m.Checked registry code) (hr : r.Typed registry code) (w : W) :
    m.Safe registry code (m.step r w).1 := by
  unfold step
  cases hj : m.linked.code[r.address]? with
  | none => trivial
  | some j =>
      obtain ⟨i, hresolve, hprepared⟩ := Prepared.of_typed hm hr hj
      have hexecute (countdown : Nat) (w : W) :
          m.Safe registry code (m.execute j { r with countdown } w).1 :=
        safe_execute (r := { r with countdown })
          ⟨hm, hprepared.kept, hprepared.room, hprepared.next⟩ hresolve w
      dsimp only
      split
      · rcases m.poll w with ⟨_ | _, w⟩
        · exact hexecute _ w
        · exact safe_fail _ rfl (by decide)
      · exact hexecute _ w

/-- Runs of checked code are safe. -/
theorem Checked.safe_advance (hm : m.Checked registry code) (fuel : Nat)
    (hr : r.Typed registry code) (w : W) :
    m.Safe registry code (m.advance fuel r w).1 := by
  induction fuel generalizing r w with
  | zero => exact hr
  | succ fuel ih =>
      have hstep := hm.safe_step hr w
      rw [advance]
      rcases hprogress : m.step r w with ⟨_ | ⟨ending, r'⟩, w'⟩ <;> rw [hprogress] at hstep
      · exact ih hstep w'
      · exact hstep

omit [NumberSystem R] in
/-- The registers at the start of a run of checked code fit its types. -/
theorem Checked.typed_start (hm : m.Checked registry code) {entry : String}
    (h : m.start entry = .ok r) : r.Typed registry code := by
  unfold start at h
  split at h
  · rename_i address hentry
    cases h
    refine ⟨typesAt_nil_iff.mpr (LinkedCode.emptyAt_of_label hm.typed hm.link_eq hentry), ?_⟩
    exact ⟨by simp, by simp [Stack.empty], rfl⟩
  · cases h

end Machine

end LineBasic
