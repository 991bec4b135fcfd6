import LineBasic.Proofs.Correctness

/-!
The types of what code has on the stack. They can be told from the code alone: nothing is on the stack at labels, at
branches and between statements, and in between every instruction finds what it takes. The code of sound programs is of
this kind.
-/

namespace LineBasic

variable {R : Type}

/-- Arguments of the given types are such as a signature asks for, the first of
them being number `index`. -/
def Signature.takes (s : Signature) (index : Nat) : List ValueType → Bool
  | [] => true
  | type :: types =>
      (s.parameter? index).all (fun wanted => type == wanted) && s.takes (index + 1) types

def Signature.fits (s : Signature) (types : List ValueType) : Bool :=
  s.accepts types.length && s.takes 0 types

namespace Instruction

variable {T : Type}

/-- The types on the stack behind an instruction, the top first, if the
instruction finds what it takes. -/
def types? (registry : Registry) : Instruction R T → List ValueType → Option (List ValueType)
  | label _, types | line _, types | jump _, types | gosub _, types | .return, types
  | .end, types => if types = [] then some [] else none
  | literal v, types => some (v.type :: types)
  | push name, types => some (.ofName name :: types)
  | pop name, types =>
      match types with
      | type :: types => if type = .ofName name then some types else none
      | [] => none
  | ifNot _, types => if types = [.number] then some [] else none
  | next var limit step _, types =>
      if types = [] ∧ namesString var = false ∧ namesString limit = false ∧
        namesString step = false then some [] else none
  | call name count, types =>
      match registry.get? name with
      | some signature =>
          if count ≤ types.length ∧ signature.fits (types.take count).reverse then
            signature.result.map (· :: types.drop count)
          else none
      | none => none
  | exec name count, types =>
      if types.length = count ∧
        (name = "PRINT" ∨
          (registry.get? name).any fun signature => signature.fits types.reverse) then some []
      else none
  | unary _, types =>
      match types with
      | .number :: types => some (.number :: types)
      | _ => none
  | binary op, types =>
      match types with
      | right :: left :: types => (op.resultType? left right).map (· :: types)
      | _ => none

end Instruction

/-- The types on the stack behind some code. -/
def typesBehind? {T : Type} (registry : Registry) (types : List ValueType) :
    List (Instruction R T) → Option (List ValueType)
  | [] => some types
  | i :: code => (i.types? registry types).bind fun types => typesBehind? registry types code

variable {registry : Registry}

theorem typesBehind?_append {T : Type} (types : List ValueType)
    (code code' : List (Instruction R T)) :
    typesBehind? registry types (code ++ code') =
      (typesBehind? registry types code).bind fun types => typesBehind? registry types code' := by
  induction code generalizing types with
  | nil => rfl
  | cons i code ih =>
      rw [List.cons_append, typesBehind?, typesBehind?, Option.bind_assoc]
      exact Option.bind_congr fun types _ => ih types

theorem typesBehind?_of_append {T : Type} {types types' types'' : List ValueType}
    {code code' : List (Instruction R T)} (h : typesBehind? registry types code = some types')
    (h' : typesBehind? registry types' code' = some types'') :
    typesBehind? registry types (code ++ code') = some types'' := by
  rw [typesBehind?_append, h, Option.bind_some, h']

theorem typesBehind?_singleton {T : Type} (types : List ValueType) (i : Instruction R T) :
    typesBehind? registry types [i] = i.types? registry types := by
  rw [typesBehind?]
  cases i.types? registry types <;> rfl

namespace Instruction

theorem length_types?_le {T : Type} {i : Instruction R T} {types types' : List ValueType}
    (h : i.types? registry types = some types') : types'.length ≤ types.length + 1 := by
  cases i with
  | label name | line number | jump t | gosub t | «return» | «end» | ifNot t
  | next var limit step t | exec name count =>
      obtain ⟨-, htypes⟩ := Option.ite_none_right_eq_some.mp h
      cases htypes
      exact Nat.zero_le _
  | literal v | push name =>
      cases h
      exact Nat.le_refl _
  | pop name =>
      cases types with
      | nil => cases h
      | cons type types =>
          obtain ⟨-, htypes⟩ := Option.ite_none_right_eq_some.mp h
          cases htypes
          exact Nat.le_succ_of_le (Nat.le_succ _)
  | call name count =>
      rw [types?] at h
      split at h
      · obtain ⟨-, htypes⟩ := Option.ite_none_right_eq_some.mp h
        obtain ⟨type, -, rfl⟩ := Option.map_eq_some_iff.mp htypes
        simp only [List.length_cons, List.length_drop]
        omega
      · cases h
  | unary op =>
      rcases types with _ | ⟨_ | _, types⟩ <;> cases h
      exact Nat.le_succ _
  | binary op =>
      rcases types with _ | ⟨right, _ | ⟨left, types⟩⟩
      · cases h
      · cases h
      · obtain ⟨type, -, rfl⟩ := Option.map_eq_some_iff.mp h
        simp only [List.length_cons]
        omega

end Instruction

theorem length_typesBehind?_le {T : Type} {code : List (Instruction R T)}
    {types types' : List ValueType} (h : typesBehind? registry types code = some types') :
    types'.length ≤ types.length + code.length := by
  induction code generalizing types with
  | nil =>
      cases h
      exact Nat.le_refl _
  | cons i code ih =>
      rw [typesBehind?] at h
      obtain ⟨between, hi, hcode⟩ := Option.bind_eq_some_iff.mp h
      have hfirst := Instruction.length_types?_le hi
      have hrest := ih hcode
      rw [List.length_cons]
      omega

namespace Expr

theorem takes_of_checkType {signature : Signature} {index : Nat} {e : Expr R}
    {found : ValueType}
    (h : ∀ type, signature.parameter? index = some type → e.expectType type found = .ok ()) :
    (signature.parameter? index).all fun wanted => found == wanted := by
  cases hparameter : signature.parameter? index with
  | none => rfl
  | some type => simpa using expectType_eq_ok (h type hparameter)

variable [NumberSystem R]

mutual

theorem typesBehind?_code : ∀ (e : Expr R) {type : ValueType} (types : List ValueType),
    e.check registry = .ok type → typesBehind? registry types e.code = some (type :: types)
  | number _ _, _, _, h | string _ _, _, _, h | char _ _, _, _, h | var _ _, _, _, h => by
      cases h
      rfl
  | unary op column e, type, types, h => by
      obtain ⟨he, rfl⟩ := check_unary_iff.mp h
      exact typesBehind?_of_append (typesBehind?_code e types he) (typesBehind?_singleton _ _)
  | binary op column l r, type, types, h => by
      obtain ⟨left, right, hl, hr, htype⟩ := check_binary_iff.mp h
      refine typesBehind?_of_append (typesBehind?_of_append (typesBehind?_code l types hl)
        (typesBehind?_code r (left :: types) hr)) ?_
      rw [typesBehind?_singleton, Instruction.types?, htype]
      rfl
  | call column name args, type, types, h => by
      rw [check] at h
      obtain ⟨signature, hsignature, h⟩ := Stmt.bind_eq_ok h
      obtain ⟨_, hargs, h⟩ := Stmt.bind_eq_ok h
      obtain ⟨hget, haccepts⟩ := signature?_eq_ok hsignature
      obtain ⟨argTypes, hlength, htakes, hcode⟩ := typesBehind?_codeAll args types hargs
      refine typesBehind?_of_append hcode ?_
      have htake : (argTypes.reverse ++ types).take args.length = argTypes.reverse := by
        rw [← hlength, ← List.length_reverse, List.take_left]
      have hdrop : (argTypes.reverse ++ types).drop args.length = types := by
        rw [← hlength, ← List.length_reverse, List.drop_left]
      have hfits : signature.fits argTypes := by
        rw [Signature.fits, hlength, haccepts, htakes]
        rfl
      rw [typesBehind?_singleton, Instruction.types?, hget]
      dsimp only
      rw [htake, hdrop, List.reverse_reverse, if_pos ⟨by simp [hlength], hfits⟩]
      split at h
      · rename_i result hresult
        cases h
        rw [hresult]
        rfl
      · cases h

theorem typesBehind?_codeAll {signature : Signature} : ∀ (es : List (Expr R)) {index : Nat}
    (types : List ValueType), checkArgs registry signature index es = .ok () →
    ∃ argTypes : List ValueType, argTypes.length = es.length ∧
      signature.takes index argTypes ∧
      typesBehind? registry types (codeAll es) = some (argTypes.reverse ++ types)
  | [], _, _, _ => ⟨[], rfl, rfl, rfl⟩
  | e :: es, index, types, h => by
      rw [checkArgs] at h
      obtain ⟨found, hfound, h⟩ := Stmt.bind_eq_ok h
      have hrest : checkArgs registry signature (index + 1) es = .ok () ∧
          ∀ type, signature.parameter? index = some type → e.expectType type found = .ok () := by
        cases hparameter : signature.parameter? index with
        | none =>
            rw [hparameter] at h
            exact ⟨h, fun type htype => by cases htype⟩
        | some type =>
            rw [hparameter] at h
            obtain ⟨_, hexpect, h⟩ := Stmt.bind_eq_ok h
            refine ⟨h, fun type htype => ?_⟩
            cases htype
            exact hexpect
      obtain ⟨argTypes, hlength, htakes, hcode⟩ :=
        typesBehind?_codeAll es (found :: types) hrest.1
      refine ⟨found :: argTypes, congrArg (· + 1) hlength, ?_, ?_⟩
      · rw [Signature.takes, takes_of_checkType hrest.2, htakes]
        rfl
      · rw [List.reverse_cons, List.append_assoc]
        exact typesBehind?_of_append (typesBehind?_code e types hfound) hcode

end

theorem typesBehind?_items (items : List (Expr R)) (types : List ValueType)
    (h : ∀ e ∈ items, ∃ type, e.check registry = .ok type) :
    ∃ itemTypes : List ValueType, itemTypes.length = items.length ∧
      typesBehind? registry types (codeAll items) = some (itemTypes.reverse ++ types) := by
  induction items generalizing types with
  | nil => exact ⟨[], rfl, rfl⟩
  | cons e items ih =>
      rw [List.forall_mem_cons] at h
      obtain ⟨⟨type, htype⟩, hitems⟩ := h
      obtain ⟨itemTypes, hlength, hcode⟩ := ih (type :: types) hitems
      refine ⟨type :: itemTypes, congrArg (· + 1) hlength, ?_⟩
      rw [List.reverse_cons, List.append_assoc]
      exact typesBehind?_of_append (e.typesBehind?_code types htype) hcode

end Expr

variable [NumberSystem R]

namespace Action

mutual

/-- The code of an action finds nothing on the stack and leaves nothing there, and
so do its bodies. -/
def Balanced (registry : Registry) : Action R → Prop
  | call name args =>
      typesBehind? registry [] (Expr.codeAll args ++ [.exec name args.length]) = some []
  | .for loop start limit step =>
      typesBehind? registry [] (Stmt.loopCode ⟨loop.number⟩ ⟨{}, loop.name⟩ start limit step) =
        some []
  | branch condition thenBody elseBody =>
      typesBehind? registry [] condition.code = some [.number] ∧
        AllBalanced registry thenBody ∧ AllBalanced registry elseBody
  | assign name e => typesBehind? registry [] (e.code ++ [.pop name]) = some []
  | next (some loop) => namesString loop.name = false
  | next none => False
  | .end | gosub _ | goto _ | rem | .return => True

def AllBalanced (registry : Registry) : List (Action R) → Prop
  | [] => True
  | a :: as => a.Balanced registry ∧ AllBalanced registry as

end

omit [NumberSystem R] in
theorem balanced_next {loop : Loop} (h : namesString loop.name = false) :
    typesBehind? registry []
      [(Stmt.nextCode ⟨loop.number⟩ loop.name : Instruction R String)] = some [] := by
  rw [typesBehind?_singleton]
  exact if_pos ⟨rfl, h, Place.namesString_limit _, Place.namesString_step _⟩

mutual

theorem typesBehind?_code (b : Nat) : ∀ a : Action R, a.Balanced registry →
    typesBehind? registry [] (a.code b).1 = some []
  | .end, _ | gosub _, _ | goto _, _ | rem, _ | .return, _ => rfl
  | call _ _, h | .for _ _ _ _, h | assign _ _, h => h
  | next none, h => h.elim
  | next (some loop), h => by
      rw [code_next]
      exact balanced_next h
  | branch condition thenBody elseBody, h => by
      have hthen := typesBehind?_codeAll (b + 1) thenBody h.2.1
      have helse := typesBehind?_codeAll (codeAll (b + 1) thenBody).2 elseBody h.2.2
      have htest : typesBehind? registry [] (condition.code ++
          [.ifNot (Place.otherwise ⟨b + 1⟩)]) = some [] :=
        typesBehind?_of_append h.1 rfl
      rw [code]
      dsimp only
      split
      · exact typesBehind?_of_append (typesBehind?_of_append htest hthen) rfl
      · exact typesBehind?_of_append (typesBehind?_of_append (typesBehind?_of_append
          (typesBehind?_of_append htest hthen) rfl) helse) rfl

theorem typesBehind?_codeAll (b : Nat) : ∀ as : List (Action R), AllBalanced registry as →
    typesBehind? registry [] (codeAll b as).1 = some []
  | [], _ => rfl
  | a :: as, h =>
      typesBehind?_of_append (typesBehind?_code b a h.1)
        (typesBehind?_codeAll (a.code b).2 as h.2)

end

theorem typesBehind?_linesCode (b : Nat) {lines : List (ActionLine R)}
    (h : ∀ line ∈ lines, AllBalanced registry line.actions) :
    typesBehind? registry [] (linesCode b lines).1 = some [] := by
  induction lines generalizing b with
  | nil => rfl
  | cons line lines ih =>
      rw [List.forall_mem_cons] at h
      exact typesBehind?_of_append (typesBehind?_of_append rfl
        (typesBehind?_codeAll b line.actions h.1)) (ih _ h.2)

mutual

/-- The addresses at which an action and the actions in it start, if its code
stands at `address`. -/
def starts (b address : Nat) : Action R → List Nat
  | branch condition thenBody elseBody =>
      let atThen := address + LinkedCode.widthOf condition.code + 1
      let atElse := atThen + LinkedCode.widthOf (codeAll (b + 1) thenBody).1 + 1
      address :: (startsAll (b + 1) atThen thenBody ++
        startsAll (codeAll (b + 1) thenBody).2 atElse elseBody)
  | _ => [address]

def startsAll (b address : Nat) : List (Action R) → List Nat
  | [] => []
  | a :: as =>
      a.starts b address ++
        startsAll (a.code b).2 (address + LinkedCode.widthOf (a.code b).1) as

end

/-- The addresses at which lines and the actions in them start. -/
def linesStarts (b address : Nat) : List (ActionLine R) → List Nat
  | [] => []
  | line :: lines =>
      let (code, b') := codeAll b line.actions
      address :: (startsAll b (address + 1) line.actions ++
        linesStarts b' (address + 1 + LinkedCode.widthOf code) lines)

end Action

/-- The addresses at which the lines of a program and the statements in them
start. -/
def Program.statementStarts (p : Program R) : List Nat :=
  Action.linesStarts 0 0 p.actionLines

/-- Nothing is on the stack in some code at an address. -/
def EmptyAt (registry : Registry) (code : List (Instruction R String)) (address : Nat) : Prop :=
  ∃ front back, code = front ++ back ∧ LinkedCode.widthOf front = address ∧
    typesBehind? registry [] front = some []

omit [NumberSystem R] in
theorem EmptyAt.append {code : List (Instruction R String)} {address : Nat}
    (h : EmptyAt registry code address) (rest : List (Instruction R String)) :
    EmptyAt registry (code ++ rest) address := by
  obtain ⟨front, back, rfl, hwidth, htypes⟩ := h
  exact ⟨front, back ++ rest, List.append_assoc _ _ _, hwidth, htypes⟩

omit [NumberSystem R] in
theorem EmptyAt.behind {code : List (Instruction R String)} {address : Nat}
    (h : EmptyAt registry code address) {front : List (Instruction R String)}
    (hfront : typesBehind? registry [] front = some []) :
    EmptyAt registry (front ++ code) (LinkedCode.widthOf front + address) := by
  obtain ⟨front', back, rfl, hwidth, htypes⟩ := h
  refine ⟨front ++ front', back, (List.append_assoc _ _ _).symm, ?_,
    typesBehind?_of_append hfront htypes⟩
  rw [LinkedCode.widthOf_append, hwidth]

omit [NumberSystem R] in
theorem emptyAt_start (code : List (Instruction R String)) : EmptyAt registry code 0 :=
  ⟨[], code, rfl, rfl, rfl⟩

namespace Action

theorem code_branch (b : Nat) (condition : Expr R) (thenBody elseBody : List (Action R)) :
    ∃ tail, ((branch condition thenBody elseBody).code b).1 =
        condition.code ++ [.ifNot (Place.otherwise ⟨b + 1⟩)] ++ (codeAll (b + 1) thenBody).1 ++
          tail ∧
      (elseBody ≠ [] → ∃ rest, tail =
        [.jump (Place.exit ⟨b + 1⟩), .label (Place.otherwise ⟨b + 1⟩)] ++
          (codeAll (codeAll (b + 1) thenBody).2 elseBody).1 ++ rest) := by
  rw [code]
  dsimp only
  split
  · rename_i hempty
    exact ⟨_, rfl, fun hne => absurd (List.isEmpty_iff.mp hempty) hne⟩
  · refine ⟨_, ?_, fun _ => ⟨[.label (Place.exit ⟨b + 1⟩)], rfl⟩⟩
    simp only [List.append_assoc]

mutual

theorem emptyAt_starts (b : Nat) : ∀ a : Action R, a.Balanced registry →
    ∀ (address : Nat), ∀ k ∈ a.starts b address,
      ∃ offset, k = address + offset ∧ EmptyAt registry (a.code b).1 offset
  | .end, _, _, _, hk | gosub _, _, _, _, hk | goto _, _, _, _, hk | rem, _, _, _, hk
  | .return, _, _, _, hk | call _ _, _, _, _, hk | .for _ _ _ _, _, _, _, hk
  | assign _ _, _, _, _, hk | next _, _, _, _, hk => by
      rw [starts.eq_def, List.mem_singleton] at hk
      exact ⟨0, hk, emptyAt_start _⟩
  | branch condition thenBody elseBody, h, address, k, hk => by
      have hthen := emptyAt_startsAll (b + 1) thenBody h.2.1
      have helse := emptyAt_startsAll (codeAll (b + 1) thenBody).2 elseBody h.2.2
      have hthenTypes := typesBehind?_codeAll (b + 1) thenBody h.2.1
      have htest : typesBehind? registry [] (condition.code ++
          [.ifNot (Place.otherwise ⟨b + 1⟩)]) = some [] :=
        typesBehind?_of_append h.1 rfl
      have hwidth : LinkedCode.widthOf (condition.code ++
          [.ifNot (Place.otherwise ⟨b + 1⟩)]) = LinkedCode.widthOf condition.code + 1 :=
        LinkedCode.widthOf_append _ _
      obtain ⟨tail, hcode, htail⟩ := code_branch b condition thenBody elseBody
      rw [hcode]
      rw [starts, List.mem_cons, List.mem_append] at hk
      rcases hk with rfl | hk | hk
      · exact ⟨0, rfl, emptyAt_start _⟩
      · obtain ⟨offset, hoffset, hempty⟩ := hthen _ k hk
        refine ⟨_, ?_, (hempty.behind htest).append tail⟩
        omega
      · have hne : elseBody ≠ [] := by
          rintro rfl
          simp [startsAll] at hk
        obtain ⟨rest, rfl⟩ := htail hne
        obtain ⟨offset, hoffset, hempty⟩ := helse _ k hk
        have hfront := typesBehind?_of_append (typesBehind?_of_append htest hthenTypes)
          (rfl : typesBehind? registry []
            [.jump (Place.exit ⟨b + 1⟩), .label (Place.otherwise ⟨b + 1⟩)] = some [])
        have hinside := (hempty.behind hfront).append rest
        rw [← List.append_assoc, ← List.append_assoc]
        refine ⟨_, ?_, hinside⟩
        have hjump : LinkedCode.widthOf ([.jump (Place.exit ⟨b + 1⟩),
            .label (Place.otherwise ⟨b + 1⟩)] : List (Instruction R String)) = 1 := rfl
        rw [LinkedCode.widthOf_append, LinkedCode.widthOf_append, hwidth, hjump]
        omega

theorem emptyAt_startsAll (b : Nat) : ∀ as : List (Action R), AllBalanced registry as →
    ∀ (address : Nat), ∀ k ∈ startsAll b address as,
      ∃ offset, k = address + offset ∧ EmptyAt registry (codeAll b as).1 offset
  | [], _, _, _, hk => by simp [startsAll] at hk
  | a :: as, h, address, k, hk => by
      rw [startsAll, List.mem_append] at hk
      rcases hk with hk | hk
      · obtain ⟨offset, hoffset, hempty⟩ := emptyAt_starts b a h.1 address k hk
        exact ⟨offset, hoffset, hempty.append _⟩
      · obtain ⟨offset, hoffset, hempty⟩ := emptyAt_startsAll (a.code b).2 as h.2 _ k hk
        refine ⟨LinkedCode.widthOf (a.code b).1 + offset, ?_,
          hempty.behind (typesBehind?_code b a h.1)⟩
        rw [hoffset, Nat.add_assoc]

end

theorem emptyAt_linesStarts (b : Nat) {lines : List (ActionLine R)}
    (h : ∀ line ∈ lines, AllBalanced registry line.actions) (address : Nat) :
    ∀ k ∈ linesStarts b address lines,
      ∃ offset, k = address + offset ∧ EmptyAt registry (linesCode b lines).1 offset := by
  induction lines generalizing b address with
  | nil => simp [linesStarts]
  | cons line lines ih =>
      rw [List.forall_mem_cons] at h
      intro k hk
      have hline := typesBehind?_codeAll b line.actions h.1
      have hmarkers : typesBehind? registry []
          ([.label (lineLabel line.number), .line line.number] : List (Instruction R String)) =
          some [] := rfl
      have hwidth : LinkedCode.widthOf
          ([.label (lineLabel line.number), .line line.number] : List (Instruction R String)) =
          1 := rfl
      rw [linesCode]
      simp only [linesStarts, List.mem_cons, List.mem_append] at hk
      rcases hk with rfl | hk | hk
      · exact ⟨0, rfl, emptyAt_start _⟩
      · obtain ⟨offset, hoffset, hempty⟩ :=
          emptyAt_startsAll b line.actions h.1 (address + 1) k hk
        refine ⟨_, ?_, (hempty.behind hmarkers).append _⟩
        omega
      · obtain ⟨offset, hoffset, hempty⟩ := ih (codeAll b line.actions).2 h.2 _ k hk
        refine ⟨_, ?_, hempty.behind (typesBehind?_of_append hmarkers hline)⟩
        rw [LinkedCode.widthOf_append, hwidth]
        omega

end Action

namespace Stmt

mutual

theorem balanced_pair {loops : Loops} (h : loops.Fine) : ∀ s : Stmt R, s.Typed registry →
    (∀ n ∈ s.names, IsName n) → (s.pair loops).1.isPaired →
    (s.pair loops).1.Balanced registry
  | .end _, _, _, _ | gosub _ _, _, _, _ | goto _ _, _, _, _ | rem _, _, _, _
  | .return _, _, _, _ => trivial
  | call _ name args, htyped, _, _ => by
      obtain ⟨signature, hget, haccepts, hargs⟩ := htyped
      obtain ⟨types, hlength, htakes, hcode⟩ := Expr.typesBehind?_codeAll args [] hargs
      rw [List.append_nil] at hcode
      refine typesBehind?_of_append hcode ?_
      rw [typesBehind?_singleton]
      refine if_pos ⟨by rw [List.length_reverse, hlength], .inr ?_⟩
      rw [hget, Option.any_some, List.reverse_reverse, Signature.fits, hlength, haccepts, htakes]
      rfl
  | print _ items, htyped, _, _ => by
      obtain ⟨types, hlength, hcode⟩ := Expr.typesBehind?_items items [] htyped
      rw [List.append_nil] at hcode
      refine typesBehind?_of_append hcode ?_
      rw [typesBehind?_singleton]
      exact if_pos ⟨by rw [List.length_reverse, hlength], .inl rfl⟩
  | .let _ v e, htyped, _, _ =>
      typesBehind?_of_append (e.typesBehind?_code [] htyped)
        ((typesBehind?_singleton _ _).trans (if_pos rfl))
  | .for _ v start limit step, htyped, _, _ => by
      obtain ⟨hname, hstart, hlimit, hstep⟩ := htyped
      have hpop : ∀ {name : String}, namesString name = false →
          typesBehind? registry [.number] [(.pop name : Instruction R String)] = some [] := by
        intro name hname
        rw [typesBehind?_singleton]
        refine if_pos ?_
        rw [ValueType.ofName, hname]
        rfl
      have hlabel : typesBehind? registry [.number]
          [(.pop (Place.step ⟨loops.count + 1⟩) : Instruction R String),
            .label (Place.body ⟨loops.count + 1⟩)] = some [] :=
        typesBehind?_of_append (hpop (Place.namesString_step _)) rfl
      rw [pair, Action.Balanced, loopCode.eq_def]
      refine typesBehind?_of_append (typesBehind?_of_append (typesBehind?_of_append
        (typesBehind?_of_append (typesBehind?_of_append (start.typesBehind?_code [] hstart)
          (hpop hname)) (limit.typesBehind?_code [] hlimit))
        (hpop (Place.namesString_limit _))) ?_) hlabel
      cases step with
      | none => rfl
      | some e => exact e.typesBehind?_code [] (hstep e rfl)
  | next _ v, _, _, hpaired => by
      rw [pair] at hpaired ⊢
      cases hclosed : loops.closed v with
      | none =>
          rw [hclosed] at hpaired
          cases hpaired
      | some loop => exact (h loop (Loops.mem_of_closed hclosed)).1.2
  | .if _ condition thenBody elseBody, htyped, hnames, hpaired => by
      simp only [names, List.mem_append, or_imp, forall_and] at hnames
      rw [pair, Action.isPaired, Bool.and_eq_true] at hpaired
      have hfine := fine_pairAll h thenBody htyped.2.1 hnames.1.2
      exact ⟨condition.typesBehind?_code [] htyped.1,
        balanced_pairAll h thenBody htyped.2.1 hnames.1.2 hpaired.1,
        balanced_pairAll hfine elseBody htyped.2.2 hnames.2 hpaired.2⟩

theorem balanced_pairAll {loops : Loops} (h : loops.Fine) : ∀ ss : List (Stmt R),
    AllTyped registry ss → (∀ n ∈ namesAll ss, IsName n) →
    Action.allPaired (pairAll loops ss).1 → Action.AllBalanced registry (pairAll loops ss).1
  | [], _, _, _ => trivial
  | s :: ss, htyped, hnames, hpaired => by
      simp only [namesAll, List.mem_append, or_imp, forall_and] at hnames
      rw [pairAll, Action.allPaired, Bool.and_eq_true] at hpaired
      have hfine := fine_pair h s htyped.1 hnames.1
      exact ⟨balanced_pair h s htyped.1 hnames.1 hpaired.1,
        balanced_pairAll hfine ss htyped.2 hnames.2 hpaired.2⟩

end

end Stmt

namespace Program

variable {p : Program R}

theorem allBalanced_iff {as : List (Action R)} :
    Action.AllBalanced registry as ↔ ∀ a ∈ as, a.Balanced registry := by
  induction as with
  | nil => simp [Action.AllBalanced]
  | cons a as ih => simp [Action.AllBalanced, ih]

theorem Sound.balanced (h : p.Sound registry) :
    ∀ line ∈ p.actionLines, Action.AllBalanced registry line.actions := by
  have hall : Action.AllBalanced registry p.actions :=
    Stmt.balanced_pairAll (by simp [Loops.Fine]) _ h.allTyped h.isName_namesAll
      (allPaired_actions h.coherent.loopsPair)
  rw [← flatMap_actionLines] at hall
  intro line hline
  rw [allBalanced_iff]
  exact fun a ha => allBalanced_iff.mp hall a (List.mem_flatMap.mpr ⟨line, hline, ha⟩)

theorem Sound.typesBehind?_layout (h : p.Sound registry) :
    typesBehind? registry [] p.layout = some [] :=
  typesBehind?_of_append (typesBehind?_of_append rfl
    (Action.typesBehind?_linesCode 0 h.balanced)) rfl

/-- Nothing is on the stack where a statement of a sound program starts. -/
theorem Sound.emptyAt_statementStarts (h : p.Sound registry) :
    ∀ k ∈ p.statementStarts, EmptyAt registry p.layout k := by
  intro k hk
  obtain ⟨offset, hoffset, hempty⟩ := Action.emptyAt_linesStarts 0 h.balanced 0 k hk
  have hentry : typesBehind? registry []
      [(.label Script.entry : Instruction R String)] = some [] := rfl
  have hwhole := (hempty.behind hentry).append [.end]
  have hwidth : LinkedCode.widthOf [(.label Script.entry : Instruction R String)] = 0 := rfl
  rw [hwidth] at hwhole
  rw [hoffset]
  exact hwhole

end Program

end LineBasic
