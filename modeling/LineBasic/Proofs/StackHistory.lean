import Mathlib.Data.List.Induction
import LineBasic.Proofs.Running

namespace LineBasic

namespace Stack

variable {α : Type}

inductive Operation (α : Type) where
  | push (a : α)
  | pop
  | pop2
  | popN (count : Nat)
  | clear

namespace Operation

/-- What an operation does to a list, whose end is the top: the items it takes off, in their order, and the list behind it. -/
inductive Acts : Operation α → List α → List α → List α → Prop
  | push (a : α) (items : List α) : Acts (.push a) items [] (items ++ [a])
  | pop (a : α) (items : List α) : Acts .pop (items ++ [a]) [a] items
  | pop2 (a b : α) (items : List α) : Acts .pop2 (items ++ [a, b]) [a, b] items
  | popN (taken items : List α) : Acts (.popN taken.length) (items ++ taken) taken items
  | clear (items : List α) : Acts .clear items [] []

/-- The items that an operation has to find. -/
def need : Operation α → Nat
  | push _ | clear => 0
  | pop => 1
  | pop2 => 2
  | popN count => count

theorem Acts.need_le {operation : Operation α} {items taken rest : List α}
    (h : operation.Acts items taken rest) : operation.need ≤ items.length := by
  cases h <;> simp [need]

end Operation

/-- What an operation takes off a stack, and the stack behind it. A push that fails makes no new stack. -/
def apply (s : Stack α) : Operation α → Except Error (List α) × Stack α
  | .push a =>
    match s.push a with
    | .ok t => (.ok [], t)
    | .error e => (.error e, s)
  | .pop => (s.pop.1.map fun a => [a], s.pop.2)
  | .pop2 => (s.pop2.1.map fun pair => [pair.1, pair.2], s.pop2.2)
  | .popN count => s.popN count
  | .clear => (.ok [], s.clear)

def after (overflow : String) (operations : List (Operation α)) : Stack α :=
  operations.foldl (fun s operation => (s.apply operation).2) (empty overflow)

inductive Applied (s : Stack α) (operation : Operation α) : Except Error (List α) × Stack α → Prop
  | done {taken : List α} {t : Stack α} (acts : operation.Acts s.toList taken t.toList)
      (room : t.toList.length ≤ capacity) : Applied s operation (.ok taken, t)
  | refused (e : Error)
      (impossible : ∀ taken items, operation.Acts s.toList taken items → capacity < items.length)
      (kept : operation = .pop2 → s.toList.length ≠ 1) : Applied s operation (.error e, s)
  /-- Two items were to be taken off a stack of one. -/
  | lost (e : Error) {t : Stack α} (pop2 : operation = .pop2) (single : s.toList.length = 1)
      (empty : t.toList = []) : Applied s operation (.error e, t)

section Endings

variable {s t : Stack α} {operation : Operation α}

theorem length_toList (s : Stack α) : s.toList.length = s.size := by
  rw [toList, List.length_reverse, s.size_eq]

theorem toList_of_nil (h : s.items = []) : s.toList = [] := by
  rw [toList, h, List.reverse_nil]

theorem toList_of_append {taken : List α} (h : s.items = taken.reverse ++ t.items) :
    s.toList = t.toList ++ taken := by
  rw [toList, h, List.reverse_append, List.reverse_reverse, toList]

theorem pop_of_nil (h : s.items = []) : s.pop = (.error underflow, s) := by
  unfold pop
  split
  · rfl
  · rename_i hcons
    rw [h] at hcons
    cases hcons

theorem room_of_append {taken : List α} (h : s.toList.length ≤ capacity)
    (hlist : s.toList = t.toList ++ taken) : t.toList.length ≤ capacity := by
  rw [hlist, List.length_append] at h
  exact (Nat.le_add_right _ _).trans h

theorem Applied.of_short (e : Error) (h : s.toList.length < operation.need)
    (hkept : operation = .pop2 → s.toList.length ≠ 1) : Applied s operation (.error e, s) :=
  .refused e (fun _ _ hacts => absurd hacts.need_le (Nat.not_le.mpr h)) hkept

theorem applied_push (a : α) (s : Stack α) : Applied s (.push a) (s.apply (.push a)) := by
  unfold apply
  by_cases hroom : s.toList.length < capacity
  · have hlt : s.items.length < capacity := by rwa [toList, List.length_reverse] at hroom
    obtain ⟨t, ht, -⟩ := push_of_lt rfl hlt a
    have hlist := toList_of_push ht
    simp only [ht]
    refine .done (hlist ▸ .push a s.toList) ?_
    rw [hlist, List.length_append]
    exact hroom
  · have hfull : s.push a = .error (ErrorCode.outOfMemory.error s.overflow) :=
      if_neg (length_toList s ▸ hroom)
    simp only [hfull]
    refine .refused _ (fun taken items hacts => ?_) fun h => by cases h
    cases hacts
    rw [List.length_append]
    exact Nat.lt_succ_of_le (Nat.le_of_not_lt hroom)

theorem applied_pop (h : s.toList.length ≤ capacity) : Applied s .pop (s.apply .pop) := by
  unfold apply
  cases hitems : s.items with
  | nil =>
      simp only [pop_of_nil hitems]
      exact .of_short _ (by simp [toList_of_nil hitems, Operation.need]) nofun
  | cons a items =>
      obtain ⟨t, hpop, rfl⟩ := pop_of_cons hitems
      have hlist : s.toList = t.toList ++ [a] := toList_of_append hitems
      simp only [hpop]
      exact .done (hlist ▸ .pop a t.toList) (room_of_append h hlist)

theorem applied_pop2 (h : s.toList.length ≤ capacity) : Applied s .pop2 (s.apply .pop2) := by
  unfold apply
  cases hitems : s.items with
  | nil =>
      have hpop2 : s.pop2 = (.error underflow, s) := by rw [pop2, pop_of_nil hitems]
      have hlist := toList_of_nil hitems
      simp only [hpop2]
      exact .of_short _ (by simp [hlist, Operation.need]) (by simp [hlist])
  | cons b items =>
      obtain ⟨t, hpop, rfl⟩ := pop_of_cons hitems
      cases hmore : t.items with
      | nil =>
          -- the first of the two was there, and is gone
          have hpop2 : s.pop2 = (.error underflow, t) := by
            rw [pop2, hpop]
            dsimp only
            rw [pop_of_nil hmore]
          have hlist : s.toList = t.toList ++ [b] := toList_of_append hitems
          have hempty : t.toList = [] := toList_of_nil hmore
          simp only [hpop2]
          exact .lost _ rfl (by rw [hlist, hempty]; rfl) hempty
      | cons a items =>
          rw [hmore] at hitems
          obtain ⟨u, hpop2, rfl⟩ := pop2_of_cons hitems
          have hlist : s.toList = u.toList ++ [a, b] := toList_of_append hitems
          simp only [hpop2]
          exact .done (hlist ▸ .pop2 a b u.toList) (room_of_append h hlist)

theorem applied_popN (count : Nat) (h : s.toList.length ≤ capacity) :
    Applied s (.popN count) (s.apply (.popN count)) := by
  unfold apply
  by_cases hcount : count ≤ s.size
  · have hlength : (s.items.take count).reverse.length = count := by
      rw [List.length_reverse, List.length_take, ← s.size_eq, Nat.min_eq_left hcount]
    have hitems : s.items = (s.items.take count).reverse.reverse ++ s.items.drop count := by
      rw [List.reverse_reverse, List.take_append_drop]
    generalize (s.items.take count).reverse = taken at hlength hitems
    subst hlength
    obtain ⟨t, hpop, hrest⟩ := popN_of_append hitems
    have hlist : s.toList = t.toList ++ taken := toList_of_append (hrest ▸ hitems)
    simp only [hpop]
    exact .done (hlist ▸ .popN taken t.toList) (room_of_append h hlist)
  · have hpop : s.popN count = (.error underflow, s) := dif_neg hcount
    simp only [hpop]
    exact .of_short _ (by rw [length_toList]; exact Nat.lt_of_not_le hcount) nofun

/-- An operation on a stack that is not overfull is made, is refused, or loses the only item. -/
theorem applied_apply (operation : Operation α) (h : s.toList.length ≤ capacity) :
    Applied s operation (s.apply operation) := by
  cases operation with
  | push a => exact applied_push a s
  | pop => exact applied_pop h
  | pop2 => exact applied_pop2 h
  | popN count => exact applied_popN count h
  | clear => exact .done (.clear s.toList) (Nat.zero_le capacity)

theorem Applied.length_le {result : Except Error (List α) × Stack α} (hend : Applied s operation result)
    (h : s.toList.length ≤ capacity) : result.2.toList.length ≤ capacity := by
  cases hend with
  | done _ room => exact room
  | refused => exact h
  | lost _ _ _ empty => exact empty ▸ Nat.zero_le capacity

end Endings

theorem after_concat (overflow : String) (operations : List (Operation α)) (operation : Operation α) :
    after overflow (operations ++ [operation]) = ((after overflow operations).apply operation).2 := by
  rw [after, List.foldl_concat, after]

theorem length_after_le (overflow : String) (operations : List (Operation α)) :
    (after overflow operations).toList.length ≤ capacity := by
  induction operations using List.reverseRecOn with
  | nil => exact Nat.zero_le capacity
  | append_singleton operations operation ih =>
      rw [after_concat]
      exact (applied_apply operation ih).length_le ih

/-- Operations on an empty stack, in any order, leave at most 65535 items on it. The next one succeeds if and only if it can be
made on the list of these items with at most so many left, and then it is made on the list and answers the items that it takes
off. If it fails, then the stack is unchanged, unless two items were to be taken off a stack of one: that one is lost. -/
theorem stack_acts_as_list (overflow : String) (operations : List (Operation α))
    (operation : Operation α) :
    let s := after overflow operations
    s.toList.length ≤ 65535 ∧
    ((∃ taken, (s.apply operation).1 = .ok taken) ↔
      ∃ taken items, operation.Acts s.toList taken items ∧ items.length ≤ 65535) ∧
    (∀ taken, (s.apply operation).1 = .ok taken →
      operation.Acts s.toList taken (s.apply operation).2.toList) ∧
    ∀ e, (s.apply operation).1 = .error e →
      (¬(operation = .pop2 ∧ s.toList.length = 1) → (s.apply operation).2 = s) ∧
      (operation = .pop2 ∧ s.toList.length = 1 → (s.apply operation).2.toList = []) := by
  intro s
  have hle : s.toList.length ≤ capacity := length_after_le overflow operations
  refine ⟨hle, ?_⟩
  have hend := applied_apply operation hle
  generalize s.apply operation = result at hend
  cases hend with
  | done acts room =>
      refine ⟨⟨fun _ => ⟨_, _, acts, room⟩, fun _ => ⟨_, rfl⟩⟩, ?_, nofun⟩
      rintro _ ⟨⟩
      exact acts
  | refused e impossible kept =>
      refine ⟨⟨nofun, ?_⟩, nofun, ?_⟩
      · rintro ⟨taken, items, hacts, hroom⟩
        exact absurd hroom (Nat.not_le.mpr (impossible taken items hacts))
      · rintro _ ⟨⟩
        exact ⟨fun _ => rfl, fun h => absurd h.2 (kept h.1)⟩
  | lost e pop2 single empty =>
      refine ⟨⟨nofun, ?_⟩, nofun, ?_⟩
      · rintro ⟨taken, items, hacts, -⟩
        have hneed := hacts.need_le
        rw [pop2, single] at hneed
        exact absurd hneed (Nat.not_succ_le_self 1)
      · rintro _ ⟨⟩
        exact ⟨fun hne => absurd ⟨pop2, single⟩ hne, fun _ => empty⟩

/-- Two items are taken off a stack of three, and four are not, behind operations of which two fail. -/
theorem stack_acts_as_list_mixed :
    let s : Stack Nat := after "FULL" [.push 1, .clear, .pop, .push 2, .push 3, .popN 3, .push 4]
    s.toList = [2, 3, 4] ∧ Operation.Acts .pop2 s.toList [3, 4] (s.apply .pop2).2.toList ∧
      (s.apply .pop2).2.toList = [2] ∧ (s.apply (.popN 4)).2 = s := by
  intro s
  obtain ⟨-, -, hacts, -⟩ := stack_acts_as_list (α := Nat) "FULL"
    [.push 1, .clear, .pop, .push 2, .push 3, .popN 3, .push 4] .pop2
  obtain ⟨-, -, -, hfails⟩ := stack_acts_as_list (α := Nat) "FULL"
    [.push 1, .clear, .pop, .push 2, .push 3, .popN 3, .push 4] (.popN 4)
  exact ⟨rfl, hacts [3, 4] rfl, rfl, (hfails underflow rfl).1 nofun⟩

/-- Taking two items off a stack of one fails, and the stack is empty. -/
theorem not_unchanged_by_pop2 :
    let s : Stack Nat := after "FULL" [.push 1]
    (s.apply .pop2).1 = .error underflow ∧ s.toList = [1] ∧ (s.apply .pop2).2.toList = [] :=
  ⟨rfl, rfl, rfl⟩

end Stack

end LineBasic
