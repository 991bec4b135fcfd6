import LineBasic.Proofs.Labels
import LineBasic.Proofs.Running

/-!
What the code of a program does from an address on. At every address that a statement starts at the code performs what is
left of the program there; between statements there may be jumps behind the body of an IF. The places that GOTO and GOSUB
name and those behind the FORs are where their labels are.
-/

namespace LineBasic

variable {R : Type}

namespace Action

mutual

/-- An action of a program with the given lines finds what it needs: its names
are such as a text can have, loops count in numbers, and whatever it names or
closes is there. -/
def Proper (lines : List (ActionLine R)) : Action R → Prop
  | call name args => IsName name ∧ ∀ n ∈ Expr.namesAll args, IsName n
  | .for loop start limit step =>
      IsName loop.name ∧ (∀ n ∈ start.names, IsName n) ∧ (∀ n ∈ limit.names, IsName n) ∧
        ∀ e ∈ step, ∀ n ∈ e.names, IsName n
  | gosub line | goto line => (Point.at? line lines).isSome
  | branch condition thenBody elseBody =>
      (∀ n ∈ condition.names, IsName n) ∧ AllProper lines thenBody ∧ AllProper lines elseBody
  | assign name e => IsName name ∧ ∀ n ∈ e.names, IsName n
  | next (some loop) =>
      IsName loop.name ∧ namesString loop.name = false ∧
        (Point.behind? loop.number lines).isSome
  | next none => False
  | .end | rem | .return => True

def AllProper (lines : List (ActionLine R)) : List (Action R) → Prop
  | [] => True
  | action :: actions => action.Proper lines ∧ AllProper lines actions

end

theorem allProper_append {lines : List (ActionLine R)} {as as' : List (Action R)} :
    AllProper lines (as ++ as') ↔ AllProper lines as ∧ AllProper lines as' := by
  induction as with
  | nil => simp [AllProper]
  | cons a as ih => simp [AllProper, ih, and_assoc]

end Action

variable [NumberSystem R]

theorem Action.bodies_length_le (b : Nat) (condition : Expr R)
    (thenBody elseBody : List (Action R)) :
    condition.code.length ≤ ((branch condition thenBody elseBody).code b).1.length ∧
      (codeAll (b + 1) thenBody).1.length ≤
        ((branch condition thenBody elseBody).code b).1.length ∧
      (codeAll (codeAll (b + 1) thenBody).2 elseBody).1.length ≤
        ((branch condition thenBody elseBody).code b).1.length := by
  rw [code]
  dsimp only
  split
  · rename_i hempty
    rw [List.isEmpty_iff] at hempty
    simp only [hempty, codeAll, List.length_append, List.length_nil]
    omega
  · simp only [List.length_append]
    omega

namespace LinkedCode

/-- The code from an address on performs what is left of a program. -/
inductive Ahead (linked : LinkedCode R) (all : List (ActionLine R)) :
    Nat → Point R → Prop where
  | stop {address : Nat} : linked.code[address]? = some .end → Ahead linked all address ⟨[], []⟩
  | line {address : Nat} {line : ActionLine R} {lines : List (ActionLine R)} :
      linked.code[address]? = some (.line line.number) →
      Ahead linked all (address + 1) ⟨line.actions, lines⟩ →
      Ahead linked all address ⟨[], line :: lines⟩
  | action {address branches : Nat} {action : Action R} {rest : List (Action R)}
      {lines : List (ActionLine R)} : action.Proper all →
      linked.Placed address (action.code branches).1 →
      (action.code branches).1.length ≤ Stack.capacity →
      Ahead linked all (address + widthOf (action.code branches).1) ⟨rest, lines⟩ →
      Ahead linked all address ⟨action :: rest, lines⟩
  | jump {address target : Nat} {point : Point R} :
      linked.code[address]? = some (.jump target) → Ahead linked all target point →
      Ahead linked all address point

variable {linked : LinkedCode R} {all : List (ActionLine R)}

theorem ahead_codeAll {b : Nat} {as : List (Action R)} (hproper : Action.AllProper all as)
    {address : Nat} (hplaced : linked.Placed address (Action.codeAll b as).1)
    (hroom : (Action.codeAll b as).1.length ≤ Stack.capacity) {rest : List (Action R)}
    {lines : List (ActionLine R)}
    (h : linked.Ahead all (address + widthOf (Action.codeAll b as).1) ⟨rest, lines⟩) :
    linked.Ahead all address ⟨as ++ rest, lines⟩ := by
  induction as generalizing b address with
  | nil => exact h
  | cons a as ih =>
      rw [Action.codeAll] at hplaced hroom h
      rw [placed_append] at hplaced
      rw [List.length_append] at hroom
      rw [widthOf_append, ← Nat.add_assoc] at h
      exact .action hproper.1 hplaced.1 (by omega) (ih hproper.2 hplaced.2 (by omega) h)

structure BranchPlaced (linked : LinkedCode R) (all : List (ActionLine R)) (address b : Nat)
    (condition : Expr R) (thenBody elseBody : List (Action R)) (atElse : Nat) : Prop where
  condition_placed : linked.Placed address condition.code
  test : linked.code[address + widthOf condition.code]? = some (.ifNot atElse)
  then_placed : linked.Placed (address + widthOf condition.code + 1)
    (Action.codeAll (b + 1) thenBody).1
  else_placed : linked.Placed atElse
    (Action.codeAll (Action.codeAll (b + 1) thenBody).2 elseBody).1
  ahead_then : ∀ point,
    linked.Ahead all
      (address + widthOf ((Action.branch condition thenBody elseBody).code b).1) point →
    linked.Ahead all (address + widthOf condition.code + 1 +
      widthOf (Action.codeAll (b + 1) thenBody).1) point
  ahead_else : ∀ point,
    linked.Ahead all
      (address + widthOf ((Action.branch condition thenBody elseBody).code b).1) point →
    linked.Ahead all (atElse +
      widthOf (Action.codeAll (Action.codeAll (b + 1) thenBody).2 elseBody).1) point

theorem branchPlaced (all : List (ActionLine R)) {address b : Nat} {condition : Expr R}
    {thenBody elseBody : List (Action R)}
    (h : linked.Placed address ((Action.branch condition thenBody elseBody).code b).1) :
    ∃ atElse, BranchPlaced linked all address b condition thenBody elseBody atElse := by
  rw [Action.code] at h
  dsimp only at h
  split at h
  · rename_i hempty
    rw [List.isEmpty_iff] at hempty
    subst hempty
    simp only [placed_append, widthOf_append, ← Nat.add_assoc] at h
    obtain ⟨⟨⟨hcondition, htest, -⟩, hthen⟩, hlabel, -⟩ := h
    refine ⟨_, hcondition, ifNot_of_holds htest hlabel, hthen, trivial, ?_, ?_⟩
    all_goals
      intro point hpoint
      rw [Action.code] at hpoint
      simp only [List.isEmpty_nil, if_true, widthOf_append, ← Nat.add_assoc] at hpoint
      exact hpoint
  · rename_i hempty
    simp only [placed_append, widthOf_append, ← Nat.add_assoc] at h
    obtain ⟨⟨⟨⟨⟨hcondition, htest, -⟩, hthen⟩, hjump, hlabel, -⟩, helse⟩, hexit, -⟩ := h
    refine ⟨_, hcondition, ifNot_of_holds htest hlabel, hthen, helse, ?_, ?_⟩
    · intro point hpoint
      rw [Action.code] at hpoint
      simp only [hempty, Bool.false_eq_true, if_false, widthOf_append, ← Nat.add_assoc]
        at hpoint
      exact .jump (jump_of_holds hjump hexit) hpoint
    · intro point hpoint
      rw [Action.code] at hpoint
      simp only [hempty, Bool.false_eq_true, if_false, widthOf_append, ← Nat.add_assoc]
        at hpoint
      exact hpoint

/-- A label leads to a point of the program. -/
def LeadsTo (linked : LinkedCode R) (all : List (ActionLine R)) (name : String)
    (point : Point R) : Prop :=
  ∃ address, linked.labels[name]? = some address ∧ linked.Ahead all address point

theorem leadsTo_for {loop : Loop} {start limit : Expr R} {step : Option (Expr R)}
    {address b : Nat}
    (hplaced : linked.Placed address ((Action.for loop start limit step).code b).1)
    {point : Point R}
    (h : linked.Ahead all
      (address + widthOf ((Action.for loop start limit step).code b).1) point) :
    linked.LeadsTo all (Place.body ⟨loop.number⟩) point := by
  rw [Action.code, Stmt.loopCode.eq_def, placed_append] at hplaced
  rw [Action.code, Stmt.loopCode.eq_def, widthOf_append, ← Nat.add_assoc] at h
  exact ⟨_, hplaced.2.2.1, h⟩

mutual

theorem leadsTo_behind? {number : Nat} : ∀ (a : Action R) {address b : Nat}
    {after rest : List (Action R)} {lines : List (ActionLine R)}, a.Proper all →
    linked.Placed address (a.code b).1 → (a.code b).1.length ≤ Stack.capacity →
    linked.Ahead all (address + widthOf (a.code b).1) ⟨after, lines⟩ →
    a.behind? number after = some rest →
    linked.LeadsTo all (Place.body ⟨number⟩) ⟨rest, lines⟩
  | .for loop start limit step, address, b, after, rest, lines, _, hplaced, _, hahead, h => by
      rw [Action.behind?] at h
      split at h
      · rename_i hnumber
        cases h
        subst hnumber
        exact leadsTo_for hplaced hahead
      · cases h
  | .branch condition thenBody elseBody, address, b, after, rest, lines, hproper, hplaced,
      hroom, hahead, h => by
      obtain ⟨atElse, hbranch⟩ := branchPlaced all hplaced
      obtain ⟨-, hthen, helse⟩ := Action.bodies_length_le b condition thenBody elseBody
      rw [Action.behind?, Option.or_eq_some_iff] at h
      rcases h with h | ⟨-, h⟩
      · exact leadsTo_behindAll? thenBody hproper.2.1 hbranch.then_placed (by omega)
          (hbranch.ahead_then _ hahead) h
      · exact leadsTo_behindAll? elseBody hproper.2.2 hbranch.else_placed (by omega)
          (hbranch.ahead_else _ hahead) h
  | .call _ _, _, _, _, _, _, _, _, _, _, h | .end, _, _, _, _, _, _, _, _, _, h
  | .gosub _, _, _, _, _, _, _, _, _, _, h | .goto _, _, _, _, _, _, _, _, _, _, h
  | .assign _ _, _, _, _, _, _, _, _, _, _, h | .next _, _, _, _, _, _, _, _, _, _, h
  | .rem, _, _, _, _, _, _, _, _, _, h | .return, _, _, _, _, _, _, _, _, _, h => by
      simp [Action.behind?] at h

theorem leadsTo_behindAll? {number : Nat} : ∀ (as : List (Action R)) {address b : Nat}
    {after rest : List (Action R)} {lines : List (ActionLine R)}, Action.AllProper all as →
    linked.Placed address (Action.codeAll b as).1 →
    (Action.codeAll b as).1.length ≤ Stack.capacity →
    linked.Ahead all (address + widthOf (Action.codeAll b as).1) ⟨after, lines⟩ →
    behindAll? number after as = some rest →
    linked.LeadsTo all (Place.body ⟨number⟩) ⟨rest, lines⟩
  | [], _, _, _, _, _, _, _, _, _, h => by simp [behindAll?] at h
  | a :: as, address, b, after, rest, lines, hproper, hplaced, hroom, hahead, h => by
      rw [Action.codeAll] at hplaced hroom hahead
      rw [placed_append] at hplaced
      rw [List.length_append] at hroom
      rw [widthOf_append, ← Nat.add_assoc] at hahead
      rw [behindAll?, Option.or_eq_some_iff] at h
      rcases h with h | ⟨-, h⟩
      · exact leadsTo_behind? a hproper.1 hplaced.1 (by omega)
          (ahead_codeAll hproper.2 hplaced.2 (by omega) hahead) h
      · exact leadsTo_behindAll? as hproper.2 hplaced.2 (by omega) hahead h

end

section

variable {b : Nat} {lines : List (ActionLine R)}

theorem ahead_linesCode (hproper : ∀ line ∈ lines, Action.AllProper all line.actions)
    {address : Nat} (hplaced : linked.Placed address (Action.linesCode b lines).1)
    (hroom : (Action.linesCode b lines).1.length ≤ Stack.capacity)
    (hend : linked.code[address + widthOf (Action.linesCode b lines).1]? = some .end) :
    linked.Ahead all address ⟨[], lines⟩ := by
  induction lines generalizing b address with
  | nil => exact .stop hend
  | cons line lines ih =>
      simp only [Action.linesCode, placed_append, widthOf_append, List.length_append,
        ← Nat.add_assoc] at hplaced hroom hend
      rw [List.forall_mem_cons] at hproper
      have hlater := ih hproper.2 hplaced.2 (by omega) hend
      have hline := ahead_codeAll hproper.1 hplaced.1.2 (by omega) hlater
      rw [List.append_nil] at hline
      exact .line (code_of_holds hplaced.1.1.2.1 rfl rfl) hline

theorem leadsTo_at? (hproper : ∀ line ∈ lines, Action.AllProper all line.actions)
    {address : Nat} (hplaced : linked.Placed address (Action.linesCode b lines).1)
    (hroom : (Action.linesCode b lines).1.length ≤ Stack.capacity)
    (hend : linked.code[address + widthOf (Action.linesCode b lines).1]? = some .end)
    {number : LineNumber} {point : Point R} (h : Point.at? number lines = some point) :
    linked.LeadsTo all (lineLabel number) point := by
  induction lines generalizing b address with
  | nil => cases h
  | cons line lines ih =>
      have hahead := ahead_linesCode hproper hplaced hroom hend
      simp only [Action.linesCode, placed_append, widthOf_append, List.length_append,
        ← Nat.add_assoc] at hplaced hroom hend
      rw [List.forall_mem_cons] at hproper
      rw [Point.at?] at h
      split at h
      · rename_i hnumber
        cases h
        subst hnumber
        exact ⟨address, hplaced.1.1.1, hahead⟩
      · exact ih hproper.2 hplaced.2 (by omega) hend h

theorem leadsTo_behindLines? (hproper : ∀ line ∈ lines, Action.AllProper all line.actions)
    {address : Nat} (hplaced : linked.Placed address (Action.linesCode b lines).1)
    (hroom : (Action.linesCode b lines).1.length ≤ Stack.capacity)
    (hend : linked.code[address + widthOf (Action.linesCode b lines).1]? = some .end)
    {number : Nat} {point : Point R} (h : Point.behind? number lines = some point) :
    linked.LeadsTo all (Place.body ⟨number⟩) point := by
  induction lines generalizing b address with
  | nil => cases h
  | cons line lines ih =>
      simp only [Action.linesCode, placed_append, widthOf_append, List.length_append,
        ← Nat.add_assoc] at hplaced hroom hend
      rw [List.forall_mem_cons] at hproper
      have hlater := ahead_linesCode hproper.2 hplaced.2 (by omega) hend
      rw [Point.behind?] at h
      split at h
      · rename_i rest hrest
        cases h
        exact leadsTo_behindAll? line.actions hproper.1 hplaced.1.2 (by omega) hlater hrest
      · exact ih hproper.2 hplaced.2 (by omega) hend h

end

end LinkedCode

end LineBasic
