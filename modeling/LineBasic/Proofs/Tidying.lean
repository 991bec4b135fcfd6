import LineBasic.Proofs.Renumbering
import LineBasic.Proofs.Rereading

namespace LineBasic

variable {R : Type}

def Expr.branch? [NumberSystem R] : Expr R → Option Bool
  | number _ n => some !NumberSystem.isZero n
  | _ => none

def Expr.isVar (name : String) : Expr R → Bool
  | var _ name' => name == name'
  | _ => false

namespace Action

def pairs : Action R → Bool
  | .for _ _ _ _ | next _ => true
  | _ => false

mutual

def hasLoop : Action R → Bool
  | .for _ _ _ _ | next _ => true
  | branch _ thenBody elseBody => anyHasLoop thenBody || anyHasLoop elseBody
  | _ => false

def anyHasLoop : List (Action R) → Bool
  | [] => false
  | a :: as => a.hasLoop || anyHasLoop as

end

mutual

theorem fors_of_hasLoop : ∀ a : Action R, a.hasLoop = false → a.fors = []
  | branch _ thenBody elseBody, h => by
      rw [hasLoop, Bool.or_eq_false_iff] at h
      rw [fors, forsAll_of_anyHasLoop thenBody h.1, forsAll_of_anyHasLoop elseBody h.2]
      rfl
  | call _ _, _ | .end, _ | gosub _, _ | goto _, _ | assign _ _, _ | rem, _ | .return, _ => rfl

theorem forsAll_of_anyHasLoop : ∀ as : List (Action R), anyHasLoop as = false →
    forsAll as = []
  | [], _ => rfl
  | a :: as, h => by
      rw [anyHasLoop, Bool.or_eq_false_iff] at h
      rw [forsAll, fors_of_hasLoop a h.1, forsAll_of_anyHasLoop as h.2]
      rfl

end

section

variable [NumberSystem R]

mutual

/-- What becomes of an action that control can reach. -/
def tidy : Action R → List (Action R)
  | branch condition thenBody elseBody =>
      let kept := branch condition (tidyAll false thenBody) (tidyAll false elseBody)
      if anyHasLoop thenBody || anyHasLoop elseBody then [kept]
      else
        match condition.branch? with
        | some true => tidyAll false thenBody
        | some false => tidyAll false elseBody
        | none => [kept]
  | assign name e => if e.isVar name then [] else [assign name e]
  | rem => []
  | a => [a]

/-- What becomes of actions, where `dead` says that control cannot reach the
first of them. -/
def tidyAll (dead : Bool) : List (Action R) → List (Action R)
  | [] => []
  | a :: as =>
      if dead then if a.pairs then a :: tidyAll true as else tidyAll true as
      else a.tidy ++ tidyAll (a.tidy.any isTerminal) as

end

theorem tidyAll_dead (a : Action R) (as : List (Action R)) :
    tidyAll true (a :: as) = if a.pairs then a :: tidyAll true as else tidyAll true as := by
  rw [tidyAll, if_pos rfl]

theorem tidyAll_live (a : Action R) (as : List (Action R)) :
    tidyAll false (a :: as) = a.tidy ++ tidyAll (a.tidy.any isTerminal) as := by
  rw [tidyAll, if_neg Bool.false_ne_true]

theorem tidy_of_pairs {a : Action R} (h : a.pairs) : a.tidy = [a] := by
  cases a with
  | «for» _ _ _ _ => rfl
  | next _ => rfl
  | _ => cases h

/-- An IF either stays, with its bodies tidied, or it has no loops and gives way
to the body that its literal takes. -/
theorem tidy_branch (condition : Expr R) (thenBody elseBody : List (Action R)) :
    (branch condition thenBody elseBody).tidy =
        [branch condition (tidyAll false thenBody) (tidyAll false elseBody)] ∨
      (anyHasLoop thenBody = false ∧ anyHasLoop elseBody = false) ∧
        ∃ holds, condition.branch? = some holds ∧
          (branch condition thenBody elseBody).tidy =
            tidyAll false (if holds then thenBody else elseBody) := by
  rw [tidy]
  split
  · exact .inl rfl
  · rename_i hloops
    rw [Bool.not_eq_true, Bool.or_eq_false_iff] at hloops
    cases hbranch : condition.branch? with
    | none => exact .inl rfl
    | some holds =>
        refine .inr ⟨hloops, holds, rfl, ?_⟩
        cases holds <;> rfl

mutual

/-- Tidying brings no loops. -/
theorem fors_tidy : ∀ a : Action R, forsAll a.tidy ⊆ a.fors
  | branch condition thenBody elseBody => by
      have hthen := forsAll_tidyAll false thenBody
      have helse := forsAll_tidyAll false elseBody
      rcases tidy_branch condition thenBody elseBody with heq | ⟨-, holds, -, heq⟩ <;> rw [heq]
      · intro k hk
        rw [forsAll, fors, forsAll, List.append_nil] at hk
        rw [fors, List.mem_append]
        exact (List.mem_append.mp hk).imp (hthen ·) (helse ·)
      · intro k hk
        rw [fors, List.mem_append]
        cases holds with
        | true => exact .inl (hthen hk)
        | false => exact .inr (helse hk)
  | assign name e => by
      rw [tidy]
      split <;> exact List.nil_subset _
  | rem => List.nil_subset _
  | .for _ _ _ _ => List.Subset.refl _
  | call _ _ | .end | gosub _ | goto _ | next _ | .return => List.nil_subset _

theorem forsAll_tidyAll (dead : Bool) : ∀ as : List (Action R),
    forsAll (tidyAll dead as) ⊆ forsAll as
  | [] => List.Subset.refl _
  | a :: as => by
      cases dead with
      | true =>
          have hrest := forsAll_tidyAll true as
          rw [tidyAll_dead]
          split
          · intro k hk
            exact List.mem_append.mpr ((List.mem_append.mp hk).imp_right (hrest ·))
          · exact List.subset_append_of_subset_right _ hrest
      | false =>
          have hrest := forsAll_tidyAll (a.tidy.any isTerminal) as
          rw [tidyAll_live, forsAll_append]
          intro k hk
          exact List.mem_append.mpr ((List.mem_append.mp hk).imp (fors_tidy a ·) (hrest ·))

end

end

end Action

open LineBasic.Action

def ActionLine.tidy [NumberSystem R] (line : ActionLine R) : ActionLine R :=
  { line with actions := tidyAll false line.actions }

/-- The number that is the whole expression, if one is. -/
def Expr.literals : Expr R → List R
  | number _ n => [n]
  | _ => []

section

variable [NumberSystem R]

namespace Action

mutual

/-- The numbers that are an IF's whole condition. -/
def conditions : Action R → List R
  | branch condition thenBody elseBody =>
      condition.literals ++ (conditionsAll thenBody ++ conditionsAll elseBody)
  | _ => []

def conditionsAll : List (Action R) → List R
  | [] => []
  | a :: as => a.conditions ++ conditionsAll as

end

/-- Those numbers are read as zero if and only if they are zero. -/
def ReadsZeros (numbers : List R) : Prop :=
  ∀ n ∈ numbers, NumberSystem.isZero (NumberSystem.reread n) = NumberSystem.isZero n

theorem readsZeros_append {numbers numbers' : List R} :
    ReadsZeros (numbers ++ numbers') ↔ ReadsZeros numbers ∧ ReadsZeros numbers' := by
  simp only [ReadsZeros, List.mem_append, or_imp, forall_and]

mutual

theorem hasLoop_reread : ∀ a : Action R, a.reread.hasLoop = a.hasLoop
  | branch _ thenBody elseBody => by
      rw [reread, hasLoop, hasLoop, anyHasLoop_reread thenBody, anyHasLoop_reread elseBody]
  | .for _ _ _ _ => rfl
  | call _ _ | .end | gosub _ | goto _ | assign _ _ | next _ | rem | .return => rfl

theorem anyHasLoop_reread : ∀ as : List (Action R), anyHasLoop (rereadAll as) = anyHasLoop as
  | [] => rfl
  | a :: as => by
      rw [rereadAll, anyHasLoop, anyHasLoop, hasLoop_reread a, anyHasLoop_reread as]

end

theorem any_isTerminal_reread (as : List (Action R)) :
    (rereadAll as).any isTerminal = as.any isTerminal := by
  rw [rereadAll_eq_map, List.any_map]
  congr 1
  funext a
  exact isTerminal_reread a

theorem isVar_reread (name : String) (e : Expr R) : e.reread.isVar name = e.isVar name := by
  cases e <;> rfl

theorem branch?_reread {condition : Expr R} {thenBody elseBody : List (Action R)}
    (h : ReadsZeros (branch condition thenBody elseBody).conditions) :
    condition.reread.branch? = condition.branch? := by
  cases condition with
  | number _ n => exact congrArg (fun zero => some !zero) (h n List.mem_cons_self)
  | _ => rfl

mutual

theorem tidy_reread : ∀ a : Action R, ReadsZeros a.conditions →
    a.reread.tidy = rereadAll a.tidy
  | branch condition thenBody elseBody, h => by
      have hcondition := branch?_reread h
      rw [conditions, readsZeros_append, readsZeros_append] at h
      have hthen := tidyAll_reread false thenBody h.2.1
      have helse := tidyAll_reread false elseBody h.2.2
      rw [reread, tidy, tidy, anyHasLoop_reread, anyHasLoop_reread, hcondition, hthen, helse]
      split
      · rfl
      · split <;> rfl
  | assign name e, _ => by
      rw [reread, tidy, tidy, isVar_reread]
      split <;> rfl
  | rem, _ => rfl
  | .for _ _ _ _, _ => rfl
  | call _ _, _ | .end, _ | gosub _, _ | goto _, _ | next _, _ | .return, _ => rfl

theorem tidyAll_reread (dead : Bool) : ∀ as : List (Action R), ReadsZeros (conditionsAll as) →
    tidyAll dead (rereadAll as) = rereadAll (tidyAll dead as)
  | [], _ => rfl
  | a :: as, h => by
      rw [conditionsAll, readsZeros_append] at h
      cases dead with
      | true =>
          have hpairs : a.reread.pairs = a.pairs := by
            cases a <;> rfl
          have hrest := tidyAll_reread true as h.2
          rw [rereadAll, tidyAll_dead, tidyAll_dead, hpairs, hrest]
          split <;> rfl
      | false =>
          rw [rereadAll, tidyAll_live, tidyAll_live, tidy_reread a h.1, any_isTerminal_reread,
            tidyAll_reread _ as h.2, rereadAll_append]

end

mutual

theorem renumber_reread (ρ : Nat → Nat) : ∀ a : Action R,
    (a.renumber ρ).reread = a.reread.renumber ρ
  | branch _ thenBody elseBody => by
      rw [renumber, reread, reread, renumber, renumberAll_reread ρ thenBody,
        renumberAll_reread ρ elseBody]
  | .for _ _ _ _ => rfl
  | call _ _ | .end | gosub _ | goto _ | assign _ _ | next _ | rem | .return => rfl

theorem renumberAll_reread (ρ : Nat → Nat) : ∀ as : List (Action R),
    rereadAll (renumberAll ρ as) = renumberAll ρ (rereadAll as)
  | [] => rfl
  | a :: as => by
      rw [renumberAll, rereadAll, rereadAll, renumberAll, renumber_reread ρ a,
        renumberAll_reread ρ as]

end

end Action

variable {lines : List (ActionLine R)}

theorem tidy_rereadLines (h : ∀ line ∈ lines, ReadsZeros (conditionsAll line.actions)) :
    (rereadLines lines).map ActionLine.tidy = rereadLines (lines.map ActionLine.tidy) := by
  simp only [rereadLines, List.map_map]
  refine List.map_congr_left fun line hline => ?_
  simp only [Function.comp_apply, ActionLine.tidy, ActionLine.reread,
    tidyAll_reread false line.actions (h line hline)]

theorem renumber_rereadLines (ρ : Nat → Nat) (lines : List (ActionLine R)) :
    (rereadLines lines).map (ActionLine.renumber ρ) =
      rereadLines (lines.map (ActionLine.renumber ρ)) := by
  simp only [rereadLines, List.map_map]
  refine List.map_congr_left fun line _ => ?_
  simp only [Function.comp_apply, ActionLine.renumber, ActionLine.reread, renumberAll_reread]

end

end LineBasic
