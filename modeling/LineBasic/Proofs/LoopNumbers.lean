import Mathlib.Algebra.GroupWithZero.Nat
import Mathlib.Algebra.Order.BigOperators.Group.List
import Mathlib.Algebra.Order.Group.Nat
import Mathlib.Data.Nat.Count
import LineBasic.Proofs.Tidying

namespace LineBasic

variable {R : Type}

open LineBasic.Action

/-- The number of a loop when only the loops `kept` are left: how many there are
up to it. The other loops get numbers that nothing else has. -/
def newNumber (kept : List Nat) : Nat → Nat
  | 0 => 0
  | k + 1 =>
      if k + 1 ∈ kept then Nat.count (· + 1 ∈ kept) k + 1 else kept.sum + (k + 1)

theorem newNumber_of_mem {kept : List Nat} {k : Nat} (h : k + 1 ∈ kept) :
    newNumber kept (k + 1) = Nat.count (· + 1 ∈ kept) k + 1 := by
  rw [newNumber, if_pos h]

theorem newNumber_le_sum {kept : List Nat} {k : Nat} (h : k + 1 ∈ kept) :
    newNumber kept (k + 1) ≤ kept.sum := by
  have hcount : Nat.count (· + 1 ∈ kept) k ≤ k := Nat.count_le _
  have hsum : k + 1 ≤ kept.sum := List.le_sum_of_mem h
  rw [newNumber_of_mem h]
  omega

theorem newNumber_injective (kept : List Nat) : Function.Injective (newNumber kept) := by
  intro j k h
  rcases j with _ | j <;> rcases k with _ | k
  · rfl
  · rw [newNumber, newNumber] at h
    split at h <;> omega
  · rw [newNumber, newNumber] at h
    split at h <;> omega
  · by_cases hj : j + 1 ∈ kept <;> by_cases hk : k + 1 ∈ kept
    · rw [newNumber_of_mem hj, newNumber_of_mem hk] at h
      have hcount : Nat.count (· + 1 ∈ kept) j = Nat.count (· + 1 ∈ kept) k := by omega
      exact congrArg (· + 1) (Nat.count_injective hj hk hcount)
    · have hle := newNumber_le_sum hj
      rw [h, newNumber, if_neg hk] at hle
      omega
    · have hle := newNumber_le_sum hk
      rw [← h, newNumber, if_neg hj] at hle
      omega
    · rw [newNumber, if_neg hj, newNumber, if_neg hk] at h
      omega

/-- The loops of the text when only those of `kept` are left. -/
structure Loops.Keeping (kept : List Nat) (loops loops' : Loops) : Prop where
  count_eq : loops'.count = Nat.count (· + 1 ∈ kept) loops.count
  opened_eq : loops'.opened =
    (loops.opened.filter (·.number ∈ kept)).map (Loop.renumber (newNumber kept))

namespace Loops.Keeping

variable {kept : List Nat} {loops loops' : Loops}

theorem open_of_mem (h : Keeping kept loops loops') (hmem : loops.count + 1 ∈ kept)
    (name : String) : Keeping kept (loops.open name) (loops'.open name) where
  count_eq := by rw [Loops.open, Loops.open, Nat.count_succ, if_pos hmem, h.count_eq]
  opened_eq := by
    rw [Loops.open, Loops.open, List.filter_cons, if_pos (decide_eq_true hmem), List.map_cons,
      h.opened_eq, h.count_eq, Loop.renumber, newNumber_of_mem hmem]

theorem open_of_not_mem (h : Keeping kept loops loops') (hmem : loops.count + 1 ∉ kept)
    (name : String) : Keeping kept (loops.open name) loops' where
  count_eq := by rw [Loops.open, Nat.count_succ, if_neg hmem, h.count_eq, Nat.add_zero]
  opened_eq := by
    rw [Loops.open, List.filter_cons, if_neg (by rwa [decide_eq_true_iff]), h.opened_eq]

theorem closed_of_mem (h : Keeping kept loops loops') {v : Option Variable} {loop : Loop}
    (hclosed : loops.closed v = some loop) (hmem : loop.number ∈ kept) :
    loops'.closed v = some (loop.renumber (newNumber kept)) ∧
      Keeping kept loops.close loops'.close := by
  obtain ⟨loops, hopened⟩ := exists_of_closed hclosed
  have hopened' := h.opened_eq
  rw [hopened, List.filter_cons, if_pos (decide_eq_true hmem), List.map_cons] at hopened'
  refine ⟨?_, h.count_eq, ?_⟩
  · rw [closed, hopened] at hclosed
    rw [closed, hopened']
    cases v with
    | none => rfl
    | some v =>
        obtain ⟨hname, -⟩ := Option.ite_none_right_eq_some.mp hclosed
        exact if_pos hname
  · rw [close, close, hopened', hopened]
    rfl

theorem close_of_not_mem (h : Keeping kept loops loops') {v : Option Variable} {loop : Loop}
    (hclosed : loops.closed v = some loop) (hmem : loop.number ∉ kept) :
    Keeping kept loops.close loops' := by
  obtain ⟨rest, hopened⟩ := exists_of_closed hclosed
  refine ⟨h.count_eq, ?_⟩
  rw [h.opened_eq, close, hopened, List.filter_cons, if_neg (by rwa [decide_eq_true_iff])]
  rfl

end Loops.Keeping

namespace Action

mutual

/-- No loop of the action is one of `kept`. -/
def drops (kept : List Nat) : Action R → Bool
  | .for loop _ _ _ | next (some loop) => loop.number ∉ kept
  | next none => false
  | branch _ thenBody elseBody => dropsAll kept thenBody && dropsAll kept elseBody
  | _ => true

def dropsAll (kept : List Nat) : List (Action R) → Bool
  | [] => true
  | a :: as => a.drops kept && dropsAll kept as

end

mutual

theorem drops_of_hasLoop (kept : List Nat) : ∀ a : Action R, a.hasLoop = false → a.drops kept
  | branch _ thenBody elseBody, h => by
      rw [hasLoop, Bool.or_eq_false_iff] at h
      rw [drops, dropsAll_of_anyHasLoop kept thenBody h.1, dropsAll_of_anyHasLoop kept elseBody h.2]
      rfl
  | call _ _, _ | .end, _ | gosub _, _ | goto _, _ | assign _ _, _ | rem, _ | .return, _ => rfl

theorem dropsAll_of_anyHasLoop (kept : List Nat) : ∀ as : List (Action R),
    anyHasLoop as = false → dropsAll kept as
  | [], _ => rfl
  | a :: as, h => by
      rw [anyHasLoop, Bool.or_eq_false_iff] at h
      rw [dropsAll, drops_of_hasLoop kept a h.1, dropsAll_of_anyHasLoop kept as h.2]
      rfl

end

variable [NumberSystem R]

mutual

/-- Tidying keeps the FORs and NEXTs of the loops `kept` in the action, and no
others. -/
def keeps (kept : List Nat) : Action R → Bool
  | .for loop _ _ _ | next (some loop) => loop.number ∈ kept
  | next none => false
  | branch _ thenBody elseBody => keepsAll kept false thenBody && keepsAll kept false elseBody
  | _ => true

def keepsAll (kept : List Nat) (dead : Bool) : List (Action R) → Bool
  | [] => true
  | a :: as =>
      if dead then (if a.pairs then a.keeps kept else a.drops kept) && keepsAll kept true as
      else a.keeps kept && keepsAll kept (a.tidy.any isTerminal) as

end

end Action

namespace Stmt

/-- Actions, and the loops of the text behind them, when only the loops `kept`
are left. -/
structure Renumbered (kept : List Nat) (x x' : List (Action R) × Loops) : Prop where
  actions_eq : x'.1 = renumberAll (newNumber kept) x.1
  keeping : Loops.Keeping kept x.2 x'.2

theorem Renumbered.append {kept : List Nat} {as as' : List (Action R)} {loops₁ loops₂ loops' : Loops}
    {ss ss' : List (Stmt R)} (h : Renumbered kept (as, loops₁) (pairAll loops' ss))
    (h' : Renumbered kept (as', loops₂) (pairAll (pairAll loops' ss).2 ss')) :
    Renumbered kept (as ++ as', loops₂) (pairAll loops' (ss ++ ss')) := by
  rw [pairAll_append]
  refine ⟨?_, h'.keeping⟩
  dsimp only
  rw [h.actions_eq, h'.actions_eq, renumberAll_append]

theorem pairAll_cons (loops : Loops) (s : Stmt R) (ss : List (Stmt R)) :
    pairAll loops (s :: ss) =
      ((s.pair loops).1 :: (pairAll (s.pair loops).2 ss).1, (pairAll (s.pair loops).2 ss).2) :=
  rfl

theorem pair_if (loops : Loops) (column : Column) (condition : Expr R)
    (thenBody elseBody : List (Stmt R)) :
    (Stmt.if column condition thenBody elseBody).pair loops =
      (.branch condition (pairAll loops thenBody).1
          (pairAll (pairAll loops thenBody).2 elseBody).1,
        (pairAll (pairAll loops thenBody).2 elseBody).2) :=
  rfl

theorem pairs_pair (loops : Loops) (s : Stmt R) : (s.pair loops).1.pairs = s.pairs := by
  cases s <;> rfl

theorem any_isTerminal_pairAll (loops : Loops) (ss : List (Stmt R)) :
    (pairAll loops ss).1.any Action.isTerminal = ss.any isTerminal := by
  induction ss generalizing loops with
  | nil => rfl
  | cons s ss ih => simp only [pairAll, List.any_cons, isTerminal_pair, ih]

theorem any_isTerminal_renumber (ρ : Nat → Nat) (as : List (Action R)) :
    (renumberAll ρ as).any Action.isTerminal = as.any Action.isTerminal := by
  induction as with
  | nil => rfl
  | cons a as ih =>
      have ha : (a.renumber ρ).isTerminal = a.isTerminal := by
        cases a <;> rfl
      rw [renumberAll, List.any_cons, List.any_cons, ha, ih]

mutual

theorem hasLoop_pair (loops : Loops) : ∀ s : Stmt R, (s.pair loops).1.hasLoop = s.hasLoop
  | .if _ _ thenBody elseBody => by
      simp only [pair, hasLoop, Action.hasLoop, anyHasLoop_pairAll _ thenBody,
        anyHasLoop_pairAll _ elseBody]
  | .for _ _ _ _ _ => rfl
  | call _ _ _ | .end _ | gosub _ _ | goto _ _ | .let _ _ _ | next _ _ | print _ _ | rem _
  | .return _ => rfl

theorem anyHasLoop_pairAll (loops : Loops) :
    ∀ ss : List (Stmt R), Action.anyHasLoop (pairAll loops ss).1 = anyHasLoop ss
  | [] => rfl
  | s :: ss => by
      simp only [pairAll, anyHasLoop, Action.anyHasLoop, hasLoop_pair _ s, anyHasLoop_pairAll _ ss]

end

variable {kept : List Nat}

mutual

theorem keeping_of_drops : ∀ (s : Stmt R) {loops loops' : Loops},
    Loops.Keeping kept loops loops' → (s.pair loops).1.drops kept →
    Loops.Keeping kept (s.pair loops).2 loops'
  | .for _ v _ _ _, _, _, h, hdrops => h.open_of_not_mem (of_decide_eq_true hdrops) v.name
  | next _ v, loops, _, h, hdrops => by
      rw [pair] at hdrops ⊢
      cases hclosed : loops.closed v with
      | none =>
          rw [hclosed] at hdrops
          cases hdrops
      | some loop =>
          rw [hclosed] at hdrops
          exact h.close_of_not_mem hclosed (of_decide_eq_true hdrops)
  | .if _ _ thenBody elseBody, _, _, h, hdrops => by
      rw [pair, Action.drops, Bool.and_eq_true] at hdrops
      exact keeping_of_dropsAll elseBody (keeping_of_dropsAll thenBody h hdrops.1) hdrops.2
  | call _ _ _, _, _, h, _ | .end _, _, _, h, _ | gosub _ _, _, _, h, _ | goto _ _, _, _, h, _
  | .let _ _ _, _, _, h, _ | print _ _, _, _, h, _ | rem _, _, _, h, _ | .return _, _, _, h, _ => h

theorem keeping_of_dropsAll : ∀ (ss : List (Stmt R)) {loops loops' : Loops},
    Loops.Keeping kept loops loops' → dropsAll kept (pairAll loops ss).1 →
    Loops.Keeping kept (pairAll loops ss).2 loops'
  | [], _, _, h, _ => h
  | s :: ss, _, _, h, hdrops => by
      rw [pairAll, dropsAll, Bool.and_eq_true] at hdrops
      exact keeping_of_dropsAll ss (keeping_of_drops s h hdrops.1) hdrops.2

end

/-- An action that stays as it is. -/
theorem Renumbered.single {loops loops' : Loops} {s : Stmt R} {a : Action R}
    (haction : (s.pair loops').1 = a.renumber (newNumber kept))
    (hkeeping : Loops.Keeping kept loops (s.pair loops').2) :
    Renumbered kept ([a], loops) (pairAll loops' [s]) := by
  rw [pairAll_cons, haction]
  exact ⟨rfl, hkeeping⟩

theorem renumbered_for (column : Column) (v : Variable) (start limit : Expr R)
    (step : Option (Expr R)) {loops loops' : Loops} (h : Loops.Keeping kept loops loops')
    (hmem : loops.count + 1 ∈ kept) :
    Renumbered kept ([.for ⟨loops.count + 1, v.name⟩ start limit step], loops.open v.name)
      (pairAll loops' [.for column v start limit step]) := by
  refine .single ?_ (h.open_of_mem hmem v.name)
  rw [pair, renumber, Loop.renumber, newNumber_of_mem hmem, h.count_eq]

theorem renumbered_if {loops₁ loops₂ loops' : Loops} (column : Column)
    (condition : Expr R) {thenBody elseBody : List (Stmt R)} {as bs : List (Action R)}
    (hthen : Renumbered kept (as, loops₁) (pairAll loops' thenBody))
    (helse : Renumbered kept (bs, loops₂) (pairAll (pairAll loops' thenBody).2 elseBody)) :
    Renumbered kept ([.branch condition as bs], loops₂)
      (pairAll loops' [.if column condition thenBody elseBody]) := by
  refine .single ?_ helse.keeping
  rw [pair_if, renumber, ← hthen.actions_eq, ← helse.actions_eq]

variable [NumberSystem R]

theorem tidy_if_eq (column : Column) (condition : Expr R) (thenBody elseBody : List (Stmt R)) :
    (Stmt.if column condition thenBody elseBody).tidy =
      if anyHasLoop thenBody || anyHasLoop elseBody then
        [.if column condition (tidyAll false thenBody) (tidyAll false elseBody)]
      else
        match condition.branch? with
        | some true => tidyAll false thenBody
        | some false => tidyAll false elseBody
        | none => [.if column condition (tidyAll false thenBody) (tidyAll false elseBody)] := by
  cases condition with
  | number _ n =>
      rw [tidy, Expr.branch?]
      cases NumberSystem.isZero n <;> rfl
  | _ =>
      rw [tidy, Expr.branch?]
      · split <;> rfl
      all_goals simp

omit [NumberSystem R] in
theorem isSelfAssignment_let (column : Column) (v : Variable) (e : Expr R) :
    (Stmt.let column v e).isSelfAssignment = e.isVar v.name := by
  cases e <;> rfl

theorem tidy_of_pairs {s : Stmt R} (h : s.pairs) : s.tidy = [s] := by
  cases s with
  | «for» _ _ _ _ _ => rfl
  | next _ _ => rfl
  | _ => cases h

theorem renumbered_next (column : Column) (v : Option Variable) {loops loops' : Loops}
    (h : Loops.Keeping kept loops loops')
    (hkeeps : (Action.next (loops.closed v) : Action R).keeps kept) :
    Renumbered kept ([.next (loops.closed v)], loops.close)
      (pairAll loops' [(.next column v : Stmt R)]) := by
  cases hclosed : loops.closed v with
  | none =>
      rw [hclosed] at hkeeps
      cases hkeeps
  | some loop =>
      rw [hclosed] at hkeeps
      obtain ⟨hclosed', hclose⟩ := h.closed_of_mem hclosed (of_decide_eq_true hkeeps)
      refine .single ?_ hclose
      rw [pair, hclosed']
      rfl

mutual

/-- Tidying a statement before or after its loops are paired comes to the same,
up to their numbers. -/
theorem renumbered_tidy : ∀ (s : Stmt R) {loops loops' : Loops},
    Loops.Keeping kept loops loops' → (s.pair loops).1.keeps kept →
    Renumbered kept ((s.pair loops).1.tidy, (s.pair loops).2) (pairAll loops' s.tidy)
  | .for column v start limit step, _, _, h, hkeeps =>
      renumbered_for column v start limit step h (of_decide_eq_true hkeeps)
  | next column v, _, _, h, hkeeps => renumbered_next column v h hkeeps
  | .if column condition thenBody elseBody, loops, loops', h, hkeeps => by
      rw [pair_if, keeps, Bool.and_eq_true] at hkeeps
      have hthen := renumbered_tidyAll false thenBody h hkeeps.1
      have helse := renumbered_tidyAll false elseBody hthen.keeping hkeeps.2
      have hif := renumbered_if column condition hthen helse
      rw [tidy_if_eq, pair_if, Action.tidy]
      rw [anyHasLoop_pairAll, anyHasLoop_pairAll]
      split
      · exact hif
      · rename_i hloops
        rw [Bool.not_eq_true, Bool.or_eq_false_iff] at hloops
        have hloops₁ := pairAll_snd_of_anyHasLoop loops hloops.1
        have hloops₂ := pairAll_snd_of_anyHasLoop (pairAll loops thenBody).2 hloops.2
        rcases condition.branch? with _ | _ | _
        · exact hif
        · dsimp only
          rw [hloops₁] at hkeeps ⊢
          exact renumbered_tidyAll false elseBody h hkeeps.2
        · dsimp only
          rw [hloops₂]
          exact hthen
  | .let column v e, _, _, h, _ => by
      rw [tidy_let, isSelfAssignment_let, pair, Action.tidy]
      split
      · exact ⟨rfl, h⟩
      · exact .single rfl h
  | rem _, _, _, h, _ => ⟨rfl, h⟩
  | call _ _ _, _, _, h, _ | .end _, _, _, h, _ | gosub _ _, _, _, h, _ | goto _ _, _, _, h, _
  | print _ _, _, _, h, _ | .return _, _, _, h, _ => .single rfl h

theorem renumbered_tidyAll (dead : Bool) : ∀ (ss : List (Stmt R)) {loops loops' : Loops},
    Loops.Keeping kept loops loops' → keepsAll kept dead (pairAll loops ss).1 →
    Renumbered kept (Action.tidyAll dead (pairAll loops ss).1, (pairAll loops ss).2)
      (pairAll loops' (tidyAll dead ss))
  | [], _, _, h, _ => ⟨rfl, h⟩
  | s :: ss, loops, loops', h, hkeeps => by
      rw [pairAll_cons, keepsAll] at hkeeps
      rw [pairAll_cons]
      cases dead with
      | true =>
          rw [if_pos rfl, Bool.and_eq_true, pairs_pair] at hkeeps
          rw [tidyAll_dead, pairs_pair, tidyAll, if_pos rfl]
          split
          · rename_i hpairs
            rw [if_pos hpairs] at hkeeps
            have hs := renumbered_tidy s h hkeeps.1
            have haction := Action.tidy_of_pairs ((pairs_pair loops s).trans hpairs)
            rw [tidy_of_pairs hpairs, haction] at hs
            exact hs.append (renumbered_tidyAll true ss hs.keeping hkeeps.2)
          · rename_i hpairs
            rw [if_neg hpairs] at hkeeps
            exact renumbered_tidyAll true ss (keeping_of_drops s h hkeeps.1) hkeeps.2
      | false =>
          rw [if_neg Bool.false_ne_true, Bool.and_eq_true] at hkeeps
          have hs := renumbered_tidy s h hkeeps.1
          have hdead : s.tidy.any isTerminal = (s.pair loops).1.tidy.any Action.isTerminal := by
            rw [← any_isTerminal_pairAll loops', hs.actions_eq, any_isTerminal_renumber]
          rw [tidyAll_live, tidyAll, if_neg Bool.false_ne_true]
          dsimp only
          rw [hdead]
          exact hs.append (renumbered_tidyAll _ ss hs.keeping hkeeps.2)

end

end Stmt

namespace Program

variable [NumberSystem R]

/-- There are loops such that tidying keeps their FORs and NEXTs, and no others. -/
def KeepsPairs (p : Program R) : Prop :=
  ∃ kept, ∀ line ∈ p.actionLines, keepsAll kept false line.actions

theorem pairLines_tidy {kept : List Nat} (lines : List (ProgramLine R)) {loops loops' : Loops}
    (h : Loops.Keeping kept loops loops')
    (hkeeps : ∀ line ∈ (pairLines loops lines).1, keepsAll kept false line.actions) :
    (pairLines loops' (lines.map fun line =>
        { line with statements := Stmt.tidyAll false line.statements })).1 =
      ((pairLines loops lines).1.map ActionLine.tidy).map
        (ActionLine.renumber (newNumber kept)) := by
  induction lines generalizing loops loops' with
  | nil => rfl
  | cons line lines ih =>
      rw [pairLines, List.forall_mem_cons] at hkeeps
      have hline := Stmt.renumbered_tidyAll false line.statements h hkeeps.1
      have hactions := hline.actions_eq
      rw [List.map_cons, pairLines, pairLines]
      dsimp only at hactions ⊢
      rw [hactions, ih hline.keeping hkeeps.2]
      rfl

/-- Tidying a program before or after its loops are paired comes to the same, up
to their numbers. -/
theorem actionLines_tidy {p : Program R} {kept : List Nat}
    (h : ∀ line ∈ p.actionLines, keepsAll kept false line.actions) :
    p.tidy.actionLines =
      (p.actionLines.map ActionLine.tidy).map (ActionLine.renumber (newNumber kept)) :=
  pairLines_tidy p.lines ⟨rfl, rfl⟩ h

end Program

end LineBasic
