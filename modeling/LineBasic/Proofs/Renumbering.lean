import LineBasic.Proofs.Alike

namespace LineBasic

variable {R W : Type}

namespace Action

mutual

def renumber (ρ : Nat → Nat) : Action R → Action R
  | .for loop start limit step => .for (loop.renumber ρ) start limit step
  | branch condition thenBody elseBody =>
      branch condition (renumberAll ρ thenBody) (renumberAll ρ elseBody)
  | next loop => next (loop.map (Loop.renumber ρ))
  | a => a

def renumberAll (ρ : Nat → Nat) : List (Action R) → List (Action R)
  | [] => []
  | a :: as => a.renumber ρ :: renumberAll ρ as

end

theorem renumberAll_append (ρ : Nat → Nat) (as as' : List (Action R)) :
    renumberAll ρ (as ++ as') = renumberAll ρ as ++ renumberAll ρ as' := by
  induction as with
  | nil => rfl
  | cons a as ih => rw [List.cons_append, renumberAll, renumberAll, ih, List.cons_append]

end Action

open LineBasic.Action

def ActionLine.renumber (ρ : Nat → Nat) (line : ActionLine R) : ActionLine R :=
  { line with actions := renumberAll ρ line.actions }

/-- The place in the program with other numbers for its loops. -/
def Point.renumber (ρ : Nat → Nat) (point : Point R) : Point R where
  rest := renumberAll ρ point.rest
  lines := point.lines.map (ActionLine.renumber ρ)

variable {ρ : Nat → Nat}

mutual

theorem behind?_renumber (hρ : Function.Injective ρ) (k : Nat) (after : List (Action R)) : ∀ a : Action R,
    (a.renumber ρ).behind? (ρ k) (renumberAll ρ after) = (a.behind? k after).map (renumberAll ρ)
  | .for loop _ _ _ => by
      simp only [renumber, behind?, Loop.renumber, hρ.eq_iff]
      split <;> rfl
  | .branch _ thenBody elseBody => by
      rw [renumber, behind?, behind?, behindAll?_renumber hρ k after thenBody,
        behindAll?_renumber hρ k after elseBody, Option.map_or]
  | .call _ _ | .end | .gosub _ | .goto _ | .assign _ _ | .next _ | .rem | .return => rfl

theorem behindAll?_renumber (hρ : Function.Injective ρ) (k : Nat) (after : List (Action R)) : ∀ as : List (Action R),
    behindAll? (ρ k) (renumberAll ρ after) (renumberAll ρ as) =
      (behindAll? k after as).map (renumberAll ρ)
  | [] => rfl
  | a :: as => by
      rw [renumberAll, behindAll?, behindAll?, ← renumberAll_append,
        behind?_renumber hρ k (as ++ after) a, behindAll?_renumber hρ k after as, Option.map_or]

end

namespace Point

theorem behind?_renumber (hρ : Function.Injective ρ) (k : Nat) (lines : List (ActionLine R)) :
    behind? (ρ k) (lines.map (ActionLine.renumber ρ)) = (behind? k lines).map (renumber ρ) := by
  induction lines with
  | nil => rfl
  | cons line lines ih =>
      have hline : behindAll? (ρ k) [] (line.renumber ρ).actions =
          (behindAll? k [] line.actions).map (renumberAll ρ) :=
        behindAll?_renumber hρ k [] line.actions
      rw [List.map_cons, behind?, behind?, hline, ih]
      cases behindAll? k [] line.actions <;> rfl

theorem at?_renumber (n : LineNumber) (lines : List (ActionLine R)) :
    at? n (lines.map (ActionLine.renumber ρ)) = (at? n lines).map (renumber ρ) := by
  induction lines with
  | nil => rfl
  | cons line lines ih =>
      have hnumber : (line.renumber ρ).number = line.number := rfl
      rw [List.map_cons, at?, at?, ih, hnumber]
      by_cases h : line.number = n
      · rw [if_pos h, if_pos h]
        rfl
      · rw [if_neg h, if_neg h]

end Point

/-- Points that are the same up to the numbers of loops. -/
def Renumbers (ρ : Nat → Nat) (point point' : Point R) : Prop :=
  point' = point.renumber ρ

theorem rel_renumber (point : Option (Point R)) :
    Option.Rel (Renumbers ρ) point (point.map (Point.renumber ρ)) := by
  cases point with
  | none => exact .none
  | some point => exact .some rfl

variable [NumberSystem R]

theorem Action.corresponds_renumber (hρ : Function.Injective ρ) (lines : List (ActionLine R))
    {t t' : Moment R} (h : Renumbers ρ t.point t'.point) (a : Action R) :
    a.Corresponds ρ (Renumbers ρ) lines (lines.map (ActionLine.renumber ρ)) t t'
      (a.renumber ρ) := by
  have hline (n : LineNumber) : Option.Rel (Renumbers ρ) (Point.at? n lines)
      (Point.at? n (lines.map (ActionLine.renumber ρ))) := by
    rw [Point.at?_renumber]
    exact rel_renumber _
  have hbody (body : List (Action R)) : Renumbers ρ ⟨body ++ t.point.rest, t.point.lines⟩
      ⟨renumberAll ρ body ++ t'.point.rest, t'.point.lines⟩ := by
    rw [Renumbers, h, Point.renumber, Point.renumber, renumberAll_append]
  cases a with
  | call name args => exact .call name args h
  | «end» => exact .end
  | «for» loop start limit step => exact .for loop start limit step h
  | gosub line => exact .gosub line h (hline line)
  | goto line => exact .goto line (hline line)
  | branch condition thenBody elseBody => exact .branch condition (hbody _) (hbody _)
  | assign name e => exact .assign name e h
  | next loop =>
      cases loop with
      | none => exact .open
      | some loop =>
          refine .next loop h fun _ _ _ => ?_
          rw [Point.behind?_renumber hρ]
          exact rel_renumber _
  | rem => exact .rem h
  | «return» => exact .return

/-- A program runs in the same way with other numbers for its loops. -/
theorem same_renumber (hρ : Function.Injective ρ) (natives : Natives R W) (depth : Option Nat)
    (lines : List (ActionLine R)) (w : W) :
    Process.Same (interpretation natives.noting depth lines) notedCalls
      (Moment.start lines, (w, []))
      (interpretation natives.noting depth (lines.map (ActionLine.renumber ρ))) notedCalls
      (Moment.start (lines.map (ActionLine.renumber ρ)), (w, [])) := by
  have hrelated : Moment.Related ρ (Renumbers ρ) (Moment.start lines)
      (Moment.start (lines.map (ActionLine.renumber ρ))) :=
    ⟨rfl, rfl, fun _ => rfl, fun _ => rfl, .nil⟩
  refine same_of_alike hrelated ?_ w
  rintro ⟨⟨rest, later⟩, vars, limits, steps, returns⟩ t' ⟨hpoint, hagrees⟩
  rw [Moment.next, Moment.next, hpoint]
  cases rest with
  | nil =>
      cases later with
      | nil => exact .stop _
      | cons line later => exact .pure (hagrees.goTo rfl)
  | cons a rest =>
      have hbehind := hagrees.goTo (rfl : Renumbers ρ ⟨rest, later⟩ (Point.renumber ρ ⟨rest, later⟩))
      exact (a.corresponds_renumber hρ lines hbehind.1).alike _ depth hρ hbehind.2

end LineBasic
