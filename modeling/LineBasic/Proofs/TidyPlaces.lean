import LineBasic.Proofs.Tidying

namespace LineBasic

variable {R W : Type}

open LineBasic.Action

theorem behindAll?_append (k : Nat) (after as bs : List (Action R)) :
    behindAll? k after (as ++ bs) = (behindAll? k (bs ++ after) as).or (behindAll? k after bs) := by
  induction as with
  | nil => rfl
  | cons a as ih =>
      rw [List.cons_append, behindAll?, behindAll?, ih, Option.or_assoc, List.append_assoc]

theorem behind?_eq_none {k : Nat} {a : Action R} (h : k ∉ a.fors) (after : List (Action R)) :
    a.behind? k after = none := by
  rwa [← Option.not_isSome_iff_eq_none, behind?_isSome_iff]

theorem behindAll?_eq_none {k : Nat} {as : List (Action R)} (h : k ∉ forsAll as)
    (after : List (Action R)) : behindAll? k after as = none := by
  rwa [← Option.not_isSome_iff_eq_none, behindAll?_isSome_iff]

theorem nextsAll_append (as as' : List (Action R)) :
    nextsAll (as ++ as') = nextsAll as ++ nextsAll as' := by
  induction as with
  | nil => rfl
  | cons a as ih => rw [List.cons_append, nextsAll, nextsAll, ih, List.append_assoc]

theorem mem_flatMap_of_append {f : List (Action R) → List Nat}
    (happend : ∀ as as', f (as ++ as') = f as ++ f as') {k : Nat} {lines : List (ActionLine R)}
    {line : ActionLine R} (hline : line ∈ lines) (hk : k ∈ f line.actions) :
    k ∈ f (lines.flatMap ActionLine.actions) := by
  obtain ⟨front, back, rfl⟩ := List.append_of_mem hline
  rw [List.flatMap_append, List.flatMap_cons, happend, happend]
  exact List.mem_append_right _ (List.mem_append_left _ hk)

theorem exists_of_mem_forsAll_flatMap {k : Nat} {lines : List (ActionLine R)}
    (h : k ∈ forsAll (lines.flatMap ActionLine.actions)) :
    ∃ line ∈ lines, k ∈ forsAll line.actions := by
  induction lines with
  | nil => cases h
  | cons line lines ih =>
      rw [List.flatMap_cons, forsAll_append, List.mem_append] at h
      rw [List.exists_mem_cons_iff]
      exact h.imp_right ih

variable [NumberSystem R]

/-- What is left of a line, and what is left of it when it is tidied: as far as
control comes, the second has the tidied actions of the first. -/
inductive TidyRest : List (Action R) → List (Action R) → Prop where
  | nil : TidyRest [] []
  | cons (a : Action R) {rest rest' : List (Action R)} :
      (a.tidy.any isTerminal = false → TidyRest rest rest') →
      TidyRest (a :: rest) (a.tidy ++ rest')

namespace TidyRest

theorem of_cons {a : Action R} {rest rest' : List (Action R)} (h : TidyRest (a :: rest) rest') :
    ∃ tail', rest' = a.tidy ++ tail' ∧
      (a.tidy.any isTerminal = false → TidyRest rest tail') := by
  cases h with
  | cons _ hrest => exact ⟨_, rfl, hrest⟩

/-- Tidied actions in front of a place that is tidied, if control gets there. -/
theorem append (as : List (Action R)) {after after' : List (Action R)}
    (h : (tidyAll false as).any isTerminal = false → TidyRest after after') :
    TidyRest (as ++ after) (tidyAll false as ++ after') := by
  induction as with
  | nil => exact h rfl
  | cons a as ih =>
      rw [tidyAll_live] at h ⊢
      rw [List.cons_append, List.append_assoc]
      refine .cons a fun ha => ?_
      rw [ha, List.any_append, ha, Bool.false_or] at h
      rw [ha]
      exact ih h

theorem of_line (as : List (Action R)) : TidyRest as (tidyAll false as) := by
  have h : TidyRest (as ++ []) (tidyAll false as ++ []) := append as fun _ => .nil
  rwa [List.append_nil, List.append_nil] at h

end TidyRest

/-- Places of a program and of the tidied program. -/
structure TidyPoint (point point' : Point R) : Prop where
  rest : TidyRest point.rest point'.rest
  lines_eq : point'.lines = point.lines.map ActionLine.tidy

theorem rel_at?_tidy (n : LineNumber) (lines : List (ActionLine R)) :
    Option.Rel TidyPoint (Point.at? n lines) (Point.at? n (lines.map ActionLine.tidy)) := by
  induction lines with
  | nil => exact .none
  | cons line lines ih =>
      rw [List.map_cons, Point.at?, Point.at?]
      by_cases hline : line.number = n
      · rw [if_pos hline, if_pos (by exact hline)]
        exact .some ⟨.nil, rfl⟩
      · rw [if_neg hline, if_neg (by exact hline)]
        exact ih

namespace Action

mutual

/-- The FOR of loop `number` is in the action, and tidying leaves alone what is
behind it, as far as control comes from there. -/
def Intact (number : Nat) : Action R → Prop
  | .for loop _ _ _ => loop.number = number
  | branch _ thenBody elseBody => IntactAll number false thenBody ∨ IntactAll number false elseBody
  | _ => False

def IntactAll (number : Nat) (dead : Bool) : List (Action R) → Prop
  | [] => False
  | a :: as =>
      if dead then
        (a.pairs ∧ a.Intact number ∧ tidyAll true as = tidyAll false as) ∨
          IntactAll number true as
      else a.Intact number ∨ IntactAll number (a.tidy.any isTerminal) as

end

mutual

theorem mem_fors_of_intact {k : Nat} : ∀ a : Action R, a.Intact k → k ∈ a.fors
  | .for _ _ _ _, h => List.mem_singleton.mpr h.symm
  | branch _ thenBody elseBody, h =>
      List.mem_append.mpr (h.imp (mem_forsAll_of_intact thenBody) (mem_forsAll_of_intact elseBody))
  | call _ _, h | .end, h | gosub _, h | goto _, h | assign _ _, h | next _, h | rem, h
  | .return, h => h.elim

theorem mem_forsAll_of_intact {k : Nat} {dead : Bool} : ∀ as : List (Action R),
    IntactAll k dead as → k ∈ forsAll as
  | [], h => h.elim
  | a :: as, h => by
      rw [IntactAll] at h
      rw [forsAll, List.mem_append]
      split at h
      · exact h.imp (fun h => mem_fors_of_intact a h.2.1) (mem_forsAll_of_intact as)
      · exact h.imp (mem_fors_of_intact a) (mem_forsAll_of_intact as)

end

end Action

/-- What is left of lines behind a FOR, when they are tidied and when not. -/
def TidyBehind (found found' : Option (List (Action R))) : Prop :=
  ∃ rest rest', found = some rest ∧ found' = some rest' ∧ TidyRest rest rest'

namespace TidyBehind

variable {found found' found₂ found₂' : Option (List (Action R))}

theorem or (h : TidyBehind found found') :
    TidyBehind (found.or found₂) (found'.or found₂') := by
  obtain ⟨rest, rest', rfl, rfl, hrest⟩ := h
  exact ⟨rest, rest', rfl, rfl, hrest⟩

theorem none_or (h : TidyBehind found₂ found₂') (hnone : found = none) (hnone' : found' = none) :
    TidyBehind (found.or found₂) (found'.or found₂') := by
  rwa [hnone, hnone', Option.none_or, Option.none_or]

end TidyBehind

mutual

theorem tidyBehind_of_intact {k : Nat} {after after' : List (Action R)} : ∀ a : Action R,
    a.Intact k → a.fors.Nodup → (a.tidy.any isTerminal = false → TidyRest after after') →
    TidyBehind (a.behind? k after) (behindAll? k after' a.tidy)
  | .for loop _ _ _, h, _, hafter => by
      have hnumber : loop.number = k := h
      refine ⟨after, after', if_pos hnumber, ?_, hafter rfl⟩
      rw [tidy_of_pairs rfl, behindAll?, Action.behind?, if_pos hnumber]
      rfl
  | branch condition thenBody elseBody, h, hnodup, hafter => by
      rw [fors, List.nodup_append'] at hnodup
      obtain ⟨hthen, helse, hdisjoint⟩ := hnodup
      rcases tidy_branch condition thenBody elseBody with heq | ⟨⟨hthen', helse'⟩, -⟩
      · rw [heq] at hafter ⊢
        rw [Action.behind?, behindAll?, Action.behind?, behindAll?, Option.or_none]
        rcases h with h | h
        · exact (tidyBehind_of_intactAll thenBody h hthen (hafter rfl)).or
        · have hnot : k ∉ forsAll thenBody := fun hk => hdisjoint hk (mem_forsAll_of_intact _ h)
          refine (tidyBehind_of_intactAll elseBody h helse (hafter rfl)).none_or
            (behindAll?_eq_none hnot _) (behindAll?_eq_none ?_ _)
          exact fun hk => hnot (forsAll_tidyAll false thenBody hk)
      · have hmem := mem_fors_of_intact _ h
        rw [fors, forsAll_of_anyHasLoop _ hthen', forsAll_of_anyHasLoop _ helse'] at hmem
        cases hmem
  | call _ _, h, _, _ | .end, h, _, _ | gosub _, h, _, _ | goto _, h, _, _ | assign _ _, h, _, _
  | next _, h, _, _ | rem, h, _, _ | .return, h, _, _ => h.elim

theorem tidyBehind_of_intactAll {k : Nat} {dead : Bool} {after after' : List (Action R)} :
    ∀ as : List (Action R), IntactAll k dead as → (forsAll as).Nodup → TidyRest after after' →
    TidyBehind (behindAll? k after as) (behindAll? k after' (tidyAll dead as))
  | [], h, _, _ => h.elim
  | a :: as, h, hnodup, hafter => by
      rw [forsAll, List.nodup_append'] at hnodup
      obtain ⟨ha, has, hdisjoint⟩ := hnodup
      rw [IntactAll] at h
      rw [behindAll?]
      cases dead with
      | true =>
          rw [if_pos rfl] at h
          rw [tidyAll_dead]
          rcases h with ⟨hpairs, hintact, heq⟩ | h
          · rw [if_pos hpairs, behindAll?]
            have hbehind : TidyBehind (a.behind? k (as ++ after))
                (behindAll? k (tidyAll true as ++ after') a.tidy) :=
              tidyBehind_of_intact a hintact ha fun _ => ?_
            · rw [tidy_of_pairs hpairs, behindAll?, behindAll?, Option.or_none] at hbehind
              exact hbehind.or
            · rw [heq]
              exact TidyRest.append as fun _ => hafter
          · have hnot : k ∉ a.fors := fun hk => hdisjoint hk (mem_forsAll_of_intact _ h)
            have hrest := tidyBehind_of_intactAll as h has hafter
            split
            · exact hrest.none_or (behind?_eq_none hnot _) (behind?_eq_none hnot _)
            · rw [behind?_eq_none hnot]
              exact hrest
      | false =>
          rw [if_neg Bool.false_ne_true] at h
          rw [tidyAll_live, behindAll?_append]
          rcases h with h | h
          · refine (tidyBehind_of_intact a h ha fun hlive => ?_).or
            rw [hlive]
            exact TidyRest.append as fun _ => hafter
          · have hnot : k ∉ a.fors := fun hk => hdisjoint hk (mem_forsAll_of_intact _ h)
            exact (tidyBehind_of_intactAll as h has hafter).none_or (behind?_eq_none hnot _)
              (behindAll?_eq_none (fun hk => hnot (fors_tidy a hk)) _)

end

theorem rel_behind?_of_intact {k : Nat} {lines : List (ActionLine R)}
    (hnodup : (forsAll (lines.flatMap ActionLine.actions)).Nodup)
    (h : ∃ line ∈ lines, IntactAll k false line.actions) :
    Option.Rel TidyPoint (Point.behind? k lines)
      (Point.behind? k (lines.map ActionLine.tidy)) := by
  induction lines with
  | nil =>
      obtain ⟨line, hline, -⟩ := h
      cases hline
  | cons line lines ih =>
      rw [List.flatMap_cons, forsAll_append, List.nodup_append'] at hnodup
      obtain ⟨hline, hlines, hdisjoint⟩ := hnodup
      rw [List.exists_mem_cons_iff] at h
      rw [List.map_cons, Point.behind?, Point.behind?]
      rcases h with h | h
      · obtain ⟨rest, rest', hrest, hrest', htidy⟩ :=
          tidyBehind_of_intactAll line.actions h hline .nil
        rw [hrest, ActionLine.tidy, hrest']
        exact .some ⟨htidy, rfl⟩
      · have hnot : k ∉ forsAll line.actions := by
          obtain ⟨line', hmem, h⟩ := h
          intro hk
          exact hdisjoint hk
            (mem_flatMap_of_append forsAll_append hmem (mem_forsAll_of_intact _ h))
        have hnot' : k ∉ forsAll line.tidy.actions :=
          fun hk => hnot (forsAll_tidyAll false line.actions hk)
        rw [behindAll?_eq_none hnot, behindAll?_eq_none hnot']
        exact ih hlines h

theorem flatMap_tidy_subset (lines : List (ActionLine R)) :
    forsAll ((lines.map ActionLine.tidy).flatMap ActionLine.actions) ⊆
      forsAll (lines.flatMap ActionLine.actions) := by
  induction lines with
  | nil => exact List.Subset.refl _
  | cons line lines ih =>
      rw [List.map_cons, List.flatMap_cons, List.flatMap_cons, forsAll_append, forsAll_append]
      intro k hk
      exact List.mem_append.mpr
        ((List.mem_append.mp hk).imp (forsAll_tidyAll false line.actions ·) (ih ·))

theorem rel_behind?_tidy {k : Nat} {lines : List (ActionLine R)}
    (hnodup : (forsAll (lines.flatMap ActionLine.actions)).Nodup)
    (h : k ∈ forsAll (lines.flatMap ActionLine.actions) →
      ∃ line ∈ lines, IntactAll k false line.actions) :
    Option.Rel TidyPoint (Point.behind? k lines)
      (Point.behind? k (lines.map ActionLine.tidy)) := by
  by_cases hk : k ∈ forsAll (lines.flatMap ActionLine.actions)
  · exact rel_behind?_of_intact hnodup (h hk)
  · have hnone : Point.behind? k lines = none := by
      rwa [← Option.not_isSome_iff_eq_none, Point.behind?_isSome_iff]
    have hnone' : Point.behind? k (lines.map ActionLine.tidy) = none := by
      rw [← Option.not_isSome_iff_eq_none, Point.behind?_isSome_iff]
      exact fun hk' => hk (flatMap_tidy_subset lines hk')
    rw [hnone, hnone']
    exact .none

end LineBasic
