import LineBasic.Proofs.Alike
import LineBasic.Proofs.TidyPlaces
import LineBasic.Proofs.VariableTypes

/-!
Runs of tidied programs. A tidied program makes the steps of the program, save those without effect, as long as no NEXT
goes back to a FOR behind which tidying has dropped something that control comes to from there.
-/

namespace LineBasic

variable {R W : Type} [NumberSystem R]

open LineBasic.Action

variable {natives : Natives R W} {depth : Option Nat} {lines : List (ActionLine R)}

namespace Action

mutual

/-- How many actions there are in an action, itself among them. -/
def weight : Action R → Nat
  | branch _ thenBody elseBody => weightAll thenBody + weightAll elseBody + 1
  | _ => 1

def weightAll : List (Action R) → Nat
  | [] => 0
  | a :: as => a.weight + weightAll as

end

omit [NumberSystem R] in
theorem weightAll_append (as as' : List (Action R)) :
    weightAll (as ++ as') = weightAll as + weightAll as' := by
  induction as with
  | nil => exact (Nat.zero_add _).symm
  | cons a as ih => rw [List.cons_append, weightAll, weightAll, ih, Nat.add_assoc]

omit [NumberSystem R] in
theorem weight_pos (a : Action R) : 0 < a.weight := by
  cases a <;> exact Nat.succ_pos _

omit [NumberSystem R] in
theorem weightAll_body_lt (condition : Expr R) (thenBody elseBody rest : List (Action R))
    (holds : Bool) : weightAll ((if holds then thenBody else elseBody) ++ rest) <
      weightAll (branch condition thenBody elseBody :: rest) := by
  rw [weightAll_append, weightAll, weight]
  cases holds with
  | true => simp only [if_true]; omega
  | false => simp only [Bool.false_eq_true, if_false]; omega

end Action

theorem Action.corresponds_tidy {t t' : Moment R} {a : Action R}
    (hpoint : a.isTerminal = false → TidyPoint t.point t'.point)
    (hback : ∀ loop value, a = .next (some loop) → (t.vars loop.name).number? = .ok value →
      t.turnsBack loop value → Option.Rel TidyPoint (Point.behind? loop.number lines)
        (Point.behind? loop.number (lines.map ActionLine.tidy)))
    (hbranch : ∀ condition thenBody elseBody, a ≠ .branch condition thenBody elseBody) :
    a.Corresponds id TidyPoint lines (lines.map ActionLine.tidy) t t' a := by
  cases a with
  | call name args => exact .call name args (hpoint rfl)
  | «end» => exact .end
  | «for» loop start limit step => exact .for loop start limit step (hpoint rfl)
  | gosub n => exact .gosub n (hpoint rfl) (rel_at?_tidy n lines)
  | goto n => exact .goto n (rel_at?_tidy n lines)
  | branch condition thenBody elseBody => exact absurd rfl (hbranch condition thenBody elseBody)
  | assign name e => exact .assign name e (hpoint rfl)
  | next loop =>
      cases loop with
      | none => exact .open
      | some loop => exact .next loop (hpoint rfl) fun value => hback loop value rfl
  | rem => exact .rem (hpoint rfl)
  | «return» => exact .return

/-- If the NEXT that a run comes to goes back to a FOR, then to one that tidying
leaves alone. -/
def Moment.TurnsIntact (lines : List (ActionLine R)) (t : Moment R) : Prop :=
  ∀ loop rest value, t.point.rest = .next (some loop) :: rest →
    (t.vars loop.name).number? = .ok value → t.turnsBack loop value →
    loop.number ∈ forsAll (lines.flatMap ActionLine.actions) →
    ∃ line ∈ lines, IntactAll loop.number false line.actions

/-- The round that follows in a program and the tidied program. -/
abbrev TidyRound (natives : Natives R W) (depth : Option Nat) (lines : List (ActionLine R)) :=
  Process.Round (interpretation natives depth lines)
    (interpretation natives depth (lines.map ActionLine.tidy))
    (Together (Moment.Related id TidyPoint)) fun s _ => weightAll s.1.point.rest

section

variable {t t' : Moment R} {a : Action R} {rest : List (Action R)} {later : List (ActionLine R)}

theorem tidyRound_of_pure {u : Moment R} (hnext : t.next natives depth lines = (pure u : Effect W _))
    (h : Moment.Related id TidyPoint u t')
    (hlt : weightAll u.point.rest < weightAll t.point.rest) (w : W) :
    TidyRound natives depth lines (t, w) (t', w) := by
  have hrel : Together (Moment.Related id TidyPoint) (u, w) (t', w) := ⟨rfl, h⟩
  refine .stay (.of_step ?_) (.refl _ _) hrel hlt
  simp only [interpretation, hnext]
  rfl

theorem tidyRound_of_corresponds {a' : Action R} {rest' : List (Action R)}
    {later' : List (ActionLine R)} (hagrees : t.Agrees id TidyPoint t')
    (hpoint : t.point = ⟨a :: rest, later⟩) (hpoint' : t'.point = ⟨a' :: rest', later'⟩)
    (h : a.Corresponds id TidyPoint lines (lines.map ActionLine.tidy)
      { t with point := ⟨rest, later⟩ } { t' with point := ⟨rest', later'⟩ } a') (w : W) :
    TidyRound natives depth lines (t, w) (t', w) := by
  refine round_of_alike ?_ _ w
  rw [Moment.next, Moment.next, hpoint, hpoint']
  exact h.alike natives depth Function.injective_id
    ⟨hagrees.vars_eq, hagrees.limits_eq, hagrees.steps_eq, hagrees.returns⟩

theorem next_assign_self {name : String} {e : Expr R} (he : e.isVar name)
    (hpoint : t.point = ⟨.assign name e :: rest, later⟩) (htyped : t.Typed) :
    t.next natives depth lines = (pure { t with point := ⟨rest, later⟩ } : Effect W _) := by
  cases e with
  | var _ name' =>
      obtain rfl : name = name' := beq_iff_eq.mp he
      have hassign : Moment.assign name (t.vars name) { t with point := ⟨rest, later⟩ } =
          (pure { t with point := ⟨rest, later⟩ } : Effect W (Moment R)) := by
        rw [Moment.assign, if_pos (htyped name), Function.update_eq_self]
      rw [Moment.next, hpoint]
      exact hassign
  | _ => cases he

/-- An IF whose literal decides comes to the body that tidying has left. -/
theorem tidyRound_of_branch? {condition : Expr R} {thenBody elseBody : List (Action R)}
    {holds : Bool} (hagrees : t.Agrees id TidyPoint t')
    (hpoint : t.point = ⟨.branch condition thenBody elseBody :: rest, later⟩)
    (hbranch : condition.branch? = some holds)
    (h : TidyPoint ⟨(if holds then thenBody else elseBody) ++ rest, later⟩ t'.point) (w : W) :
    TidyRound natives depth lines (t, w) (t', w) := by
  refine tidyRound_of_pure ?_ (hagrees.goTo h) ?_ w
  · cases condition with
    | number _ n =>
        obtain rfl := Option.some.inj hbranch
        rw [Moment.next, hpoint]
        rfl
    | _ => cases hbranch
  · rw [hpoint]
    exact weightAll_body_lt condition thenBody elseBody rest holds

end

/-- A program and the tidied program come to related places again, or end in
the same way. -/
theorem tidyRound (hnodup : (forsAll (lines.flatMap ActionLine.actions)).Nodup)
    {t t' : Moment R} (h : Moment.Related id TidyPoint t t') (htyped : t.Typed)
    (hintact : t.TurnsIntact lines) (w : W) : TidyRound natives depth lines (t, w) (t', w) := by
  obtain ⟨⟨hrest, hlines⟩, hagrees⟩ := h
  rcases hpoint : t.point with ⟨rest, later⟩
  rcases hpoint' : t'.point with ⟨rest', later'⟩
  rw [hpoint, hpoint'] at hrest hlines
  dsimp only at hrest hlines
  subst hlines
  cases rest with
  | nil =>
      cases hrest
      refine round_of_alike ?_ _ w
      rw [Moment.next, Moment.next, hpoint, hpoint']
      cases later with
      | nil => exact .stop _
      | cons line later => exact .pure (hagrees.goTo ⟨.of_line line.actions, rfl⟩)
  | cons a rest =>
      obtain ⟨tail', rfl, htail⟩ := hrest.of_cons
      have hkept (hbranch : ∀ condition thenBody elseBody, a ≠ .branch condition thenBody elseBody)
          (htidy : a.tidy = [a]) : TidyRound natives depth lines (t, w) (t', w) := by
        rw [htidy] at hpoint' htail
        refine tidyRound_of_corresponds hagrees hpoint hpoint'
          (corresponds_tidy (fun ha => ⟨htail ?_, rfl⟩) ?_ hbranch) w
        · rw [List.any_cons, ha]
          rfl
        · rintro loop value rfl hvalue hback
          rw [Moment.TurnsIntact, hpoint] at hintact
          exact rel_behind?_tidy hnodup (hintact loop rest value rfl hvalue hback)
      have hdropped {u : Moment R} (hnext : t.next natives depth lines = (pure u : Effect W _))
          (htidy : a.tidy = []) (hu : u = { t with point := ⟨rest, later⟩ }) :
          TidyRound natives depth lines (t, w) (t', w) := by
        subst hu
        rw [htidy] at hpoint' htail
        refine tidyRound_of_pure hnext ⟨?_, hagrees.vars_eq, hagrees.limits_eq, hagrees.steps_eq,
          hagrees.returns⟩ ?_ w
        · rw [hpoint']
          exact ⟨htail rfl, rfl⟩
        · rw [hpoint]
          exact Nat.lt_add_of_pos_left a.weight_pos
      cases a with
      | branch condition thenBody elseBody =>
          rcases tidy_branch condition thenBody elseBody with htidy | ⟨-, holds, hbranch, htidy⟩
          · rw [htidy] at hpoint' htail
            refine tidyRound_of_corresponds hagrees hpoint hpoint' (.branch condition ?_ ?_) w
            · exact ⟨.append thenBody fun _ => htail rfl, rfl⟩
            · exact ⟨.append elseBody fun _ => htail rfl, rfl⟩
          · rw [htidy] at hpoint' htail
            refine tidyRound_of_branch? hagrees hpoint hbranch ?_ w
            rw [hpoint']
            exact ⟨.append _ htail, rfl⟩
      | assign name e =>
          by_cases hvar : e.isVar name
          · refine hdropped (next_assign_self hvar hpoint htyped) ?_ rfl
            rw [tidy, if_pos hvar]
          · refine hkept (fun _ _ _ h => by cases h) ?_
            rw [tidy, if_neg hvar]
      | rem => exact hdropped (by rw [Moment.next, hpoint]; rfl) rfl rfl
      | call _ _ => exact hkept (fun _ _ _ h => by cases h) rfl
      | _ => exact hkept (fun _ _ _ h => by cases h) rfl

/-- No NEXT of a run goes back to a FOR behind which tidying has dropped
something that control comes to from there. -/
def Moment.RunsIntact (natives : Natives R W) (depth : Option Nat)
    (lines : List (ActionLine R)) (w : W) : Prop :=
  ∀ t w', (interpretation natives depth lines).Reaches (Moment.start lines, w) (t, w') →
    t.TurnsIntact lines

/-- A tidied program runs in the same way. -/
theorem same_tidy (hnodup : (forsAll (lines.flatMap ActionLine.actions)).Nodup) {w : W}
    (hintact : Moment.RunsIntact natives.noting depth lines (w, [])) :
    Process.Same (interpretation natives.noting depth lines) notedCalls
      (Moment.start lines, (w, []))
      (interpretation natives.noting depth (lines.map ActionLine.tidy)) notedCalls
      (Moment.start (lines.map ActionLine.tidy), (w, [])) := by
  refine Process.Same.symm ?_
  refine Process.Same.of_rounds
    (fun s' s => Together (Moment.Related id TidyPoint) s s' ∧
      (interpretation natives.noting depth lines).Reaches (Moment.start lines, (w, [])) s)
    (fun _ s => weightAll s.1.point.rest) (interpretation_grows _ _ _) (interpretation_grows _ _ _)
    (fun s' s h => (congrArg Prod.snd h.1.1).symm) (fun _ => rfl) ?_ ⟨⟨rfl, ?_⟩, .refl _ _⟩
  · rintro ⟨t', w'⟩ ⟨t, w''⟩ ⟨⟨hw, hrelated⟩, hreach⟩
    obtain rfl : w'' = w' := hw
    have hround : TidyRound natives.noting depth lines (t, w'') (t', w'') :=
      tidyRound hnodup hrelated (Moment.typed_of_reaches hreach) (hintact t w'' hreach) w''
    exact hround.symm.of_reaches hreach
  · exact ⟨⟨.nil, rfl⟩, rfl, fun _ => rfl, fun _ => rfl, .nil⟩

end LineBasic
