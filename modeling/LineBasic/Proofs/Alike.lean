import Mathlib.Data.List.Forall2
import Mathlib.Data.Option.Basic
import LineBasic.Proofs.Calls

/-!
Runs of two programs that do alike. Effects are alike if they do the same to the world, and end in the same way or have
related results. Moments are related if their places are, and they agree in everything else up to the numbers of loops; then
actions that correspond are performed alike.
-/

namespace LineBasic

variable {R W : Type}

namespace Effect

variable {α β γ δ : Type}

/-- Effects that ended in the same way, or have related results. -/
inductive Ends (rel : α → β → Prop) : Except Verdict α × W → Except Verdict β × W → Prop where
  | ok {a : α} {b : β} {w : W} : rel a b → Ends rel (.ok a, w) (.ok b, w)
  | error {v : Verdict} {w : W} : Ends rel (.error v, w) (.error v, w)

/-- Two effects do the same to every world, and end in the same way or have
related results. -/
def Alike (rel : α → β → Prop) (x : Effect W α) (y : Effect W β) : Prop :=
  ∀ w, Ends rel (x w) (y w)

namespace Alike

variable {rel : α → β → Prop} {rel' : γ → δ → Prop}

theorem pure {a : α} {b : β} (h : rel a b) :
    Alike rel (Pure.pure a : Effect W α) (Pure.pure b) :=
  fun _ => .ok h

theorem stop (v : Verdict) : Alike rel (Effect.stop v : Effect W α) (Effect.stop v) :=
  fun _ => .error

theorem refl (x : Effect W α) : Alike Eq x x := by
  intro w
  rcases x w with ⟨_ | a, w'⟩
  · exact .error
  · exact .ok rfl

theorem bind {x : Effect W α} {y : Effect W β} (hxy : Alike rel x y) {f : α → Effect W γ}
    {g : β → Effect W δ} (hfg : ∀ a b, rel a b → Alike rel' (f a) (g b)) :
    Alike rel' (x >>= f) (y >>= g) := by
  intro w
  have h := hxy w
  rw [bind_apply, bind_apply]
  rcases hx : x w with ⟨_ | a, w₁⟩ <;> rcases hy : y w with ⟨_ | b, w₂⟩ <;> rw [hx, hy] at h
  · cases h
    exact .error
  · cases h
  · cases h
  · cases h with
    | ok hrel => exact hfg a b hrel w₁

theorem bind_same (x : Effect W α) {f : α → Effect W γ} {g : α → Effect W δ}
    (hfg : ∀ a, Alike rel' (f a) (g a)) : Alike rel' (x >>= f) (x >>= g) :=
  (refl x).bind fun a b hab => by
    cases hab
    exact hfg a

end Alike

end Effect

def Loop.renumber (ρ : Nat → Nat) (loop : Loop) : Loop :=
  { loop with number := ρ loop.number }

namespace Moment

/-- Moments agree up to their places and the numbers of loops. -/
structure Agrees (ρ : Nat → Nat) (rel : Point R → Point R → Prop) (t t' : Moment R) : Prop where
  vars_eq : t'.vars = t.vars
  limits_eq : ∀ k, t'.limits (ρ k) = t.limits k
  steps_eq : ∀ k, t'.steps (ρ k) = t.steps k
  returns : List.Forall₂ rel t.returns t'.returns

def Related (ρ : Nat → Nat) (rel : Point R → Point R → Prop) (t t' : Moment R) : Prop :=
  rel t.point t'.point ∧ t.Agrees ρ rel t'

/-- A NEXT of the loop goes back when it finds the given value in the variable. -/
def turnsBack [NumberSystem R] (t : Moment R) (loop : Loop) (value : R) : Bool :=
  if NumberSystem.atLeastZero (t.steps loop.number) then
    NumberSystem.atMost (NumberSystem.add value (t.steps loop.number)) (t.limits loop.number)
  else
    NumberSystem.atMost (t.limits loop.number) (NumberSystem.add value (t.steps loop.number))

end Moment

section

variable {ρ : Nat → Nat} {rel : Point R → Point R → Prop} {t t' : Moment R}

namespace Moment.Agrees

theorem goTo (h : t.Agrees ρ rel t') {point point' : Point R} (hpoint : rel point point') :
    Related ρ rel { t with point } { t' with point := point' } :=
  ⟨hpoint, h.vars_eq, h.limits_eq, h.steps_eq, h.returns⟩

theorem setVar (h : t.Agrees ρ rel t') (name : String) (v : Value R) :
    Agrees ρ rel { t with vars := Function.update t.vars name v }
      { t' with vars := Function.update t'.vars name v } :=
  ⟨congrArg (Function.update · name v) h.vars_eq, h.limits_eq, h.steps_eq, h.returns⟩

theorem setLoop (hρ : Function.Injective ρ) (h : t.Agrees ρ rel t') (k : Nat) (limit step : R) :
    Agrees ρ rel
      { t with
        limits := Function.update t.limits k limit
        steps := Function.update t.steps k step }
      { t' with
        limits := Function.update t'.limits (ρ k) limit
        steps := Function.update t'.steps (ρ k) step } := by
  refine ⟨h.vars_eq, fun j => ?_, fun j => ?_, h.returns⟩
  · simp only [Function.update_apply, hρ.eq_iff, h.limits_eq]
  · simp only [Function.update_apply, hρ.eq_iff, h.steps_eq]

theorem length_returns (h : t.Agrees ρ rel t') : t'.returns.length = t.returns.length :=
  h.returns.length_eq.symm

theorem alike_goTo (h : t.Agrees ρ rel t') {point point' : Option (Point R)}
    (hpoint : Option.Rel rel point point') (otherwise : ErrorCode) :
    Effect.Alike (Related ρ rel) (t.goTo point otherwise : Effect W (Moment R))
      (t'.goTo point' otherwise) := by
  cases hpoint with
  | some hpoint => exact .pure (h.goTo hpoint)
  | none => exact .stop _

theorem alike_assign (h : t.Agrees ρ rel t') (hpoint : rel t.point t'.point) (name : String)
    (v : Value R) :
    Effect.Alike (Related ρ rel) (t.assign name v : Effect W (Moment R)) (t'.assign name v) := by
  unfold assign
  split
  · exact .pure ⟨hpoint, h.setVar name v⟩
  · exact .stop _

theorem alike_remember (h : t.Agrees ρ rel t') (hpoint : rel t.point t'.point)
    (depth : Option Nat) :
    Effect.Alike (Related ρ rel) (t.remember depth : Effect W (Moment R))
      (t'.remember depth) := by
  unfold remember
  rw [h.length_returns]
  split
  · exact .pure ⟨hpoint, h.vars_eq, h.limits_eq, h.steps_eq, .cons hpoint h.returns⟩
  · exact .stop _

theorem alike_turn [NumberSystem R] (h : t.Agrees ρ rel t') (hpoint : rel t.point t'.point)
    {lines lines' : List (ActionLine R)} {loop : Loop} {value : R}
    (hback : t.turnsBack loop value → Option.Rel rel (Point.behind? loop.number lines)
      (Point.behind? (ρ loop.number) lines')) :
    Effect.Alike (Related ρ rel) (t.turn lines loop value : Effect W (Moment R))
      (t'.turn lines' (loop.renumber ρ) value) := by
  have hmoment := h.setVar loop.name (.number (NumberSystem.add value (t.steps loop.number)))
  have hturn (more : Bool) (hmore : more → Option.Rel rel (Point.behind? loop.number lines)
      (Point.behind? (ρ loop.number) lines')) {u u' : Moment R} (hu : u.Agrees ρ rel u')
      (hupoint : rel u.point u'.point) :
      Effect.Alike (Related ρ rel)
        (if more then u.goTo (Point.behind? loop.number lines) .nextWithoutFor
          else pure u : Effect W (Moment R))
        (if more then u'.goTo (Point.behind? (ρ loop.number) lines') .nextWithoutFor
          else pure u') := by
    cases more with
    | true => exact hu.alike_goTo (hmore rfl) _
    | false => exact .pure ⟨hupoint, hu⟩
  unfold turn
  simp only [Loop.renumber, h.limits_eq, h.steps_eq]
  exact hturn _ hback hmoment hpoint

end Moment.Agrees

variable [NumberSystem R]

/-- Actions that correspond, in moments whose places are behind them: they are
the same up to the numbers of loops, and the places that they lead to are
related. -/
inductive Action.Corresponds (ρ : Nat → Nat) (rel : Point R → Point R → Prop)
    (lines lines' : List (ActionLine R)) (t t' : Moment R) : Action R → Action R → Prop where
  | call (name : String) (args : List (Expr R)) : rel t.point t'.point →
      Corresponds ρ rel lines lines' t t' (.call name args) (.call name args)
  | end : Corresponds ρ rel lines lines' t t' .end .end
  | for (loop : Loop) (start limit : Expr R) (step : Option (Expr R)) : rel t.point t'.point →
      Corresponds ρ rel lines lines' t t' (.for loop start limit step)
        (.for (loop.renumber ρ) start limit step)
  | gosub (line : LineNumber) : rel t.point t'.point →
      Option.Rel rel (Point.at? line lines) (Point.at? line lines') →
      Corresponds ρ rel lines lines' t t' (.gosub line) (.gosub line)
  | goto (line : LineNumber) : Option.Rel rel (Point.at? line lines) (Point.at? line lines') →
      Corresponds ρ rel lines lines' t t' (.goto line) (.goto line)
  | branch (condition : Expr R) {thenBody elseBody thenBody' elseBody' : List (Action R)} :
      rel ⟨thenBody ++ t.point.rest, t.point.lines⟩
        ⟨thenBody' ++ t'.point.rest, t'.point.lines⟩ →
      rel ⟨elseBody ++ t.point.rest, t.point.lines⟩
        ⟨elseBody' ++ t'.point.rest, t'.point.lines⟩ →
      Corresponds ρ rel lines lines' t t' (.branch condition thenBody elseBody)
        (.branch condition thenBody' elseBody')
  | assign (name : String) (e : Expr R) : rel t.point t'.point →
      Corresponds ρ rel lines lines' t t' (.assign name e) (.assign name e)
  | next (loop : Loop) : rel t.point t'.point →
      (∀ value, (t.vars loop.name).number? = .ok value → t.turnsBack loop value →
        Option.Rel rel (Point.behind? loop.number lines)
          (Point.behind? (ρ loop.number) lines')) →
      Corresponds ρ rel lines lines' t t' (.next (some loop)) (.next (some (loop.renumber ρ)))
  | open : Corresponds ρ rel lines lines' t t' (.next none) (.next none)
  | rem : rel t.point t'.point → Corresponds ρ rel lines lines' t t' .rem .rem
  | return : Corresponds ρ rel lines lines' t t' .return .return

variable {lines lines' : List (ActionLine R)} (natives : Natives R W) (depth : Option Nat)

/-- Actions that correspond are performed alike. -/
theorem Action.Corresponds.alike (hρ : Function.Injective ρ) {a a' : Action R}
    (ha : a.Corresponds ρ rel lines lines' t t' a') (h : t.Agrees ρ rel t') :
    Effect.Alike (Moment.Related ρ rel) (a.perform natives depth lines t)
      (a'.perform natives depth lines' t') := by
  cases ha with
  | call name args hpoint =>
      simp only [perform, h.vars_eq]
      exact .bind_same _ fun _ => .bind_same _ fun _ => .pure ⟨hpoint, h⟩
  | «end» => exact .stop _
  | «for» loop start limit step hpoint =>
      simp only [perform, h.vars_eq]
      refine .bind_same _ fun v => (h.alike_assign hpoint loop.name v).bind fun u u' hu => ?_
      rw [hu.2.vars_eq]
      refine .bind_same _ fun limitValue => .bind_same _ fun limitNumber =>
        .bind_same _ fun stepValue => .bind_same _ fun stepNumber => .pure ?_
      obtain ⟨-, hlimits, hsteps, hreturns⟩ := hu.2.setLoop hρ loop.number limitNumber stepNumber
      exact ⟨hu.1, rfl, hlimits, hsteps, hreturns⟩
  | gosub line hpoint hline =>
      exact (h.alike_remember hpoint depth).bind fun u u' hu => hu.2.alike_goTo hline _
  | goto line hline => exact h.alike_goTo hline _
  | @branch condition thenBody elseBody thenBody' elseBody' hthen helse =>
      have hbody (holds : Bool) : rel
          ⟨(if holds then thenBody else elseBody) ++ t.point.rest, t.point.lines⟩
          ⟨(if holds then thenBody' else elseBody') ++ t'.point.rest, t'.point.lines⟩ := by
        cases holds with
        | true => exact hthen
        | false => exact helse
      simp only [perform, h.vars_eq]
      exact .bind_same _ fun v => .bind_same _ fun holds =>
        .pure ⟨hbody holds, rfl, h.limits_eq, h.steps_eq, h.returns⟩
  | assign name e hpoint =>
      simp only [perform, h.vars_eq]
      exact .bind_same _ fun v => h.alike_assign hpoint name v
  | next loop hpoint hback =>
      have hname : (loop.renumber ρ).name = loop.name := rfl
      simp only [perform, h.vars_eq, hname]
      cases hvalue : (t.vars loop.name).number? with
      | error e => exact .stop _
      | ok value => exact h.alike_turn hpoint (hback value hvalue)
  | «open» => exact .stop _
  | rem hpoint => exact .pure ⟨hpoint, h⟩
  | «return» =>
      have hreturns := h.returns
      unfold perform
      cases hcases : t.returns with
      | nil =>
          rw [hcases, List.forall₂_nil_left_iff] at hreturns
          rw [hreturns]
          exact .stop _
      | cons point points =>
          rw [hcases] at hreturns
          obtain ⟨point', points', hpoint, hpoints, heq⟩ :=
            List.forall₂_cons_left_iff.mp hreturns
          rw [heq]
          exact .pure ⟨hpoint, h.vars_eq, h.limits_eq, h.steps_eq, hpoints⟩

end

variable [NumberSystem R] {natives : Natives R W} {depth : Option Nat}
  {lines lines' : List (ActionLine R)} {rel : Moment R → Moment R → Prop}

/-- States of runs in the same world, whose moments are related. -/
def Together (rel : Moment R → Moment R → Prop) (s s' : Moment R × W) : Prop :=
  s.2 = s'.2 ∧ rel s.1 s'.1

theorem step_of_next_ok {t u : Moment R} {w w' : W}
    (h : t.next natives depth lines w = (.ok u, w')) :
    (interpretation natives depth lines).step (t, w) = .inl (u, w') := by
  simp only [interpretation, h]

theorem step_of_next_error {t : Moment R} {v : Verdict} {w w' : W}
    (h : t.next natives depth lines w = (.error v, w')) :
    (interpretation natives depth lines).step (t, w) = .inr (v, w') := by
  simp only [interpretation, h]

/-- Where the next steps are alike, both runs come to related moments, or end in
the same way. -/
theorem round_of_alike {t t' : Moment R}
    (h : Effect.Alike rel (t.next natives depth lines) (t'.next natives depth lines'))
    (measure : Moment R × W → Moment R × W → Nat) (w : W) :
    Process.Round (interpretation natives depth lines) (interpretation natives depth lines')
      (Together rel) measure (t, w) (t', w) := by
  have hnext := h w
  rcases hresult : t.next natives depth lines w with ⟨v | u, w₁⟩ <;>
    rcases hresult' : t'.next natives depth lines' w with ⟨v' | u', w₂⟩ <;>
    rw [hresult, hresult'] at hnext
  · cases hnext
    exact .close (.of_step (step_of_next_error hresult)) (.of_step (step_of_next_error hresult'))
  · cases hnext
  · cases hnext
  · cases hnext with
    | ok hrel =>
        exact .pass (.of_step (step_of_next_ok hresult)) (.of_step (step_of_next_ok hresult'))
          ⟨rfl, hrel⟩

/-- Runs whose steps are all alike do the same. -/
theorem same_of_alike (hstart : rel (Moment.start lines) (Moment.start lines'))
    (hnext : ∀ t t', rel t t' → Effect.Alike rel (t.next natives.noting depth lines)
      (t'.next natives.noting depth lines')) (w : W) :
    Process.Same (interpretation natives.noting depth lines) notedCalls
      (Moment.start lines, (w, []))
      (interpretation natives.noting depth lines') notedCalls
      (Moment.start lines', (w, [])) := by
  refine Process.Same.of_rounds (Together rel) (fun _ _ => 0) (interpretation_grows _ _ _)
    (interpretation_grows _ _ _) (fun s s' h => congrArg Prod.snd h.1) (fun _ => rfl) ?_
    ⟨rfl, hstart⟩
  rintro ⟨t, w⟩ ⟨t', w'⟩ ⟨hw, hrel⟩
  obtain rfl : w = w' := hw
  exact round_of_alike (hnext t t' hrel) _ w

end LineBasic
