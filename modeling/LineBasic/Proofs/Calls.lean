import LineBasic.Proofs.Meaning

namespace LineBasic

variable {R W : Type} [NumberSystem R]

def Natives.noting (natives : Natives R W) : Natives R (Noted R W) :=
  fun name => (natives name).map (Native.noting name)

def Machine.native? (m : Machine R W) : Natives R W :=
  fun name => m.natives[name]?

omit [NumberSystem R] in
theorem Machine.native?_noting (m : Machine R W) : m.noting.native? = m.native?.noting :=
  funext m.natives_noting

def Effect.Adds {α : Type} (x : Effect (Noted R W) α) : Prop :=
  ∀ w, w.2 <+: (x w).2.2

namespace Effect.Adds

variable {α β : Type}

omit [NumberSystem R]

theorem pure (a : α) : (Pure.pure a : Effect (Noted R W) α).Adds :=
  fun _ => List.prefix_rfl

theorem stop (v : Verdict) : (Effect.stop v : Effect (Noted R W) α).Adds :=
  fun _ => List.prefix_rfl

theorem ofExcept (x : Except Error α) : (Effect.ofExcept x : Effect (Noted R W) α).Adds := by
  cases x with
  | ok a => exact pure a
  | error e => exact stop _

theorem bind {x : Effect (Noted R W) α} {f : α → Effect (Noted R W) β} (hx : x.Adds)
    (hf : ∀ a, (f a).Adds) : (x >>= f).Adds := by
  intro w
  have hx := hx w
  rw [Effect.bind_apply]
  rcases hxw : x w with ⟨_ | a, w'⟩ <;> rw [hxw] at hx
  · exact hx
  · exact hx.trans (hf a w')

theorem callEffect (natives : Natives R W) (name : String) (args : List (Value R)) :
    (LineBasic.callEffect natives.noting name args).Adds := by
  intro w
  rw [LineBasic.callEffect, Natives.noting]
  cases natives name with
  | none => exact List.prefix_rfl
  | some native =>
      simp only [Option.map_some, Native.noting]
      rcases native args w.1 with ⟨answer, world⟩
      cases answer <;> exact List.prefix_append _ _

end Effect.Adds

namespace Expr

variable (natives : Natives R W) (vars : Vars R)

mutual

theorem value_adds : ∀ e : Expr R, (e.value natives.noting vars).Adds
  | number _ _ | string _ _ | char _ _ | var _ _ => .pure _
  | call _ name args =>
      (valueAll_adds args).bind fun args => .callEffect natives name args
  | unary op _ e => (value_adds e).bind fun x => .ofExcept (op.apply x)
  | binary op _ l r =>
      (value_adds l).bind fun x => (value_adds r).bind fun y => .ofExcept (op.apply x y)

theorem valueAll_adds : ∀ es : List (Expr R), (valueAll natives.noting vars es).Adds
  | [] => .pure _
  | e :: es => (value_adds e).bind fun _ => (valueAll_adds es).bind fun _ => .pure _

end

end Expr

section

variable (natives : Natives R W) (depth : Option Nat) (lines : List (ActionLine R))
  (t : Moment R)

omit [NumberSystem R] in
theorem Moment.assign_adds (name : String) (v : Value R) :
    (t.assign name v : Effect (Noted R W) (Moment R)).Adds := by
  unfold assign
  split
  · exact .pure _
  · exact .stop _

omit [NumberSystem R] in
theorem Moment.goTo_adds (point : Option (Point R)) (otherwise : ErrorCode) :
    (t.goTo point otherwise : Effect (Noted R W) (Moment R)).Adds := by
  cases point with
  | some point => exact .pure _
  | none => exact .stop _

omit [NumberSystem R] in
theorem Moment.remember_adds : (t.remember depth : Effect (Noted R W) (Moment R)).Adds := by
  unfold remember
  split
  · exact .pure _
  · exact .stop _

theorem Moment.turn_adds (loop : Loop) (value : R) :
    (t.turn lines loop value : Effect (Noted R W) (Moment R)).Adds := by
  have hif (more : Bool) (t : Moment R) :
      (if more then t.goTo (Point.behind? loop.number lines) .nextWithoutFor
        else Pure.pure t : Effect (Noted R W) (Moment R)).Adds := by
    cases more with
    | true => exact t.goTo_adds _ _
    | false => exact .pure t
  exact hif _ _

theorem Action.perform_adds (a : Action R) :
    (a.perform natives.noting depth lines t).Adds := by
  cases a with
  | call name args =>
      exact (Expr.valueAll_adds natives t.vars args).bind fun vs =>
        (Effect.Adds.callEffect natives name vs).bind fun _ => .pure t
  | «end» => exact .stop _
  | «for» loop start limit step =>
      have hstep : ∀ t : Moment R, (stepValue natives.noting t.vars step).Adds := fun t => by
        cases step with
        | some e => exact e.value_adds natives t.vars
        | none => exact .pure _
      exact (start.value_adds natives t.vars).bind fun v =>
        (t.assign_adds loop.name v).bind fun t =>
        (limit.value_adds natives t.vars).bind fun limit =>
        (Effect.Adds.ofExcept limit.number?).bind fun _ =>
        (hstep t).bind fun step => (Effect.Adds.ofExcept step.number?).bind fun _ => .pure _
  | gosub line =>
      exact (t.remember_adds depth).bind fun t => t.goTo_adds _ _
  | goto line => exact t.goTo_adds _ _
  | branch condition thenBody elseBody =>
      exact (condition.value_adds natives t.vars).bind fun v =>
        (Effect.Adds.ofExcept v.isTrue?).bind fun _ => .pure _
  | assign name e =>
      exact (e.value_adds natives t.vars).bind fun v => t.assign_adds name v
  | next loop =>
      cases loop with
      | none => exact .stop _
      | some loop =>
          exact (Effect.Adds.ofExcept _).bind fun value => t.turn_adds lines loop value
  | rem => exact .pure t
  | «return» =>
      rw [perform]
      cases t.returns with
      | nil => exact .stop _
      | cons point returns => exact .pure _

/-- A program only adds to the calls that were noted. -/
theorem interpretation_grows : (interpretation natives.noting depth lines).Grows notedCalls := by
  rintro ⟨t, w⟩
  have hnext : (t.next natives.noting depth lines).Adds := by
    unfold Moment.next
    split
    · exact .stop _
    · exact .pure _
    · exact Action.perform_adds natives depth lines _ _
  have h := hnext w
  unfold interpretation
  dsimp only
  split
  · rename_i heq
    rw [heq] at h
    exact h
  · rename_i heq
    rw [heq] at h
    exact h

end

end LineBasic
