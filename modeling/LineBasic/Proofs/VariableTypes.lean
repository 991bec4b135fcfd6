import LineBasic.Proofs.Meaning

namespace LineBasic

variable {R W : Type}

namespace Effect

variable {α β : Type}

/-- Whatever an effect comes to has the property. -/
def Ensures (p : α → Prop) (x : Effect W α) : Prop :=
  ∀ w a w', x w = (.ok a, w') → p a

namespace Ensures

variable {p : α → Prop} {q : β → Prop}

theorem pure {a : α} (h : p a) : Ensures p (Pure.pure a : Effect W α) := by
  intro w b w' heq
  cases heq
  exact h

theorem stop (v : Verdict) : Ensures p (Effect.stop v : Effect W α) := by
  intro w b w' heq
  cases heq

theorem bind {x : Effect W α} (hx : Ensures p x) {f : α → Effect W β}
    (hf : ∀ a, p a → Ensures q (f a)) : Ensures q (x >>= f) := by
  intro w b w' heq
  rw [bind_apply] at heq
  rcases hcases : x w with ⟨_ | a, w₁⟩ <;> rw [hcases] at heq
  · cases heq
  · exact hf a (hx w a w₁ hcases) w₁ b w' heq

/-- Whatever comes first, the rest ensures the property. -/
theorem behind (x : Effect W α) {f : α → Effect W β} (hf : ∀ a, Ensures q (f a)) :
    Ensures q (x >>= f) :=
  bind (p := fun _ => True) (fun _ _ _ _ => trivial) fun a _ => hf a

end Ensures

end Effect

namespace Moment

/-- Every variable has a value of the type that its name asks for. -/
def Typed (t : Moment R) : Prop :=
  ∀ name, (t.vars name).type = ValueType.ofName name

variable {t : Moment R}

theorem Typed.update (h : t.Typed) {name : String} {v : Value R}
    (hv : v.type = ValueType.ofName name) (name' : String) :
    (Function.update t.vars name v name').type = ValueType.ofName name' := by
  rw [Function.update_apply]
  split
  · rename_i heq
    rw [heq, hv]
  · exact h name'

theorem Typed.assign (h : t.Typed) (name : String) (v : Value R) :
    Effect.Ensures Typed (t.assign name v : Effect W (Moment R)) := by
  unfold Moment.assign
  split
  · exact .pure (h.update ‹_›)
  · exact .stop _

theorem Typed.goTo (h : t.Typed) (point : Option (Point R)) (otherwise : ErrorCode) :
    Effect.Ensures Typed (t.goTo point otherwise : Effect W (Moment R)) := by
  cases point with
  | none => exact .stop _
  | some point => exact .pure h

variable [NumberSystem R]

theorem typed_start (lines : List (ActionLine R)) : (start lines).Typed :=
  Value.type_default

theorem Typed.turn (h : t.Typed) (lines : List (ActionLine R)) {loop : Loop} {value : R}
    (hvalue : (t.vars loop.name).number? = .ok value) :
    Effect.Ensures Typed (t.turn lines loop value : Effect W (Moment R)) := by
  have htype := h loop.name
  have hmoment : ∀ n : R,
      Typed { t with vars := Function.update t.vars loop.name (.number n) } := by
    intro n
    cases hv : t.vars loop.name with
    | string s =>
        rw [hv] at hvalue
        cases hvalue
    | number m =>
        rw [hv] at htype
        exact h.update (v := .number n) htype
  unfold Moment.turn
  dsimp only
  generalize (if NumberSystem.atLeastZero (t.steps loop.number) then _ else _ : Bool) = more
  cases more with
  | true => exact (hmoment _).goTo _ _
  | false => exact .pure (hmoment _)

end Moment

variable [NumberSystem R]

theorem Action.ensures_typed (natives : Natives R W) (depth : Option Nat)
    (lines : List (ActionLine R)) {t : Moment R} (h : t.Typed) (a : Action R) :
    Effect.Ensures Moment.Typed (a.perform natives depth lines t) := by
  cases a with
  | call name args => exact .behind _ fun _ => .behind _ fun _ => .pure h
  | «end» => exact .stop _
  | «for» loop start limit step =>
      refine .behind _ fun v => (h.assign loop.name v).bind fun u hu => ?_
      exact .behind _ fun _ => .behind _ fun _ => .behind _ fun _ => .behind _ fun _ => .pure hu
  | gosub line =>
      refine Effect.Ensures.bind (p := Moment.Typed) ?_ fun u hu => hu.goTo _ _
      unfold Moment.remember
      split
      · exact .pure h
      · exact .stop _
  | goto line => exact h.goTo _ _
  | branch condition thenBody elseBody => exact .behind _ fun _ => .behind _ fun _ => .pure h
  | assign name e => exact .behind _ fun v => h.assign name v
  | next loop =>
      cases loop with
      | none => exact .stop _
      | some loop =>
          rw [perform]
          cases hvalue : (t.vars loop.name).number? with
          | error e => exact Effect.Ensures.bind (p := fun _ => False) (.stop _) fun _ h => h.elim
          | ok value => exact h.turn lines hvalue
  | rem => exact .pure h
  | «return» =>
      rw [perform]
      split
      · exact .stop _
      · exact .pure h

/-- A step keeps the types of the variables. -/
theorem Moment.Typed.next {t : Moment R} (h : t.Typed) (natives : Natives R W)
    (depth : Option Nat) (lines : List (ActionLine R)) :
    Effect.Ensures Typed (t.next natives depth lines) := by
  rcases t with ⟨⟨rest, later⟩, vars, limits, steps, returns⟩
  rw [Moment.next]
  rcases rest with _ | ⟨a, rest⟩
  · rcases later with _ | ⟨line, later⟩
    · exact .stop _
    · exact .pure h
  · have h' : Typed ⟨⟨rest, later⟩, vars, limits, steps, returns⟩ := h
    exact a.ensures_typed natives depth lines h'

theorem Moment.typed_of_reaches {natives : Natives R W} {depth : Option Nat}
    {lines : List (ActionLine R)} {w w' : W} {t : Moment R}
    (h : (interpretation natives depth lines).Reaches (Moment.start lines, w) (t, w')) :
    t.Typed := by
  suffices hinv : ∀ s u : Moment R × W, s.1.Typed →
      (interpretation natives depth lines).step s = .inl u → u.1.Typed from
    h.invariant hinv (typed_start lines)
  rintro ⟨t, w⟩ u htyped hstep
  have hnext := htyped.next natives depth lines w
  unfold interpretation at hstep
  dsimp only at hstep
  split at hstep
  · rename_i heq
    cases hstep
    exact hnext _ _ heq
  · cases hstep

end LineBasic
