import LineBasic.Value.Operation

namespace LineBasic

/-- A program can come to an error with this code only if it was not checked,
or if the machine is wrong. -/
def ErrorCode.isFault : ErrorCode → Bool
  | typeMismatch | internalError | undefinedFunction => true
  | _ => false

/-- The type of an operator's result on operands of the given types, if it takes
them. -/
def BinaryOp.resultType? (op : BinaryOp) (left right : ValueType) : Option ValueType :=
  match op with
  | add => if left = right then some left else none
  | equal | notEqual | less | lessEqual | greater | greaterEqual =>
      if left = right then some .number else none
  | _ => if left = .number ∧ right = .number then some .number else none

variable {R : Type} [NumberSystem R]

/-- A result has the given type, or is an error that a checked program may come
to, told by its code alone. -/
def Yields (type : ValueType) : Except Error (Value R) → Prop
  | .ok v => v.type = type
  | .error e => e.code.isFault = false ∧ e.text = ""

omit [NumberSystem R] in
theorem Value.exists_number {v : Value R} (h : v.type = .number) : ∃ n, v = .number n := by
  cases v with
  | number n => exact ⟨n, rfl⟩
  | string s => cases h

theorem yields_finite (n : R) : Yields .number (Value.finite n) := by
  unfold Value.finite
  split
  · rfl
  · exact ⟨rfl, rfl⟩

theorem yields_ofWord {x : Value R} (h : x.type = .number)
    {f : BitVec 32 → Except Error (Value R)} (hf : ∀ w, Yields .number (f w)) :
    Yields .number (x.word? >>= f) := by
  obtain ⟨n, rfl⟩ := Value.exists_number h
  cases hword : NumberSystem.toWord? n with
  | none => simp [Value.word?, Value.number?, hword, bind, Except.bind, Yields, ErrorCode.isFault]
  | some w =>
      have heq : (Value.number n).word? = .ok w := by
        simp [Value.word?, Value.number?, hword, bind, Except.bind]
      rw [heq]
      exact hf w

theorem UnaryOp.yields_apply (op : UnaryOp) {x : Value R} (h : x.type = .number) :
    Yields .number (op.apply x) := by
  cases op with
  | negate =>
      obtain ⟨n, rfl⟩ := Value.exists_number h
      rfl
  | not => exact yields_ofWord h fun w => rfl

theorem yields_compare {x y : Value R} (h : x.type = y.type)
    {f : Ordering → Except Error (Value R)} (hf : ∀ order, Yields .number (f order)) :
    Yields .number (x.compare? y >>= f) := by
  cases x with
  | number m =>
      obtain ⟨n, rfl⟩ := Value.exists_number h.symm
      rw [Value.compare?]
      cases NumberSystem.compare? m n with
      | none => exact ⟨rfl, rfl⟩
      | some order => exact hf order
  | string s =>
      cases y with
      | number n => cases h
      | string t => exact hf _

theorem yields_power (m n : R) : Yields .number ((Value.number m).power (.number n)) := by
  simp only [Value.power, Value.number?, bind, Except.bind]
  split
  · exact ⟨rfl, rfl⟩
  · split
    · exact ⟨rfl, rfl⟩
    · exact yields_finite _

theorem yields_divide (m n : R) : Yields .number ((Value.number m).divide (.number n)) := by
  simp only [Value.divide, Value.number?, bind, Except.bind]
  split
  · exact ⟨rfl, rfl⟩
  · exact yields_finite _

theorem yields_modulus (m n : R) : Yields .number ((Value.number m).modulus (.number n)) := by
  refine yields_ofWord rfl fun v => yields_ofWord rfl fun w => ?_
  split
  · exact ⟨rfl, rfl⟩
  · split
    · exact ⟨rfl, rfl⟩
    · rfl

omit [NumberSystem R] in
theorem exists_numbers {x y : Value R} {type : ValueType}
    (h : (if x.type = .number ∧ y.type = .number then some ValueType.number else none) =
      some type) : type = .number ∧ ∃ m n, x = .number m ∧ y = .number n := by
  obtain ⟨⟨hx, hy⟩, htype⟩ := Option.ite_none_right_eq_some.mp h
  obtain ⟨m, rfl⟩ := Value.exists_number hx
  obtain ⟨n, rfl⟩ := Value.exists_number hy
  exact ⟨(Option.some.inj htype).symm, m, n, rfl, rfl⟩

/-- An operator yields its type on operands that it takes. -/
theorem BinaryOp.yields_apply {op : BinaryOp} {x y : Value R} {type : ValueType}
    (h : op.resultType? x.type y.type = some type) : Yields type (op.apply x y) := by
  cases op with
  | equal | notEqual | less | lessEqual | greater | greaterEqual =>
      obtain ⟨heq, htype⟩ := Option.ite_none_right_eq_some.mp h
      cases htype
      exact yields_compare heq fun order => rfl
  | add =>
      obtain ⟨heq, htype⟩ := Option.ite_none_right_eq_some.mp h
      cases htype
      cases x with
      | number m =>
          obtain ⟨n, rfl⟩ := Value.exists_number heq.symm
          exact yields_finite _
      | string s =>
          cases y with
          | number n => cases heq
          | string t => rfl
  | power =>
      obtain ⟨rfl, m, n, rfl, rfl⟩ := exists_numbers h
      exact yields_power m n
  | divide =>
      obtain ⟨rfl, m, n, rfl, rfl⟩ := exists_numbers h
      exact yields_divide m n
  | modulus =>
      obtain ⟨rfl, m, n, rfl, rfl⟩ := exists_numbers h
      exact yields_modulus m n
  | multiply | subtract =>
      obtain ⟨rfl, m, n, rfl, rfl⟩ := exists_numbers h
      exact yields_finite _
  | and | or =>
      obtain ⟨rfl, m, n, rfl, rfl⟩ := exists_numbers h
      exact yields_ofWord rfl fun v => yields_ofWord rfl fun w => rfl

end LineBasic
