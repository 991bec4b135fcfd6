import LineBasic.Proofs.Parentheses

namespace LineBasic

variable {R : Type} [NumberSystem R] {numeral : R → String}

theorem Expr.IsWritable.exists_of_leftParen {e : Expr R} (h : e.IsWritable numeral)
    (hparen : (e.tokens numeral).head? = some .leftParen) :
    ∃ (inner : Expr R) (op : BinaryOp) (rest : List Token), inner.IsWritable numeral ∧
      e.tokens numeral = .leftParen :: (inner.tokens numeral ++ .rightParen :: .operator op.sign :: rest) := by
  induction h with
  | number | string | var | call | unary => cases hparen
  | @binary op _ l r hl _ ih _ =>
      rw [tokens, Token.enclosed] at hparen ⊢
      split
      · refine ⟨l, op, r.operand numeral op.rightTightness, hl, ?_⟩
        rw [List.cons_append, List.append_assoc]
        rfl
      · rename_i hneed
        obtain ⟨token, rest, htokens, -⟩ := (Cursor.readsBack_of_isWritable hl).opens
        rw [if_neg hneed, htokens, List.cons_append, List.head?_cons] at hparen
        obtain ⟨inner, op', rest', hinner, hl'⟩ := ih (by rw [htokens, List.head?_cons, hparen])
        refine ⟨inner, op', rest' ++ .operator op.sign :: r.operand numeral op.rightTightness, hinner, ?_⟩
        rw [hl', List.cons_append, List.append_assoc]
        rfl

namespace Cursor

open Token

variable {args : List (Expr R)} {name : String} {c : Cursor} {behind : List (Column × Token)} {fuel : Nat}

/-- A statement may end at a place of a line: it is the end of the line, or a colon stands there. -/
def EndsStatement (place : List (Column × Token)) : Prop :=
  next? place = none ∨ next? place = some .colon

omit [NumberSystem R] in
theorem EndsStatement.endsAt (h : EndsStatement behind) (ts : List Token) : EndsAt 0 ts behind := by
  rcases h with hnone | hcolon
  · exact ⟨fun _ hsign => by simp [hnone] at hsign, fun _ _ => by simp [hnone]⟩
  · exact endsAt_of_ne hcolon (by simp) (by simp)

theorem gets_takeBareArguments (hne : args ≠ []) (h : ∀ e ∈ args, ReadsBack numeral e)
    (hspans : Spans (Expr.tokensAll numeral args) c.rest behind) (hend : EndsStatement behind)
    (hfuel : 2 * (Expr.tokensAll numeral args).length < fuel) :
    Gets (SameExprs args) behind (takeBareArguments fuel c) := by
  induction args generalizing c fuel with
  | nil => exact absurd rfl hne
  | cons e es ih =>
      obtain ⟨he, hes⟩ := List.forall_mem_cons.mp h
      obtain ⟨fuel, rfl⟩ := Nat.exists_eq_add_of_le' (show 1 ≤ fuel by omega)
      rw [takeBareArguments]
      cases es with
      | nil =>
          rw [Expr.tokensAll] at hspans hfuel
          refine (he.gets hspans (hend.endsAt _) (by omega)).bind ?_
          rintro ⟨e', c'⟩ ⟨he', rfl⟩
          have hcomma : c'.peek? ≠ some .comma := by
            intro hcomma
            rcases hend with hnone | hcolon
            · exact absurd (hnone.symm.trans hcomma) (by simp)
            · exact absurd (hcolon.symm.trans hcomma) (by simp)
          dsimp only
          rw [if_neg hcomma]
          exact ⟨.cons he' rfl, rfl⟩
      | cons e₂ es =>
          rw [Expr.tokensAll] at hspans
          rw [Expr.tokensAll, List.length_append, List.length_cons] at hfuel
          refine (he.gets_before hspans (by simp) (by simp) (by omega)).bind ?_
          rintro ⟨e', c'⟩ ⟨he', hcomma, hspans⟩
          dsimp only
          rw [if_pos hcomma]
          refine (ih (List.cons_ne_nil _ _) hes hspans (by omega)).bind fun r hr => ?_
          exact ⟨.cons he' hr.1, hr.2⟩

/-- The call of a native, up to columns. -/
def IsCall (name : String) (args : List (Expr R)) (s : Stmt R) : Prop :=
  s.bare id = .call {} name (Expr.bareAll args)

theorem takeStatement_of_name (hpeek : c.peek? = some (.name name))
    (hequal : c.skip.peek? ≠ some (.operator .equal)) :
    takeStatement (R := R) (fuel + 1) c = takeNativeCall fuel c.skip.column name c.skip := by
  rw [takeStatement]
  simp only [hpeek]
  exact if_neg hequal

theorem gets_call_of_leftParen (h : ∀ e ∈ args, ReadsBack numeral e)
    (hspans : Spans (.name name :: .leftParen :: (Expr.tokensAll numeral args ++ [.rightParen])) c.rest behind)
    (hfuel : 2 * (Expr.tokensAll numeral args).length + 3 ≤ fuel) :
    Gets (IsCall name args) behind (takeStatement fuel c) := by
  obtain ⟨fuel, rfl⟩ := Nat.exists_eq_add_of_le' (show 1 ≤ fuel by omega)
  obtain ⟨hpeek, hspans⟩ := of_spans_cons hspans
  have hopen : c.skip.peek? = some .leftParen := next?_of_spans hspans
  rw [takeStatement_of_name hpeek (by simp [hopen]), takeNativeCall, if_pos hopen]
  refine (gets_takeArguments h hspans (by omega)).bind fun r hr => ?_
  exact ⟨congrArg (Stmt.call {} name) hr.1, hr.2⟩

theorem gets_call_of_bare (hne : args ≠ []) (h : ∀ e ∈ args, ReadsBack numeral e)
    (hspans : Spans (.name name :: Expr.tokensAll numeral args) c.rest behind)
    (hend : EndsStatement behind) (hparen : (Expr.tokensAll numeral args).head? ≠ some .leftParen)
    (hfuel : 2 * (Expr.tokensAll numeral args).length + 2 ≤ fuel) :
    Gets (IsCall name args) behind (takeStatement fuel c) := by
  obtain ⟨fuel, rfl⟩ := Nat.exists_eq_add_of_le' (show 1 ≤ fuel by omega)
  obtain ⟨hpeek, hspans⟩ := of_spans_cons hspans
  obtain ⟨token, rest, htokens, hopens⟩ := tokensAll_opens hne h
  have hnext : c.skip.peek? = some token := by
    rw [htokens] at hspans
    exact next?_of_spans hspans
  rw [htokens, List.head?_cons] at hparen
  have hequal : c.skip.peek? ≠ some (.operator .equal) := by
    rw [hnext, ne_eq, Option.some.injEq]
    rintro rfl
    exact hopens
  have hmore : c.skip.atStatementEnd = false := by
    unfold atStatementEnd
    rw [hnext]
    split
    · rename_i heq
      cases heq
    · rename_i heq
      cases heq
      exact hopens.elim
    · rename_i heq
      cases heq
      exact hopens.elim
    · rfl
  rw [takeStatement_of_name hpeek hequal, takeNativeCall, if_neg (hnext ▸ hparen), hmore]
  refine (gets_takeBareArguments hne h hspans hend (by omega)).bind fun r hr => ?_
  exact ⟨congrArg (Stmt.call {} name) hr.1, hr.2⟩

/-- If the arguments start with a parenthesis and stand in none, then the call ends with what is in it, in front of an operator. -/
theorem gets_call_of_open (hne : args ≠ []) (h : ∀ e ∈ args, e.IsWritable numeral)
    (hspans : Spans (.name name :: Expr.tokensAll numeral args) c.rest behind)
    (hparen : (Expr.tokensAll numeral args).head? = some .leftParen)
    (hfuel : 2 * (Expr.tokensAll numeral args).length + 3 ≤ fuel) :
    ∃ (inner : Expr R) (op : BinaryOp) (middle : List (Column × Token)),
      next? middle = some (.operator op.sign) ∧
        Gets (IsCall name [inner]) middle (takeStatement fuel c) := by
  obtain ⟨e, es, rfl⟩ := List.exists_cons_of_ne_nil hne
  obtain ⟨he, -⟩ := List.forall_mem_cons.mp h
  obtain ⟨more, hargs⟩ : ∃ more, Expr.tokensAll numeral (e :: es) = e.tokens numeral ++ more := by
    cases es with
    | nil => exact ⟨[], (List.append_nil _).symm⟩
    | cons e₂ es => exact ⟨_, rfl⟩
  have hhead : (e.tokens numeral).head? = some .leftParen := by
    obtain ⟨token, rest, htokens, -⟩ := (readsBack_of_isWritable he).opens
    rw [hargs, htokens] at hparen
    rwa [htokens]
  obtain ⟨inner, op, rest, hinner, htokens⟩ := he.exists_of_leftParen hhead
  have hsplit : .name name :: Expr.tokensAll numeral (e :: es) =
      (.name name :: .leftParen :: (Expr.tokensAll numeral [inner] ++ [.rightParen])) ++
        .operator op.sign :: (rest ++ more) := by
    rw [hargs, htokens, Expr.tokensAll]
    simp
  rw [hsplit] at hspans
  obtain ⟨middle, hspans, hmore⟩ := exists_of_spans_append hspans
  refine ⟨inner, op, middle, next?_of_spans hmore, gets_call_of_leftParen ?_ hspans ?_⟩
  · exact List.forall_mem_singleton.mpr (readsBack_of_isWritable hinner)
  · have hlength := congrArg List.length hsplit
    simp only [List.length_cons, List.length_append] at hlength
    omega

theorem takeStatements_of_operator {s : Stmt R} {c' : Cursor} {sign : Operator}
    (hpeek : c.peek? = some (.name name)) (h : takeStatement fuel c = .ok (s, c'))
    (hsign : c'.peek? = some (.operator sign)) :
    takeStatements (R := R) (fuel + 1) c = c'.skip.fail "EXPECTED END OF STATEMENT" := by
  rw [takeStatements, hpeek]
  simp only [h, ok_bind, hsign]

/-- The reader of statements takes the call of a native with the given arguments, up to columns, and is at a place then. -/
def TakesCall (fuel : Nat) (c : Cursor) (name : String) (args : List (Expr R))
    (behind : List (Column × Token)) : Prop :=
  ∃ s c', takeStatement fuel c = .ok (s, c') ∧ s.bare id = .call {} name (Expr.bareAll args) ∧ c'.rest = behind

end Cursor

open Token Cursor

/-- A native's arguments, written with commas between them and with no more parentheses than each of them needs, may stand in
parentheses behind its name: up to the end of the statement they are read as the arguments of its call. Without parentheses
around them they are read so if and only if they do not start with a parenthesis; if they do, the line is refused. -/
theorem native_call_forms {args : List (Expr R)} (hne : args ≠ []) (h : ∀ e ∈ args, e.IsWritable numeral)
    {name : String} {behind : List (Column × Token)} (hend : EndsStatement behind) {c c' : Cursor}
    (hspans : Spans (.name name :: .leftParen :: (Expr.tokensAll numeral args ++ [.rightParen])) c.rest behind)
    (hbare : Spans (.name name :: Expr.tokensAll numeral args) c'.rest behind)
    {fuel : Nat} (hfuel : 2 * (Expr.tokensAll numeral args).length + 3 ≤ fuel) :
    TakesCall fuel c name args behind ∧
      (TakesCall fuel c' name args behind ↔ (Expr.tokensAll numeral args).head? ≠ some .leftParen) ∧
      ((Expr.tokensAll numeral args).head? = some .leftParen →
        ∃ column, takeStatements (R := R) (fuel + 1) c' =
          .error (ErrorCode.syntaxError.errorAt column "EXPECTED END OF STATEMENT")) := by
  have hargs : ∀ e ∈ args, ReadsBack numeral e := fun e he => readsBack_of_isWritable (h e he)
  refine ⟨(gets_call_of_leftParen hargs hspans hfuel).exists_ok, ⟨?_, fun hparen => ?_⟩, fun hparen => ?_⟩
  · rintro ⟨s, c₁, htaken, -, rfl⟩ hparen
    obtain ⟨inner, op, middle, hsign, hgets⟩ := gets_call_of_open hne h hbare hparen hfuel
    rw [htaken] at hgets
    obtain ⟨-, rfl⟩ := hgets
    rcases hend with hnone | hcolon
    · exact absurd (hnone.symm.trans hsign) (by simp)
    · exact absurd (hcolon.symm.trans hsign) (by simp)
  · exact (gets_call_of_bare hne hargs hbare hend hparen (by omega)).exists_ok
  · obtain ⟨inner, op, middle, hsign, hgets⟩ := gets_call_of_open hne h hbare hparen hfuel
    obtain ⟨s, c₁, htaken, -, rfl⟩ := hgets.exists_ok
    exact ⟨_, takeStatements_of_operator (of_spans_cons hbare).1 htaken hsign⟩

/-- Arguments that start with a sign and with a name, with parentheses further behind. -/
def signed : List (Expr Float) :=
  [.unary .negate {} (.binary .add {} (.var {} "B") two), .binary .multiply {} (.call {} "F" []) two]

/-- The tokens of `BEEP -(B+2),F()*2`. -/
def signedCall : List Token :=
  [.name "BEEP", .operator .minus, .leftParen, .name "B", .operator .plus, .number "2", .rightParen, .comma,
    .name "F", .leftParen, .rightParen, .operator .times, .number "2"]

/-- The tokens of `BEEP(-(B+2),F()*2)`. -/
def signedCallEnclosed : List Token :=
  [.name "BEEP", .leftParen, .operator .minus, .leftParen, .name "B", .operator .plus, .number "2", .rightParen,
    .comma, .name "F", .leftParen, .rightParen, .operator .times, .number "2", .rightParen]

theorem native_call_forms_signed :
    (signed ≠ [] ∧ ∀ e ∈ signed, e.IsWritable (fun _ => "2")) ∧
      TakesCall 27 { rest := signedCallEnclosed.map fun token => ({}, token) } "BEEP" signed [] ∧
      TakesCall 27 { rest := signedCall.map fun token => ({}, token) } "BEEP" signed [] := by
  have hwritable : ∀ e ∈ signed, e.IsWritable (fun _ => "2") := by
    unfold signed
    rw [List.forall_mem_cons, List.forall_mem_singleton]
    exact ⟨.unary (.binary .var isWritable_two), .binary (.call (List.forall_mem_nil _)) isWritable_two⟩
  have henclosed : Spans (.name "BEEP" :: .leftParen :: (Expr.tokensAll (fun _ => "2") signed ++ [.rightParen]))
      ({ rest := signedCallEnclosed.map fun token => ({}, token) } : Cursor).rest [] :=
    ⟨_, (List.append_nil _).symm, rfl⟩
  have hbare : Spans (.name "BEEP" :: Expr.tokensAll (fun _ => "2") signed)
      ({ rest := signedCall.map fun token => ({}, token) } : Cursor).rest [] :=
    ⟨_, (List.append_nil _).symm, rfl⟩
  obtain ⟨hcall, hiff, -⟩ := native_call_forms (List.cons_ne_nil _ _) hwritable (.inl rfl) henclosed hbare (Nat.le_refl 27)
  exact ⟨⟨List.cons_ne_nil _ _, hwritable⟩, hcall, hiff.mpr (by decide)⟩

def product : Expr Float :=
  .binary .multiply {} (.binary .add {} two two) two

/-- The tokens of `BEEP (2+2)*2`. -/
def productCall : List Token :=
  [.name "BEEP", .leftParen, .number "2", .operator .plus, .number "2", .rightParen, .operator .times, .number "2"]

theorem not_native_call_of_product :
    product.IsWritable (fun _ => "2") ∧ productCall = .name "BEEP" :: Expr.tokensAll (fun _ => "2") [product] ∧
      Stmt.parse (R := Float) (productCall.map fun token => ({}, token)) =
        .error (ErrorCode.syntaxError.errorAt {} "EXPECTED END OF STATEMENT") :=
  ⟨.binary (.binary isWritable_two isWritable_two) isWritable_two, rfl, rfl⟩

end LineBasic
