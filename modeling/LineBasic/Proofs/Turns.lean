import LineBasic.Proofs.OwnTokens

/-!
The loops of the readers, turn by turn. A turn fails, leaves the loop, or takes tokens and goes round again. Expressions and
statements take tokens, too.
-/

namespace LineBasic

variable {R : Type}

namespace Cursor

/-- A cursor stands behind another one, with tokens between them. -/
def IsBehind (c' c : Cursor) : Prop :=
  ∃ taken, taken ≠ [] ∧ c.rest = taken ++ c'.rest

section IsBehind

variable {c c' c'' : Cursor} {slack : Nat} {P : Nat → Cursor → Cursor → Prop}

theorem IsBehind.length_lt (h : c'.IsBehind c) : c'.rest.length < c.rest.length := by
  obtain ⟨taken, hne, hrest⟩ := h
  rw [hrest, List.length_append]
  exact Nat.lt_add_of_pos_left (List.length_pos_of_ne_nil hne)

theorem IsBehind.trans (h : c''.IsBehind c') (h' : c'.IsBehind c) : c''.IsBehind c := by
  obtain ⟨taken, -, hrest⟩ := h
  obtain ⟨taken', hne, hrest'⟩ := h'
  exact ⟨taken' ++ taken, List.append_ne_nil_of_left_ne_nil hne _,
    by rw [hrest', hrest, List.append_assoc]⟩

theorem isBehind_skip {token : Token} (h : c.peek? = some token) : c.skip.IsBehind c :=
  ⟨[(c.skip.column, token)], List.cons_ne_nil _ _, exists_rest h⟩

theorem Owns.length_le (h : Owns slack c c' P) : c'.rest.length ≤ c.rest.length := by
  obtain ⟨own, hrest, -⟩ := h
  rw [hrest, List.length_append]
  exact Nat.le_add_left _ _

theorem Owns.isBehind (h : Owns slack c c' P) (hend : ∀ fuel d d', d.peek? = none → ¬P fuel d d') :
    c'.IsBehind c := by
  have hlt := h.length_lt hend
  obtain ⟨own, hrest, -⟩ := h
  refine ⟨own, ?_, hrest⟩
  rintro rfl
  rw [hrest, List.nil_append] at hlt
  exact Nat.lt_irrefl _ hlt

theorem owns_of_ok {α : Type} {read : Nat → Cursor → Except Error (α × Cursor)}
    {x : Except Error (α × Cursor)} {r : α × Cursor} (h : Settles slack read c x) (hx : x = .ok r) :
    Owns slack c r.2 fun fuel d d' => read fuel d = .ok (r.1, d') := by
  rwa [hx] at h

end IsBehind

section Readers

variable [NumberSystem R] {fuel least : Nat} {c : Cursor}

theorem isBehind_of_takeExpression {r : Expr R × Cursor} (h : takeExpression fuel least c = .ok r) :
    r.2.IsBehind c :=
  (owns_of_ok (settles_takeExpression fuel least c) h).isBehind fun _ _ _ hd =>
    takeExpression_of_end hd

theorem isBehind_of_takeStatement {r : Stmt R × Cursor} (h : takeStatement fuel c = .ok r) :
    r.2.IsBehind c :=
  (owns_of_ok ((statementsSettle fuel).statement c) h).isBehind fun _ _ _ hd =>
    takeStatement_of_end hd

theorem isBehind_of_expect {token : Token} {c' : Cursor} (h : c.expect token = .ok c') : c'.IsBehind c := by
  rw [expect] at h
  split at h
  · rename_i hpeek
    cases h
    exact isBehind_skip hpeek
  · cases h

theorem exists_of_takeVariable {r : Variable × Cursor} (h : c.takeVariable = .ok r) :
    ∃ t, c.rest = t :: r.2.rest := by
  unfold takeVariable at h
  split at h
  · rename_i hpeek
    cases h
    exact ⟨_, exists_rest hpeek⟩
  · cases h

theorem isBehind_of_takeVariable {r : Variable × Cursor} (h : c.takeVariable = .ok r) :
    r.2.IsBehind c := by
  obtain ⟨t, hrest⟩ := exists_of_takeVariable h
  exact ⟨[t], List.cons_ne_nil _ _, hrest⟩

theorem exists_of_takeTarget {r : Target × Cursor} (h : c.takeTarget = .ok r) :
    ∃ t, c.rest = t :: r.2.rest := by
  unfold takeTarget at h
  split at h
  · rename_i hpeek
    split at h
    · cases h
      exact ⟨_, exists_rest hpeek⟩
    · cases h
  · cases h

end Readers

/-- What a turn of a loop comes to. -/
inductive Turn (σ ρ : Type) where
  /-- The loop is left with its result. -/
  | leave (result : ρ)
  /-- The loop goes round again, and `finish` makes the result of what it then comes to. -/
  | again (state : σ) (finish : ρ → ρ) (c : Cursor)

variable {σ ρ : Type}

/-- The result of a loop that goes on behind a turn as `read` does. -/
def Turn.follow (read : σ → Cursor → Except Error ρ) : Turn σ ρ → Except Error ρ
  | .leave result => .ok result
  | .again state finish c => do return finish (← read state c)

theorem Turn.follow_again_id (read : σ → Cursor → Except Error ρ) (state : σ) (c : Cursor) :
    Turn.follow read (.again state id c) = read state c :=
  bind_pure (read state c)

/-- A reader is a loop: it makes turn after turn, each with a unit of fuel less, until one fails or leaves the loop. A turn that
goes round again takes tokens. -/
structure IsLoop (read : Nat → σ → Cursor → Except Error ρ)
    (turn : Nat → σ → Cursor → Except Error (Turn σ ρ)) : Prop where
  unroll : ∀ fuel state c, read (fuel + 1) state c = turn fuel state c >>= Turn.follow (read fuel)
  advances : ∀ {fuel state c state' finish c'},
    turn fuel state c = .ok (.again state' finish c') → c'.IsBehind c

variable [NumberSystem R]

/-- A turn of the loop that takes operators with their right operands. -/
def operatorsTurn (least fuel : Nat) (left : Expr R) (c : Cursor) :
    Except Error (Turn (Expr R) (Expr R × Cursor)) :=
  match c.peek? with
  | some (.operator sign) =>
    match h : sign.precedence? with
    | some precedence =>
      if least ≤ precedence then do
        let (right, c') ← takeExpression fuel (sign.rightPrecedence precedence) c.skip
        return .again (.binary (sign.binary (Operator.isSome_precedence? h)) c.skip.column left right) id c'
      else .ok (.leave (left, c))
    | none => .ok (.leave (left, c))
  | _ => .ok (.leave (left, c))

/-- A turn of the loop that takes arguments in parentheses. -/
def argumentsTurn (fuel : Nat) (_ : Unit) (c : Cursor) :
    Except Error (Turn Unit (List (Expr R) × Cursor)) := do
  let (e, c) ← takeExpression fuel 0 c
  match c.peek? with
  | some .rightParen => return .leave ([e], c.skip)
  | some .comma => return .again () (fun r => (e :: r.1, r.2)) c.skip
  | _ => c.skip.fail "EXPECTED END OR SEPARATOR"

/-- A turn of the loop that takes arguments without parentheses. -/
def bareArgumentsTurn (fuel : Nat) (_ : Unit) (c : Cursor) :
    Except Error (Turn Unit (List (Expr R) × Cursor)) := do
  let (e, c) ← takeExpression fuel 0 c
  if c.peek? = some .comma then return .again () (fun r => (e :: r.1, r.2)) c.skip
  else return .leave ([e], c)

/-- A turn of the loop that takes what PRINT prints. -/
def itemsTurn (fuel : Nat) (lineFeed : Bool) (c : Cursor) :
    Except Error (Turn Bool (List (Expr R) × Cursor)) :=
  if c.atStatementEnd then
    .ok (.leave (if lineFeed then [.char ⟨c.column.stop, c.column.stop⟩ '\n'] else [], c))
  else
    match c.peek? with
    | some .semicolon => .ok (.again false id c.skip)
    | some .comma => .ok (.again false (fun r => (.char c.skip.column '\t' :: r.1, r.2)) c.skip)
    | _ => do
      let (e, c) ← takeExpression fuel 0 c
      return .again true (fun r => (e :: r.1, r.2)) c

/-- A turn of the loop that takes the statements of a body. -/
def bodyTurn (fuel : Nat) (_ : Unit) (c : Cursor) : Except Error (Turn Unit (List (Stmt R) × Cursor)) :=
  match c.peek? with
  | none | some (.keyword .else) => .ok (.leave ([], c))
  | some .colon => .ok (.again () id c.skip)
  | some _ => do
    let (s, c) ← takeStatement fuel c
    return .again () (fun r => (s :: r.1, r.2)) c

/-- A turn of the loop that takes the statements of a line. -/
def lineTurn (fuel : Nat) (_ : Unit) (c : Cursor) : Except Error (Turn Unit (List (Stmt R))) :=
  match c.peek? with
  | none => .ok (.leave [])
  | some .colon => .ok (.again () id c.skip)
  | some _ => do
    let (s, c) ← takeStatement fuel c
    match c.peek? with
    | none | some .colon => return .again () (s :: ·) c
    | some _ => c.skip.fail "EXPECTED END OF STATEMENT"

/-- The loop of operators goes round again behind a sign of two operands, never behind NOT. -/
theorem exists_of_operatorsTurn {least fuel : Nat} {left e : Expr R} {c c' : Cursor}
    {finish : Expr R × Cursor → Expr R × Cursor}
    (h : operatorsTurn least fuel left c = .ok (.again e finish c')) :
    ∃ sign precedence right, ∃ hsign : sign.precedence? = some precedence,
      c.peek? = some (.operator sign) ∧ sign ≠ .not ∧
      takeExpression fuel (sign.rightPrecedence precedence) c.skip = .ok (right, c') ∧
      e = .binary (sign.binary (Operator.isSome_precedence? hsign)) c.skip.column left right := by
  unfold operatorsTurn at h
  split at h
  · rename_i sign hpeek
    split at h
    · rename_i precedence hsign
      split at h
      · obtain ⟨r, hread, h⟩ := Stmt.bind_eq_ok h
        cases h
        refine ⟨sign, precedence, _, hsign, hpeek, ?_, hread, rfl⟩
        rintro rfl
        cases hsign
      · cases h
    · cases h
  · cases h

theorem isLoop_takeOperators (least : Nat) :
    IsLoop (fun fuel => takeOperators (R := R) fuel least) (operatorsTurn least) where
  unroll fuel left c := by
    rw [operatorsTurn]
    split
    · rename_i sign hpeek
      split
      · rename_i precedence hsign
        split
        · rename_i hleast
          rw [takeOperators_of_sign left hpeek hsign hleast]
          cases takeExpression (R := R) fuel (sign.rightPrecedence precedence) c.skip with
          | error e => rfl
          | ok r => exact (Turn.follow_again_id _ _ _).symm
        · rename_i hleast
          refine takeOperators_of_end fuel left fun sign' precedence' hpeek' hsign' => ?_
          cases hpeek.symm.trans hpeek'
          cases hsign.symm.trans hsign'
          exact Nat.not_le.mp hleast
      · rename_i hsign
        refine takeOperators_of_end fuel left fun sign' precedence' hpeek' hsign' => ?_
        cases hpeek.symm.trans hpeek'
        cases hsign.symm.trans hsign'
    · rename_i hsigns
      exact takeOperators_of_end fuel left fun sign _ hpeek _ => absurd hpeek (hsigns sign)
  advances := by
    intro fuel left c state finish c' h
    obtain ⟨_, _, _, _, hpeek, -, hread, -⟩ := exists_of_operatorsTurn h
    exact (isBehind_of_takeExpression hread).trans (isBehind_skip hpeek)

theorem isLoop_takeMoreArguments :
    IsLoop (fun fuel _ => takeMoreArguments (R := R) fuel) argumentsTurn where
  unroll fuel _ c := by
    rw [takeMoreArguments, argumentsTurn]
    cases takeExpression (R := R) fuel 0 c with
    | error e => rfl
    | ok r =>
        simp only [ok_bind]
        cases r.2.peek? with
        | none => rfl
        | some token => cases token <;> rfl
  advances := by
    intro fuel _ c state finish c' h
    obtain ⟨r, hread, h⟩ := Stmt.bind_eq_ok h
    dsimp only at h
    split at h
    · cases h
    · rename_i hpeek
      cases h
      exact (isBehind_skip hpeek).trans (isBehind_of_takeExpression hread)
    · cases h

theorem isLoop_takeBareArguments :
    IsLoop (fun fuel _ => takeBareArguments (R := R) fuel) bareArgumentsTurn where
  unroll fuel _ c := by
    rw [takeBareArguments, bareArgumentsTurn]
    cases takeExpression (R := R) fuel 0 c with
    | error e => rfl
    | ok r =>
        simp only [ok_bind]
        by_cases hcomma : r.2.peek? = some .comma
        · simp only [if_pos hcomma]
          rfl
        · simp only [if_neg hcomma]
          rfl
  advances := by
    intro fuel _ c state finish c' h
    obtain ⟨r, hread, h⟩ := Stmt.bind_eq_ok h
    dsimp only at h
    split at h
    · rename_i hpeek
      cases h
      exact (isBehind_skip hpeek).trans (isBehind_of_takeExpression hread)
    · cases h

theorem isLoop_takeItems :
    IsLoop (fun fuel lineFeed => takeItems (R := R) lineFeed fuel) itemsTurn where
  unroll fuel lineFeed c := by
    rw [itemsTurn]
    split
    · rename_i hend
      rw [takeItems, if_pos hend]
      rfl
    · rename_i hend
      split
      · rename_i hpeek
        rw [takeItems_of_semicolon lineFeed fuel hpeek]
        exact (Turn.follow_again_id _ _ _).symm
      · rename_i hpeek
        rw [takeItems_of_comma lineFeed fuel hpeek]
        rfl
      · rename_i hsemicolon hcomma
        rw [takeItems_of_expression lineFeed fuel (by simpa using hend) hsemicolon hcomma]
        cases takeExpression (R := R) fuel 0 c <;> rfl
  advances := by
    intro fuel lineFeed c state finish c' h
    unfold itemsTurn at h
    split at h
    · cases h
    · split at h
      · rename_i hpeek
        cases h
        exact isBehind_skip hpeek
      · rename_i hpeek
        cases h
        exact isBehind_skip hpeek
      · obtain ⟨r, hread, h⟩ := Stmt.bind_eq_ok h
        cases h
        exact isBehind_of_takeExpression hread

theorem isLoop_takeBodyStatements :
    IsLoop (fun fuel _ => takeBodyStatements (R := R) fuel) bodyTurn where
  unroll fuel _ c := by
    rw [bodyTurn]
    split
    · rename_i hpeek
      simp only [takeBodyStatements, hpeek]
      rfl
    · rename_i hpeek
      simp only [takeBodyStatements, hpeek]
      rfl
    · rename_i hpeek
      simp only [takeBodyStatements, hpeek]
      exact (Turn.follow_again_id _ _ _).symm
    · rename_i hpeek
      simp only [takeBodyStatements, hpeek]
      cases takeStatement (R := R) fuel c <;> rfl
  advances := by
    intro fuel _ c state finish c' h
    unfold bodyTurn at h
    split at h
    · cases h
    · cases h
    · rename_i hpeek
      cases h
      exact isBehind_skip hpeek
    · obtain ⟨r, hread, h⟩ := Stmt.bind_eq_ok h
      cases h
      exact isBehind_of_takeStatement hread

theorem isLoop_takeStatements : IsLoop (fun fuel _ => takeStatements (R := R) fuel) lineTurn where
  unroll fuel _ c := by
    rw [lineTurn]
    split
    · rename_i hpeek
      simp only [takeStatements, hpeek]
      rfl
    · rename_i hpeek
      simp only [takeStatements, hpeek]
      exact (Turn.follow_again_id _ _ _).symm
    · rename_i hpeek
      simp only [takeStatements, hpeek]
      cases takeStatement (R := R) fuel c with
      | error e => rfl
      | ok r =>
          simp only [ok_bind]
          cases r.2.peek? with
          | none => rfl
          | some token => cases token <;> rfl
  advances := by
    intro fuel _ c state finish c' h
    unfold lineTurn at h
    split at h
    · cases h
    · rename_i hpeek
      cases h
      exact isBehind_skip hpeek
    · obtain ⟨r, hread, h⟩ := Stmt.bind_eq_ok h
      dsimp only at h
      split at h
      · cases h
        exact isBehind_of_takeStatement hread
      · cases h
        exact isBehind_of_takeStatement hread
      · cases h

end Cursor
end LineBasic
