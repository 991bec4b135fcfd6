import LineBasic.Proofs.Turns

namespace LineBasic

variable {R α β σ ρ : Type}

namespace Cursor

/-- What a reader gets with two amounts of fuel: the same, and no complaint about the fuel. -/
structure Firm (x x' : Except Error α) : Prop where
  same : x' = x
  ne_exhausted : ∀ c : Cursor, x ≠ c.exhausted

section Firm

variable {x x' y y' : Except Error α} {c : Cursor}

theorem firm_ok (a : α) : Firm (.ok a) (.ok a) :=
  ⟨rfl, nofun⟩

theorem firm_error {e : Error} (h : e.text ≠ "LINE TOO COMPLEX") : Firm (.error e : Except Error α) (.error e) := by
  refine ⟨rfl, fun c hc => h ?_⟩
  rw [Except.error.inj hc]
  rfl

theorem firm_fail {text : String} (h : text ≠ "LINE TOO COMPLEX") (c : Cursor) :
    Firm (c.fail text : Except Error α) (c.fail text) :=
  firm_error h

theorem Firm.bind {f f' : α → Except Error β} (h : Firm x x') (hf : ∀ a, x = .ok a → Firm (f a) (f' a)) :
    Firm (x >>= f) (x' >>= f') := by
  obtain ⟨rfl, hx⟩ := h
  cases x' with
  | error e => exact ⟨rfl, fun c hc => hx c (congrArg Except.error (Except.error.inj hc))⟩
  | ok a => exact hf a rfl

theorem Firm.ite {p : Prop} [Decidable p] (h : p → Firm x x') (h' : ¬p → Firm y y') :
    Firm (if p then x else y) (if p then x' else y') := by
  split
  · exact h ‹_›
  · exact h' ‹_›

theorem firm_expect (token : Token) (c : Cursor) : Firm (c.expect token) (c.expect token) := by
  have htext : expectation token ≠ "LINE TOO COMPLEX" := by
    unfold expectation
    split <;> decide
  rw [expect]
  split
  · exact firm_ok _
  · exact firm_fail htext _

theorem firm_takeVariable (c : Cursor) : Firm c.takeVariable c.takeVariable := by
  rw [takeVariable]
  split
  · exact firm_ok _
  · exact firm_fail (by decide) _

theorem firm_takeTarget (c : Cursor) : Firm c.takeTarget c.takeTarget := by
  rw [takeTarget]
  split
  · split
    · exact firm_ok _
    · exact firm_error (show "INVALID LINE NUMBER" ≠ "LINE TOO COMPLEX" by decide)
  · exact firm_fail (by decide) _

end Firm

/-- This fuel is enough for a reader wherever the tokens ahead are so few that twice their number and the slack come to it. -/
def Suffices (slack fuel : Nat) (read : Nat → Cursor → Except Error α) : Prop :=
  ∀ more c, fuel ≤ more → 2 * c.rest.length + slack ≤ fuel → Firm (read fuel c) (read more c)

/-- A token that is taken leaves two units of fuel to spend. -/
theorem Suffices.behind {slack fuel more : Nat} {read : Nat → Cursor → Except Error α} {c c' : Cursor}
    (h : Suffices slack fuel read) (hmore : fuel ≤ more) (hbehind : c'.IsBehind c)
    (hfuel : 2 * c.rest.length + slack ≤ fuel + 2) : Firm (read fuel c') (read more c') := by
  have hlt := hbehind.length_lt
  exact h more c' hmore (by omega)

theorem suffices_succ {slack fuel : Nat} {read : Nat → Cursor → Except Error α}
    (h : ∀ more c, fuel ≤ more → 2 * c.rest.length + slack ≤ fuel + 1 →
      Firm (read (fuel + 1) c) (read (more + 1) c)) : Suffices slack (fuel + 1) read := by
  intro more c hmore hfuel
  obtain ⟨more, rfl⟩ := Nat.exists_eq_add_of_le' (show 1 ≤ more by omega)
  exact h more c (Nat.le_of_succ_le_succ hmore) hfuel

section Loops

variable {read : Nat → σ → Cursor → Except Error ρ} {turn : Nat → σ → Cursor → Except Error (Turn σ ρ)}
  {slack fuel more : Nat}

theorem IsLoop.firm (h : IsLoop read turn) {state : σ} {c : Cursor}
    (hturn : Firm (turn fuel state c) (turn more state c))
    (hrest : ∀ state' c', c'.IsBehind c → Firm (read fuel state' c') (read more state' c')) :
    Firm (read (fuel + 1) state c) (read (more + 1) state c) := by
  rw [h.unroll, h.unroll]
  refine hturn.bind fun t ht => ?_
  cases t with
  | leave result => exact firm_ok result
  | again state' finish c' => exact (hrest state' c' (h.advances ht)).bind fun _ _ => firm_ok _

/-- If there is fuel for every turn of a loop, then there is fuel for the loop, since every turn but the last takes tokens. -/
theorem IsLoop.suffices (h : IsLoop read turn) (hslack : 0 < slack)
    (hturn : ∀ fuel more state c, fuel ≤ more → 2 * c.rest.length + slack ≤ fuel + 1 →
      Firm (turn fuel state c) (turn more state c))
    (fuel : Nat) (state : σ) : Suffices slack fuel fun fuel => read fuel state := by
  induction fuel generalizing state with
  | zero =>
      intro more c _ hfuel
      omega
  | succ fuel ih =>
      refine suffices_succ fun more c hmore hfuel => ?_
      exact h.firm (hturn fuel more state c hmore hfuel) fun state' _ hbehind =>
        (ih state').behind hmore hbehind (by omega)

end Loops

variable [NumberSystem R] {fuel more : Nat}

/-- This fuel is enough for the readers of expressions. The number of a reader is the fuel that it needs besides two for each token. -/
structure ExpressionsEnd (R : Type) [NumberSystem R] (fuel : Nat) : Prop where
  expression : ∀ least, Suffices 2 fuel fun fuel => takeExpression (R := R) fuel least
  operators : ∀ least left, Suffices 1 fuel fun fuel => takeOperators (R := R) fuel least left
  operand : Suffices 1 fuel (takeOperand (R := R))
  arguments : Suffices 2 fuel (takeArguments (R := R))
  moreArguments : Suffices 3 fuel (takeMoreArguments (R := R))

section Expressions

variable (ih : ExpressionsEnd R fuel) {c : Cursor}

include ih

theorem firm_operatorsTurn (hmore : fuel ≤ more) (hfuel : 2 * c.rest.length ≤ fuel) (least : Nat)
    (left : Expr R) : Firm (operatorsTurn least fuel left c) (operatorsTurn least more left c) := by
  rw [operatorsTurn, operatorsTurn]
  generalize hpeek : c.peek? = peek
  split
  · split
    · refine Firm.ite (fun _ => ?_) fun _ => firm_ok _
      exact ((ih.expression _).behind hmore (isBehind_skip hpeek) (by omega)).bind fun _ _ => firm_ok _
    · exact firm_ok _
  · exact firm_ok _

theorem firm_takeOperand (hmore : fuel ≤ more) (hfuel : 2 * c.rest.length ≤ fuel) :
    Firm (takeOperand (R := R) (fuel + 1) c) (takeOperand (more + 1) c) := by
  have hexpression {token : Token} (hpeek : c.peek? = some token) (least : Nat) :
      Firm (takeExpression (R := R) fuel least c.skip) (takeExpression more least c.skip) :=
    (ih.expression least).behind hmore (isBehind_skip hpeek) (by omega)
  rw [takeOperand, takeOperand]
  dsimp only
  generalize hpeek : c.peek? = peek
  split
  · exact (hexpression hpeek _).bind fun _ _ => firm_ok _
  · exact hexpression hpeek _
  · exact (hexpression hpeek _).bind fun _ _ => firm_ok _
  · exact (hexpression hpeek _).bind fun _ _ => (firm_expect _ _).bind fun _ _ => firm_ok _
  · refine Firm.ite (fun _ => ?_) fun _ => firm_ok _
    exact (ih.arguments.behind hmore (isBehind_skip hpeek) (by omega)).bind fun _ _ => firm_ok _
  · split
    · exact firm_ok _
    · exact firm_fail (by decide) _
  · exact firm_ok _
  · exact firm_fail (by decide) _

theorem firm_argumentsTurn (hmore : fuel ≤ more) (hfuel : 2 * c.rest.length + 2 ≤ fuel) :
    Firm (argumentsTurn (R := R) fuel () c) (argumentsTurn more () c) := by
  rw [argumentsTurn, argumentsTurn]
  refine (ih.expression 0 more c hmore hfuel).bind fun r _ => ?_
  dsimp only
  split
  · exact firm_ok _
  · exact firm_ok _
  · exact firm_fail (by decide) _

end Expressions

theorem expressionsEnd (fuel : Nat) : ExpressionsEnd R fuel := by
  induction fuel with
  | zero => refine ⟨?_, ?_, ?_, ?_, ?_⟩ <;> intros <;> intro more c _ hfuel <;> omega
  | succ fuel ih =>
      refine ⟨fun least => ?_, fun least left => ?_, ?_, ?_, ?_⟩ <;>
        refine suffices_succ fun more c hmore hfuel => ?_
      · rw [takeExpression, takeExpression]
        -- the operators may stand behind the operand as if it took nothing
        refine (ih.operand more c hmore (by omega)).bind fun r hr => ?_
        have hle := (owns_of_ok ((expressionsSettle fuel).operand c) hr).length_le
        exact ih.operators least r.1 more r.2 hmore (by omega)
      · exact (isLoop_takeOperators least).firm (firm_operatorsTurn ih hmore (by omega) least left)
          fun left' _ hbehind => (ih.operators least left').behind hmore hbehind (by omega)
      · exact firm_takeOperand ih hmore (by omega)
      · rw [takeArguments, takeArguments]
        refine (firm_expect _ c).bind fun c₁ h₁ => Firm.ite (fun _ => firm_ok _) fun _ => ?_
        exact ih.moreArguments.behind hmore (isBehind_of_expect h₁) (by omega)
      · exact isLoop_takeMoreArguments.firm (firm_argumentsTurn ih hmore (by omega))
          fun _ _ hbehind => ih.moreArguments.behind hmore hbehind (by omega)

theorem suffices_takeExpression (fuel least : Nat) :
    Suffices 2 fuel fun fuel => takeExpression (R := R) fuel least :=
  (expressionsEnd fuel).expression least

theorem suffices_takeBareArguments (fuel : Nat) : Suffices 3 fuel (takeBareArguments (R := R)) := by
  refine isLoop_takeBareArguments.suffices (by decide) (fun fuel more _ c hmore hfuel => ?_) fuel ()
  rw [bareArgumentsTurn, bareArgumentsTurn]
  refine (suffices_takeExpression fuel 0 more c hmore (by omega)).bind fun r _ => ?_
  exact Firm.ite (fun _ => firm_ok _) fun _ => firm_ok _

theorem suffices_takeItems (fuel : Nat) (lineFeed : Bool) :
    Suffices 3 fuel fun fuel => takeItems (R := R) lineFeed fuel := by
  refine isLoop_takeItems.suffices (by decide) (fun fuel more lineFeed c hmore hfuel => ?_) fuel lineFeed
  rw [itemsTurn, itemsTurn]
  refine Firm.ite (fun _ => firm_ok _) fun _ => ?_
  split
  · exact firm_ok _
  · exact firm_ok _
  · exact (suffices_takeExpression fuel 0 more c hmore (by omega)).bind fun _ _ => firm_ok _

section Parts

variable {c : Cursor} (hmore : fuel ≤ more)

include hmore

theorem firm_takeAssignment (hfuel : 2 * c.rest.length + 2 ≤ fuel) (column : Column) (v : Variable) :
    Firm (takeAssignment (R := R) fuel column v c) (takeAssignment more column v c) := by
  rw [takeAssignment, takeAssignment]
  refine (firm_expect _ c).bind fun c₁ h₁ => ?_
  exact ((suffices_takeExpression fuel 0).behind hmore (isBehind_of_expect h₁) (by omega)).bind
    fun _ _ => firm_ok _

theorem firm_takeNativeCall (hfuel : 2 * c.rest.length + 3 ≤ fuel) (column : Column) (name : String) :
    Firm (takeNativeCall (R := R) fuel column name c) (takeNativeCall more column name c) := by
  rw [takeNativeCall, takeNativeCall]
  refine Firm.ite (fun _ => ?_) fun _ => Firm.ite (fun _ => firm_ok _) fun _ => ?_
  · exact ((expressionsEnd fuel).arguments more c hmore (by omega)).bind fun _ _ => firm_ok _
  · exact (suffices_takeBareArguments fuel more c hmore hfuel).bind fun _ _ => firm_ok _

theorem firm_takeLoop (hfuel : 2 * c.rest.length + 2 ≤ fuel) (column : Column) :
    Firm (takeLoop (R := R) fuel column c) (takeLoop more column c) := by
  rw [takeLoop, takeLoop]
  have hexpression {c' : Cursor} (h : c'.IsBehind c) :=
    (suffices_takeExpression (R := R) fuel 0).behind hmore h (by omega)
  refine (firm_takeVariable c).bind fun r₁ h₁ => (firm_expect _ r₁.2).bind fun c₂ h₂ => ?_
  have hlimit : c₂.IsBehind c := (isBehind_of_expect h₂).trans (isBehind_of_takeVariable h₁)
  refine (hexpression hlimit).bind fun r₃ h₃ => (firm_expect _ r₃.2).bind fun c₄ h₄ => ?_
  have hstep : c₄.IsBehind c :=
    (isBehind_of_expect h₄).trans ((isBehind_of_takeExpression h₃).trans hlimit)
  refine (hexpression hstep).bind fun r₅ h₅ => Firm.ite (fun hpeek => ?_) fun _ => firm_ok _
  have hlast : r₅.2.skip.IsBehind c :=
    (isBehind_skip hpeek).trans ((isBehind_of_takeExpression h₅).trans hstep)
  exact (hexpression hlast).bind fun _ _ => firm_ok _

end Parts

structure StatementsEnd (R : Type) [NumberSystem R] (fuel : Nat) : Prop where
  statement : Suffices 2 fuel (takeStatement (R := R))
  thenBody : Suffices 3 fuel (takeThenBody (R := R))
  body : Suffices 4 fuel (takeBody (R := R))
  bodyStatements : Suffices 3 fuel (takeBodyStatements (R := R))

section Statements

variable (ih : StatementsEnd R fuel) {c : Cursor}

include ih

theorem firm_takeStatement (hmore : fuel ≤ more) (hfuel : 2 * c.rest.length + 1 ≤ fuel) :
    Firm (takeStatement (R := R) (fuel + 1) c) (takeStatement (more + 1) c) := by
  rw [takeStatement, takeStatement]
  dsimp only
  generalize hpeek : c.peek? = peek
  split
  · have hlt := (isBehind_skip hpeek).length_lt
    refine Firm.ite (fun _ => ?_) fun _ => ?_
    · exact firm_takeAssignment hmore (by omega) _ _
    · exact firm_takeNativeCall hmore (by omega) _ _
  · exact firm_ok _
  · exact ((suffices_takeItems fuel true).behind hmore (isBehind_skip hpeek) (by omega)).bind
      fun _ _ => firm_ok _
  · refine (firm_takeVariable c.skip).bind fun r h => ?_
    have hlt := ((isBehind_of_takeVariable h).trans (isBehind_skip hpeek)).length_lt
    exact firm_takeAssignment hmore (by omega) _ _
  · exact (firm_takeTarget c.skip).bind fun _ _ => firm_ok _
  · exact (firm_takeTarget c.skip).bind fun _ _ => firm_ok _
  · exact firm_ok _
  · exact firm_ok _
  · -- IF: its own token and those of the condition pay for the readers of the two bodies
    have hlt := (isBehind_skip hpeek).length_lt
    refine (suffices_takeExpression fuel 0 more c.skip hmore (by omega)).bind fun r₁ h₁ => ?_
    have hlt₁ := (isBehind_of_takeExpression h₁).length_lt
    refine (ih.thenBody more r₁.2 hmore (by omega)).bind fun r₂ h₂ => ?_
    have hle₂ := (owns_of_ok ((statementsSettle fuel).thenBody r₁.2) h₂).length_le
    refine Firm.ite (fun helse => ?_) fun _ => firm_ok _
    have hlt₃ := (isBehind_skip helse).length_lt
    exact (ih.body more r₂.2.skip hmore (by omega)).bind fun _ _ => firm_ok _
  · have hlt := (isBehind_skip hpeek).length_lt
    exact firm_takeLoop hmore (by omega) _
  · exact Firm.ite (fun _ => firm_ok _) fun _ => (firm_takeVariable c.skip).bind fun _ _ => firm_ok _
  · split
    · exact firm_ok _
    · exact firm_ok _
  · exact firm_fail (by decide) _

theorem firm_bodyTurn (hmore : fuel ≤ more) (hfuel : 2 * c.rest.length + 2 ≤ fuel) :
    Firm (bodyTurn (R := R) fuel () c) (bodyTurn more () c) := by
  rw [bodyTurn, bodyTurn]
  split
  · exact firm_ok _
  · exact firm_ok _
  · exact firm_ok _
  · exact (ih.statement more c hmore hfuel).bind fun _ _ => firm_ok _

end Statements

theorem statementsEnd (fuel : Nat) : StatementsEnd R fuel := by
  induction fuel with
  | zero => refine ⟨?_, ?_, ?_, ?_⟩ <;> intro more c _ hfuel <;> omega
  | succ fuel ih =>
      refine ⟨?_, ?_, ?_, ?_⟩ <;> refine suffices_succ fun more c hmore hfuel => ?_
      · exact firm_takeStatement ih hmore (by omega)
      · rw [takeThenBody, takeThenBody]
        refine Firm.ite (fun _ => (firm_takeTarget c.skip).bind fun _ _ => firm_ok _) fun _ => ?_
        refine (firm_expect _ c).bind fun c₁ h₁ => ?_
        exact ih.body.behind hmore (isBehind_of_expect h₁) (by omega)
      · rw [takeBody, takeBody]
        split
        · exact (firm_takeTarget c).bind fun _ _ => firm_ok _
        · exact ih.bodyStatements more c hmore (by omega)
      · exact isLoop_takeBodyStatements.firm (firm_bodyTurn ih hmore (by omega)) fun _ _ hbehind =>
          ih.bodyStatements.behind hmore hbehind (by omega)

theorem suffices_takeStatements (fuel : Nat) : Suffices 3 fuel (takeStatements (R := R)) := by
  refine isLoop_takeStatements.suffices (by decide) (fun fuel more _ c hmore hfuel => ?_) fuel ()
  rw [lineTurn, lineTurn]
  split
  · exact firm_ok _
  · exact firm_ok _
  · refine ((statementsEnd fuel).statement more c hmore (by omega)).bind fun r _ => ?_
    dsimp only
    split
    · exact firm_ok _
    · exact firm_ok _
    · exact firm_fail (by decide) _

end Cursor

open Cursor

/-- The reader of a line comes to an end on any tokens: it never runs out of fuel, and gets the same with any more of it. An
expression or a statement that is read has tokens, a variable or a target exactly one. Every turn of the six loops takes tokens
or is the last one. A sign between two operands is never NOT. -/
theorem line_reader_ends (R : Type) [NumberSystem R] :
    (∀ tokens : List (Column × Token), (∀ c : Cursor, Stmt.parse (R := R) tokens ≠ c.exhausted) ∧
      ∀ fuel, 2 * tokens.length + 3 ≤ fuel →
        takeStatements fuel { rest := tokens } = Stmt.parse (R := R) tokens) ∧
    (∀ fuel least c r, takeExpression (R := R) fuel least c = .ok r → r.2.IsBehind c) ∧
    (∀ fuel c r, takeStatement (R := R) fuel c = .ok r → r.2.IsBehind c) ∧
    (∀ c r, takeVariable c = .ok r → ∃ t, c.rest = t :: r.2.rest) ∧
    (∀ c r, takeTarget c = .ok r → ∃ t, c.rest = t :: r.2.rest) ∧
    (∀ least, IsLoop (fun fuel => takeOperators (R := R) fuel least) (operatorsTurn least)) ∧
    IsLoop (fun fuel _ => takeMoreArguments (R := R) fuel) argumentsTurn ∧
    IsLoop (fun fuel lineFeed => takeItems (R := R) lineFeed fuel) itemsTurn ∧
    IsLoop (fun fuel _ => takeBareArguments (R := R) fuel) bareArgumentsTurn ∧
    IsLoop (fun fuel _ => takeBodyStatements (R := R) fuel) bodyTurn ∧
    IsLoop (fun fuel _ => takeStatements (R := R) fuel) lineTurn ∧
    ∀ fuel least left c e finish c', operatorsTurn (R := R) least fuel left c = .ok (.again e finish c') →
      ∃ sign, ∃ hbinary : sign.precedence?.isSome, ∃ right, c.peek? = some (.operator sign) ∧ sign ≠ .not ∧
        e = .binary (sign.binary hbinary) c.skip.column left right := by
  refine ⟨fun tokens => ?_, fun _ _ _ _ => isBehind_of_takeExpression,
    fun _ _ _ => isBehind_of_takeStatement, fun _ _ => exists_of_takeVariable,
    fun _ _ => exists_of_takeTarget, isLoop_takeOperators, isLoop_takeMoreArguments, isLoop_takeItems,
    isLoop_takeBareArguments, isLoop_takeBodyStatements, isLoop_takeStatements, ?_⟩
  · have hsuffices (fuel : Nat) (hfuel : 2 * tokens.length + 3 ≤ fuel) :=
      suffices_takeStatements (R := R) (2 * tokens.length + 3) fuel { rest := tokens } hfuel (Nat.le_refl _)
    have hparse := hsuffices (4 * tokens.length + 8) (by omega)
    have hsame : Stmt.parse tokens = takeStatements (2 * tokens.length + 3) { rest := tokens } := hparse.same
    rw [hsame]
    exact ⟨hparse.ne_exhausted, fun fuel hfuel => (hsuffices fuel hfuel).same⟩
  · intro fuel least left c e finish c' h
    obtain ⟨sign, precedence, right, hsign, hpeek, hne, -, he⟩ := exists_of_operatorsTurn h
    exact ⟨sign, Operator.isSome_precedence? hsign, right, hpeek, hne, he⟩

/-- Tokens that no text has: a remark stands in front of others. -/
def unruly : List (Column × Token) :=
  [.keyword .if, .operator .not, .leftParen, .name "A", .rightParen, .keyword .goto, .number "10",
    .keyword .else, .colon, .remark "", .remark "", .colon].map fun token => ({}, token)

theorem line_reader_ends_unruly :
    (∀ c : Cursor, Stmt.parse (R := Float) unruly ≠ c.exhausted) ∧
    takeStatements 1000 { rest := unruly } = Stmt.parse (R := Float) unruly ∧
    ∃ r, takeStatement (R := Float) 20 { rest := unruly } = .ok r ∧ r.2.IsBehind { rest := unruly } := by
  obtain ⟨hends, -, hstatement, -⟩ := line_reader_ends Float
  obtain ⟨hfuel, hsame⟩ := hends unruly
  refine ⟨hfuel, hsame 1000 (by decide), ?_⟩
  have hok : (takeStatement (R := Float) 20 { rest := unruly }).isOk := by decide +kernel
  cases hread : takeStatement (R := Float) 20 { rest := unruly } with
  | error e => simp [hread, Except.isOk, Except.toBool] at hok
  | ok r => exact ⟨r, rfl, hstatement 20 _ r hread⟩

end LineBasic
