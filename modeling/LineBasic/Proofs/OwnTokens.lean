import LineBasic.Proofs.References

/-!
What the readers take. The result of a reader hangs on the tokens that it takes: if the line ends behind them, then it is the
same. Main statement: the tokens of a statement, on a line of their own, are read as that statement.
-/

namespace LineBasic

variable {R : Type} {α : Type}

namespace Cursor

/-- A cursor is at the place of another one, in a line that may end sooner. -/
structure Cuts (d c : Cursor) : Prop where
  column : d.column = c.column
  rest : d.rest <+: c.rest

section Cuts

variable {d c : Cursor} {token : Token}

theorem Cuts.peek?_cases (h : d.Cuts c) : d.peek? = none ∨ d.peek? = c.peek? := by
  unfold peek?
  cases hrest : d.rest with
  | nil => exact .inl rfl
  | cons t rest =>
      obtain ⟨more, hmore⟩ := h.rest
      rw [hrest] at hmore
      rw [← hmore]
      exact .inr rfl

theorem Cuts.peek?_eq (h : d.Cuts c) (hpeek : d.peek? ≠ none) : d.peek? = c.peek? :=
  h.peek?_cases.resolve_left hpeek

theorem Cuts.peek?_ne (h : d.Cuts c) (hpeek : c.peek? ≠ some token) : d.peek? ≠ some token := by
  rcases h.peek?_cases with hnone | heq
  · simp [hnone]
  · rwa [heq]

theorem Cuts.skip (h : d.Cuts c) (hpeek : d.peek? = some token) : d.skip.Cuts c.skip := by
  have hc : c.peek? = some token := h.peek?_eq (by simp [hpeek]) ▸ hpeek
  have hrest := h.rest
  rw [exists_rest hpeek, exists_rest hc, List.cons_prefix_cons, Prod.mk.injEq] at hrest
  exact ⟨hrest.1.1, hrest.2⟩

theorem Cuts.atStatementEnd (h : d.Cuts c) (hend : c.atStatementEnd = true) :
    d.atStatementEnd = true := by
  unfold Cursor.atStatementEnd at hend ⊢
  rcases h.peek?_cases with hnone | heq
  · rw [hnone]
  · rwa [heq]

end Cuts

/-- What happens between two cursors hangs on the tokens between them. It happens with these as well if the line goes on behind
them as it did or ends sooner, and with all fuel from a bound on that their number gives. -/
def Owns (slack : Nat) (c c' : Cursor) (P : Nat → Cursor → Cursor → Prop) : Prop :=
  ∃ own, c.rest = own ++ c'.rest ∧ ∀ d' fuel, d'.Cuts c' → 2 * own.length + slack ≤ fuel →
    P fuel { rest := own ++ d'.rest, column := c.column } d'

section Owns

variable {slack slack' : Nat} {c c' c'' : Cursor} {P P' : Nat → Cursor → Cursor → Prop}

theorem owns_refl (c : Cursor) : Owns 0 c c fun _ d d' => d' = d :=
  ⟨[], rfl, fun d' _ hcuts _ => by rw [List.nil_append, ← hcuts.column]⟩

theorem Owns.skip {token : Token} (h : Owns slack c.skip c' P) (hpeek : c.peek? = some token) :
    Owns (slack - 2) c c' fun fuel d d' =>
      d.peek? = some token ∧ d.skip.column = c.skip.column ∧ P fuel d.skip d' := by
  obtain ⟨own, hrest, hown⟩ := h
  refine ⟨(c.skip.column, token) :: own, ?_, fun d' fuel hcuts hfuel => ⟨rfl, rfl, ?_⟩⟩
  · rw [exists_rest hpeek, hrest, List.cons_append]
  · rw [List.length_cons] at hfuel
    exact hown d' fuel hcuts (by omega)

theorem owns_token {token : Token} (hpeek : c.peek? = some token) :
    Owns 0 c c.skip fun _ d d' => d.peek? = some token ∧ d.skip.column = c.skip.column ∧ d' = d.skip :=
  (owns_refl c.skip).skip hpeek

theorem Owns.imp (h : Owns slack c c' P) (step : Nat)
    (himp : ∀ fuel d d', d.Cuts c → d'.Cuts c' → P fuel d d' → P' (fuel + step) d d')
    (hslack : slack + step ≤ slack') : Owns slack' c c' P' := by
  obtain ⟨own, hrest, hown⟩ := h
  refine ⟨own, hrest, fun d' fuel hcuts hfuel => ?_⟩
  obtain ⟨fuel, rfl⟩ := Nat.exists_eq_add_of_le' (show step ≤ fuel by omega)
  refine himp fuel _ d' ⟨rfl, ?_⟩ hcuts (hown d' fuel hcuts (by omega))
  rw [hrest]
  exact (List.prefix_append_right_inj own).mpr hcuts.rest

/-- One after the other. The second needs less fuel if the first takes tokens. -/
theorem Owns.trans_of_le (h : Owns slack c c' P) (h' : Owns slack' c' c'' P') (least : Nat)
    (hleast : c'.rest.length + least ≤ c.rest.length) :
    Owns (max slack (slack' - 2 * least)) c c'' fun fuel d d'' =>
      ∃ d', d'.Cuts c' ∧ P fuel d d' ∧ P' fuel d' d'' := by
  obtain ⟨own, hrest, hown⟩ := h
  obtain ⟨own', hrest', hown'⟩ := h'
  refine ⟨own ++ own', by rw [hrest, hrest', List.append_assoc], fun d'' fuel hcuts hfuel => ?_⟩
  rw [List.length_append] at hfuel
  rw [hrest, List.length_append] at hleast
  have hmiddle : Cuts { rest := own' ++ d''.rest, column := c'.column } c' := by
    refine ⟨rfl, ?_⟩
    rw [hrest']
    exact (List.prefix_append_right_inj own').mpr hcuts.rest
  refine ⟨_, hmiddle, ?_, hown' d'' fuel hcuts (by omega)⟩
  rw [List.append_assoc]
  exact hown _ fuel hmiddle (by omega)

theorem Owns.trans (h : Owns slack c c' P) (h' : Owns slack' c' c'' P') :
    Owns (max slack slack') c c'' fun fuel d d'' =>
      ∃ d', d'.Cuts c' ∧ P fuel d d' ∧ P' fuel d' d'' := by
  refine h.trans_of_le h' 0 ?_
  obtain ⟨own, hrest, -⟩ := h
  simp [hrest]

/-- What does not happen at the end of a line takes a token. -/
theorem Owns.length_lt (h : Owns slack c c' P) (hend : ∀ fuel d d', d.peek? = none → ¬P fuel d d') :
    c'.rest.length < c.rest.length := by
  obtain ⟨own, hrest, hown⟩ := h
  have hpos : own ≠ [] := by
    rintro rfl
    exact hend _ _ { rest := [], column := c'.column } rfl (hown _ _ ⟨rfl, List.nil_prefix⟩ (Nat.le_refl _))
  rw [hrest, List.length_append]
  exact Nat.lt_add_of_pos_left (List.length_pos_of_ne_nil hpos)

end Owns

/-- If a reader succeeds, then what it takes settles what it gets. -/
abbrev Settles (slack : Nat) (read : Nat → Cursor → Except Error (α × Cursor)) (c : Cursor) :
    Except Error (α × Cursor) → Prop :=
  Ends (fun _ => True) fun r => Owns slack c r.2 fun fuel d d' => read fuel d = .ok (r.1, d')

theorem Owns.settles {slack slack' : Nat} {c c' : Cursor} {P : Nat → Cursor → Cursor → Prop}
    {read : Nat → Cursor → Except Error (α × Cursor)} {a : α} (h : Owns slack c c' P) (step : Nat)
    (hslack : slack + step ≤ slack')
    (hread : ∀ fuel d d', d.Cuts c → d'.Cuts c' → P fuel d d' → read (fuel + step) d = .ok (a, d')) :
    Settles slack' read c (.ok (a, c')) :=
  show Owns slack' c c' fun fuel d d' => read fuel d = .ok (a, d') from h.imp step hread hslack

theorem settles_expect (token : Token) (c : Cursor) :
    Ends (fun _ => True) (fun c' => Owns 0 c c' fun _ d d' => d.expect token = .ok d')
      (c.expect token) := by
  rw [expect]
  split
  · rename_i hpeek
    show Owns 0 c c.skip fun _ d d' => d.expect token = .ok d'
    refine (owns_token hpeek).imp 0 ?_ (Nat.le_refl 0)
    rintro _ d d' - - ⟨hd, -, hd'⟩
    rw [expect, if_pos hd, hd']
  · trivial

theorem settles_takeVariable (c : Cursor) : Settles 0 (fun _ => takeVariable) c c.takeVariable := by
  rw [takeVariable]
  split
  · rename_i hpeek
    refine (owns_token hpeek).settles 0 (by decide) ?_
    rintro _ d d' - - ⟨hd, hcolumn, hd'⟩
    rw [takeVariable, hd, hd', hcolumn]
  · trivial

theorem settles_takeTarget (c : Cursor) : Settles 0 (fun _ => takeTarget) c c.takeTarget := by
  rw [takeTarget]
  split
  · rename_i hpeek
    split
    · rename_i hread
      refine (owns_token hpeek).settles 0 (by decide) ?_
      rintro _ d d' - - ⟨hd, hcolumn, hd'⟩
      rw [takeTarget, hd, hd', hcolumn]
      simp only [hread]
    · trivial
  · trivial

variable [NumberSystem R]

/-- What the readers of expressions take settles what they get, with a given fuel. The number of a reader is the fuel it needs
besides two for each token: it calls so many others before it comes to one that takes a token. -/
structure ExpressionsSettle (R : Type) [NumberSystem R] (fuel : Nat) : Prop where
  expression : ∀ (least : Nat) (c : Cursor),
    Settles 2 (fun fuel => takeExpression (R := R) fuel least) c (takeExpression fuel least c)
  operators : ∀ (least : Nat) (left : Expr R) (c : Cursor),
    Settles 1 (fun fuel => takeOperators fuel least left) c (takeOperators fuel least left c)
  operand : ∀ c : Cursor, Settles 1 (takeOperand (R := R)) c (takeOperand fuel c)
  arguments : ∀ c : Cursor, Settles 2 (takeArguments (R := R)) c (takeArguments fuel c)
  moreArguments : ∀ c : Cursor, Settles 3 (takeMoreArguments (R := R)) c (takeMoreArguments fuel c)

theorem peek?_of_takeArguments {fuel : Nat} {d : Cursor} {r : List (Expr R) × Cursor}
    (h : takeArguments fuel d = .ok r) : d.peek? = some .leftParen := by
  cases fuel with
  | zero => cases h
  | succ fuel =>
      by_contra hne
      rw [takeArguments, expect, if_neg hne] at h
      cases h

theorem settles_takeOperand {fuel : Nat} (ih : ExpressionsSettle R fuel) (c : Cursor) :
    Settles 1 (takeOperand (R := R)) c (takeOperand (fuel + 1) c) := by
  rw [takeOperand]
  dsimp only
  generalize hpeek : c.peek? = peek
  split
  · refine (ih.expression _ _).bind fun r h => ?_
    refine (h.skip hpeek).settles 1 (by decide) ?_
    rintro fuel d d' - - ⟨hd, hcolumn, hread⟩
    simp only [takeOperand, hd, hread, hcolumn]
    rfl
  · refine Ends.imp (ih.expression _ _) fun r h => ?_
    refine (h.skip hpeek).imp 1 ?_ (by decide)
    rintro fuel d d' - - ⟨hd, -, hread⟩
    simp only [takeOperand, hd, hread]
  · refine (ih.expression _ _).bind fun r h => ?_
    refine (h.skip hpeek).settles 1 (by decide) ?_
    rintro fuel d d' - - ⟨hd, hcolumn, hread⟩
    simp only [takeOperand, hd, hread, hcolumn]
    rfl
  · refine (ih.expression _ _).bind fun r h => ?_
    refine (settles_expect .rightParen r.2).bind fun c' h' => ?_
    refine ((h.trans h').skip hpeek).settles 1 (by decide) ?_
    rintro fuel d d' - - ⟨hd, -, d₁, -, hread, hclose⟩
    simp only [takeOperand, hd, hread, ok_bind, hclose]
    rfl
  · split
    · refine (ih.arguments _).bind fun r h => ?_
      refine (h.skip hpeek).settles 1 (by decide) ?_
      rintro fuel d d' - - ⟨hd, hcolumn, hread⟩
      simp only [takeOperand, hd, if_pos (peek?_of_takeArguments hread), hread, hcolumn]
      rfl
    · rename_i hparen
      refine (owns_token hpeek).settles 1 (by decide) ?_
      rintro fuel d _ - hcuts ⟨hd, hcolumn, rfl⟩
      simp only [takeOperand, hd, if_neg (hcuts.peek?_ne hparen), hcolumn]
  · split
    · rename_i hread
      refine (owns_token hpeek).settles 1 (by decide) ?_
      rintro fuel d _ - - ⟨hd, hcolumn, rfl⟩
      simp only [takeOperand, hd, hread, hcolumn]
    · trivial
  · refine (owns_token hpeek).settles 1 (by decide) ?_
    rintro fuel d _ - - ⟨hd, hcolumn, rfl⟩
    simp only [takeOperand, hd, hcolumn]
  · trivial

/-- Where an expression ends, it ends as well if the line ends there. -/
theorem settles_operators_end {least : Nat} {c : Cursor} (left : Expr R)
    (hend : ∀ sign precedence, c.peek? = some (.operator sign) → sign.precedence? = some precedence →
      precedence < least) :
    Settles 1 (fun fuel => takeOperators fuel least left) c (.ok (left, c)) := by
  refine (owns_refl c).settles 1 (by decide) ?_
  rintro fuel d _ hcuts - rfl
  refine takeOperators_of_end fuel left fun sign precedence hd => ?_
  have hpeek := hcuts.peek?_eq (by simp [hd])
  exact hend sign precedence (hpeek ▸ hd)

theorem settles_takeOperators {fuel : Nat} (ih : ExpressionsSettle R fuel) (least : Nat)
    (left : Expr R) (c : Cursor) :
    Settles 1 (fun fuel => takeOperators fuel least left) c (takeOperators (fuel + 1) least left c) := by
  rw [takeOperators]
  generalize hpeek : c.peek? = peek
  split
  · split
    · rename_i sign _ precedence hprecedence
      split
      · rename_i hleast
        refine (ih.expression _ _).bind fun r h => ?_
        refine Ends.imp (ih.operators _ _ _) fun r' h' => ?_
        refine ((h.trans h').skip hpeek).imp 1 ?_ (by decide)
        rintro fuel d d' - - ⟨hd, hcolumn, d₁, -, hright, hmore⟩
        simp only [takeOperators_of_sign left hd hprecedence hleast, hright, hcolumn]
        exact hmore
      · rename_i hleast
        refine settles_operators_end left fun sign' precedence' hsign hprecedence' => ?_
        rw [hpeek] at hsign
        cases hsign
        rw [hprecedence] at hprecedence'
        cases hprecedence'
        exact Nat.not_le.mp hleast
    · rename_i hprecedence
      refine settles_operators_end left fun sign' precedence' hsign hprecedence' => ?_
      rw [hpeek] at hsign
      cases hsign
      rw [hprecedence] at hprecedence'
      cases hprecedence'
  · rename_i hsigns
    refine settles_operators_end left fun sign _ hsign _ => ?_
    exact absurd (hpeek.symm.trans hsign) (hsigns sign)

theorem takeArguments_of_leftParen {c : Cursor} (fuel : Nat) (hpeek : c.peek? = some .leftParen) :
    takeArguments (R := R) (fuel + 1) c =
      if c.skip.peek? = some .rightParen then .ok ([], c.skip.skip) else takeMoreArguments fuel c.skip := by
  rw [takeArguments, expect, if_pos hpeek]
  rfl

theorem settles_takeArguments {fuel : Nat} (ih : ExpressionsSettle R fuel) (c : Cursor) :
    Settles 2 (takeArguments (R := R)) c (takeArguments (fuel + 1) c) := by
  by_cases hpeek : c.peek? = some .leftParen
  · rw [takeArguments_of_leftParen fuel hpeek]
    split
    · rename_i hclose
      refine ((owns_token hclose).skip hpeek).settles 1 (by decide) ?_
      rintro fuel d _ - - ⟨hd, -, hclose, -, rfl⟩
      rw [takeArguments_of_leftParen fuel hd, if_pos hclose]
    · rename_i hclose
      refine Ends.imp (ih.moreArguments _) fun r h => ?_
      refine (((owns_refl c.skip).trans h).skip hpeek).imp 1 ?_ (by decide)
      rintro fuel d d' - - ⟨hd, -, _, hcuts, rfl, hmore⟩
      rw [takeArguments_of_leftParen fuel hd, if_neg (hcuts.peek?_ne hclose), hmore]
  · rw [takeArguments, expect, if_neg hpeek]
    trivial

theorem settles_takeMoreArguments {fuel : Nat} (ih : ExpressionsSettle R fuel) (c : Cursor) :
    Settles 3 (takeMoreArguments (R := R)) c (takeMoreArguments (fuel + 1) c) := by
  rw [takeMoreArguments]
  refine (ih.expression 0 c).bind fun r h => ?_
  obtain ⟨e, c₁⟩ := r
  dsimp only
  generalize hpeek : c₁.peek? = peek
  split
  · refine (h.trans (owns_token hpeek)).settles 1 (by decide) ?_
    rintro fuel d _ - - ⟨d₁, -, hread, hd₁, -, rfl⟩
    simp only [takeMoreArguments, hread, ok_bind, hd₁]
    rfl
  · refine (ih.moreArguments _).bind fun r' h' => ?_
    refine (h.trans (h'.skip hpeek)).settles 1 (by decide) ?_
    rintro fuel d d' - - ⟨d₁, -, hread, hd₁, -, hmore⟩
    simp only [takeMoreArguments, hread, ok_bind, hd₁, hmore]
    rfl
  · trivial

theorem expressionsSettle (fuel : Nat) : ExpressionsSettle R fuel := by
  induction fuel with
  | zero => refine ⟨?_, ?_, ?_, ?_, ?_⟩ <;> intros <;> trivial
  | succ fuel ih =>
      refine ⟨?_, ?_, ?_, ?_, ?_⟩
      · intro least c
        rw [takeExpression]
        refine (ih.operand c).bind fun r h => ?_
        refine Ends.imp (ih.operators least r.1 r.2) fun r' h' => ?_
        refine (h.trans h').imp 1 ?_ (by decide)
        rintro fuel d d' - - ⟨d₁, -, hoperand, hmore⟩
        simp only [takeExpression, hoperand, ok_bind]
        exact hmore
      · exact fun least left c => settles_takeOperators ih least left c
      · exact fun c => settles_takeOperand ih c
      · exact fun c => settles_takeArguments ih c
      · exact fun c => settles_takeMoreArguments ih c

theorem settles_takeExpression (fuel least : Nat) (c : Cursor) :
    Settles 2 (fun fuel => takeExpression (R := R) fuel least) c (takeExpression fuel least c) :=
  (expressionsSettle fuel).expression least c

/-- At the end of a line stands no expression. -/
theorem takeExpression_of_end {fuel least : Nat} {d : Cursor} {r : Expr R × Cursor}
    (hd : d.peek? = none) : takeExpression fuel least d ≠ .ok r := by
  intro h
  cases fuel with
  | zero => cases h
  | succ fuel =>
      cases fuel with
      | zero => cases h
      | succ fuel =>
          simp only [takeExpression, takeOperand, hd] at h
          cases h

theorem settles_takeBareArguments (fuel : Nat) (c : Cursor) :
    Settles 3 (takeBareArguments (R := R)) c (takeBareArguments fuel c) := by
  induction fuel generalizing c with
  | zero => trivial
  | succ fuel ih =>
      rw [takeBareArguments]
      refine (settles_takeExpression fuel 0 c).bind fun r h => ?_
      obtain ⟨e, c₁⟩ := r
      dsimp only
      split
      · rename_i hpeek
        refine (ih c₁.skip).bind fun r' h' => ?_
        refine (h.trans (h'.skip hpeek)).settles 1 (by decide) ?_
        rintro fuel d d' - - ⟨d₁, -, hread, hd₁, -, hmore⟩
        simp only [takeBareArguments, hread, ok_bind, if_pos hd₁, hmore]
        rfl
      · rename_i hpeek
        refine h.settles 1 (by decide) ?_
        intro fuel d d' _ hcuts hread
        simp only [takeBareArguments, hread, ok_bind, if_neg (hcuts.peek?_ne hpeek)]
        rfl

theorem takeItems_of_expression {c : Cursor} (lineFeed : Bool) (fuel : Nat) (hend : c.atStatementEnd = false)
    (hsemicolon : c.peek? ≠ some .semicolon) (hcomma : c.peek? ≠ some .comma) :
    takeItems (R := R) lineFeed (fuel + 1) c = (do
      let (e, c) ← takeExpression fuel 0 c
      let (es, c) ← takeItems true fuel c
      return (e :: es, c)) := by
  rw [takeItems, hend]
  split
  · contradiction
  · split
    · contradiction
    · contradiction
    · rfl

theorem takeItems_of_semicolon {c : Cursor} (lineFeed : Bool) (fuel : Nat) (hpeek : c.peek? = some .semicolon) :
    takeItems (R := R) lineFeed (fuel + 1) c = takeItems false fuel c.skip := by
  rw [takeItems, atStatementEnd, hpeek]
  exact if_neg Bool.false_ne_true

theorem takeItems_of_comma {c : Cursor} (lineFeed : Bool) (fuel : Nat) (hpeek : c.peek? = some .comma) :
    takeItems (R := R) lineFeed (fuel + 1) c = (do
      let (es, c') ← takeItems false fuel c.skip
      return (.char c.skip.column '\t' :: es, c')) := by
  rw [takeItems, atStatementEnd, hpeek]
  exact if_neg Bool.false_ne_true

theorem atStatementEnd_eq {c d : Cursor} (h : d.peek? = c.peek?) : d.atStatementEnd = c.atStatementEnd := by
  rw [atStatementEnd, h, ← atStatementEnd]

theorem settles_takeItems (fuel : Nat) (lineFeed : Bool) (c : Cursor) :
    Settles 3 (fun fuel => takeItems (R := R) lineFeed fuel) c (takeItems lineFeed fuel c) := by
  induction fuel generalizing lineFeed c with
  | zero => trivial
  | succ fuel ih =>
      by_cases hend : c.atStatementEnd = true
      · rw [takeItems, if_pos hend]
        refine (owns_refl c).settles 1 (by decide) ?_
        rintro fuel d _ hcuts - rfl
        rw [takeItems, if_pos (hcuts.atStatementEnd hend), hcuts.column]
      · rw [Bool.not_eq_true] at hend
        by_cases hsemicolon : c.peek? = some .semicolon
        · rw [takeItems_of_semicolon lineFeed fuel hsemicolon]
          refine Ends.imp (ih false c.skip) fun r h => ?_
          refine (h.skip hsemicolon).imp 1 ?_ (by decide)
          rintro fuel d d' - - ⟨hd, -, hmore⟩
          simp only [takeItems_of_semicolon lineFeed fuel hd, hmore]
        · by_cases hcomma : c.peek? = some .comma
          · rw [takeItems_of_comma lineFeed fuel hcomma]
            refine (ih false c.skip).bind fun r h => ?_
            refine (h.skip hcomma).settles 1 (by decide) ?_
            rintro fuel d d' - - ⟨hd, hcolumn, hmore⟩
            simp only [takeItems_of_comma lineFeed fuel hd, hmore, hcolumn]
            rfl
          · rw [takeItems_of_expression lineFeed fuel hend hsemicolon hcomma]
            refine (settles_takeExpression fuel 0 c).bind fun r h => ?_
            refine (ih true r.2).bind fun r' h' => ?_
            have hlt : r.2.rest.length < c.rest.length :=
              h.length_lt fun _ _ _ hd => takeExpression_of_end hd
            refine (h.trans_of_le h' 1 hlt).settles 1 (by decide) ?_
            rintro fuel d d' hcuts - ⟨d₁, -, hread, hmore⟩
            -- an expression was taken, so the line does not end here
            have hd : d.peek? = c.peek? :=
              hcuts.peek?_eq fun hnone => takeExpression_of_end hnone hread
            rw [← hd] at hsemicolon hcomma
            rw [← atStatementEnd_eq hd] at hend
            simp only [takeItems_of_expression lineFeed fuel hend hsemicolon hcomma, hread, ok_bind, hmore]
            rfl

theorem takeTarget_of_end {d : Cursor} {r : Target × Cursor} (hd : d.peek? = none) :
    d.takeTarget ≠ .ok r := by
  intro h
  rw [takeTarget, hd] at h
  cases h

theorem peek?_of_takeAssignment {fuel : Nat} {column : Column} {v : Variable} {d : Cursor}
    {r : Stmt R × Cursor} (h : takeAssignment fuel column v d = .ok r) :
    d.peek? = some (.operator .equal) := by
  by_contra hne
  rw [takeAssignment, expect, if_neg hne] at h
  cases h

theorem takeVariable_of_end {d : Cursor} {r : Variable × Cursor} (hd : d.peek? = none) :
    d.takeVariable ≠ .ok r := by
  intro h
  rw [takeVariable, hd] at h
  cases h

theorem settles_takeAssignment (fuel : Nat) (column : Column) (v : Variable) (c : Cursor) :
    Settles 2 (fun fuel => takeAssignment (R := R) fuel column v) c (takeAssignment fuel column v c) := by
  rw [takeAssignment]
  refine (settles_expect _ c).bind fun c₁ h₁ => ?_
  refine (settles_takeExpression fuel 0 c₁).bind fun r h => ?_
  refine (h₁.trans h).settles 0 (by decide) ?_
  rintro fuel d d' - - ⟨d₁, -, hequal, hread⟩
  simp only [takeAssignment, Nat.add_zero, hequal, ok_bind, hread]
  rfl

theorem takeBareArguments_of_end {fuel : Nat} {d : Cursor} {r : List (Expr R) × Cursor}
    (hd : d.peek? = none) : takeBareArguments fuel d ≠ .ok r := by
  intro h
  cases fuel with
  | zero => cases h
  | succ fuel =>
      rw [takeBareArguments] at h
      obtain ⟨_, hread, _⟩ := Stmt.bind_eq_ok h
      exact takeExpression_of_end hd hread

theorem settles_takeNativeCall (fuel : Nat) (column : Column) (name : String) (c : Cursor) :
    Settles 3 (fun fuel => takeNativeCall (R := R) fuel column name) c
      (takeNativeCall fuel column name c) := by
  rw [takeNativeCall]
  split
  · refine ((expressionsSettle fuel).arguments c).bind fun r h => ?_
    refine h.settles 0 (by decide) fun fuel d d' _ _ hread => ?_
    simp only [takeNativeCall, Nat.add_zero, if_pos (peek?_of_takeArguments hread), hread]
    rfl
  · rename_i hparen
    split
    · rename_i hend
      refine (owns_refl c).settles 0 (by decide) ?_
      rintro fuel d _ hcuts - rfl
      rw [takeNativeCall, if_neg (hcuts.peek?_ne hparen), if_pos (hcuts.atStatementEnd hend)]
      rfl
    · rename_i hend
      refine (settles_takeBareArguments fuel c).bind fun r h => ?_
      refine h.settles 0 (by decide) fun fuel d d' hcuts _ hread => ?_
      have hd : d.peek? = c.peek? :=
        hcuts.peek?_eq fun hnone => takeBareArguments_of_end hnone hread
      rw [← atStatementEnd_eq hd] at hend
      simp only [takeNativeCall, Nat.add_zero, if_neg (hcuts.peek?_ne hparen), if_neg hend, hread]
      rfl

theorem settles_takeLoop (fuel : Nat) (column : Column) (c : Cursor) :
    Settles 2 (fun fuel => takeLoop (R := R) fuel column) c (takeLoop fuel column c) := by
  rw [takeLoop]
  refine (settles_takeVariable c).bind ?_
  rintro ⟨v, c₁⟩ h₁
  refine (settles_expect _ c₁).bind fun c₂ h₂ => ?_
  refine (settles_takeExpression fuel 0 c₂).bind ?_
  rintro ⟨start, c₃⟩ h₃
  refine (settles_expect _ c₃).bind fun c₄ h₄ => ?_
  refine (settles_takeExpression fuel 0 c₄).bind ?_
  rintro ⟨limit, c₅⟩ h₅
  dsimp only at h₁ h₃ h₅ ⊢
  split
  · rename_i hpeek
    refine (settles_takeExpression fuel 0 c₅.skip).bind ?_
    rintro ⟨step, c₆⟩ h₆
    refine (h₁.trans (h₂.trans (h₃.trans (h₄.trans (h₅.trans (h₆.skip hpeek)))))).settles 0 (by decide) ?_
    rintro fuel d d' - -
      ⟨d₁, -, hv, d₂, -, hequal, d₃, -, hstart, d₄, -, hto, d₅, -, hlimit, hd₅, -, hstep⟩
    simp only [takeLoop, Nat.add_zero, hv, ok_bind, hequal, hstart, hto, hlimit, if_pos hd₅, hstep]
    rfl
  · rename_i hpeek
    refine (h₁.trans (h₂.trans (h₃.trans (h₄.trans h₅)))).settles 0 (by decide) ?_
    rintro fuel d d' - hcuts ⟨d₁, -, hv, d₂, -, hequal, d₃, -, hstart, d₄, -, hto, hlimit⟩
    simp only [takeLoop, Nat.add_zero, hv, ok_bind, hequal, hstart, hto, hlimit, if_neg (hcuts.peek?_ne hpeek)]
    rfl

/-- What the readers of statements take settles what they get, with a given fuel. -/
structure StatementsSettle (R : Type) [NumberSystem R] (fuel : Nat) : Prop where
  statement : ∀ c : Cursor, Settles 2 (takeStatement (R := R)) c (takeStatement fuel c)
  thenBody : ∀ c : Cursor, Settles 3 (takeThenBody (R := R)) c (takeThenBody fuel c)
  body : ∀ c : Cursor, Settles 4 (takeBody (R := R)) c (takeBody fuel c)
  bodyStatements : ∀ c : Cursor, Settles 3 (takeBodyStatements (R := R)) c (takeBodyStatements fuel c)

/-- At the end of a line stands no statement. -/
theorem takeStatement_of_end {fuel : Nat} {d : Cursor} {r : Stmt R × Cursor}
    (hd : d.peek? = none) : takeStatement fuel d ≠ .ok r := by
  intro h
  cases fuel with
  | zero => cases h
  | succ fuel =>
      simp only [takeStatement, hd] at h
      cases h

theorem settles_takeStatement {fuel : Nat} (ih : StatementsSettle R fuel) (c : Cursor) :
    Settles 2 (takeStatement (R := R)) c (takeStatement (fuel + 1) c) := by
  rw [takeStatement]
  dsimp only
  generalize hpeek : c.peek? = peek
  split
  · split
    · rename_i hequal
      refine Ends.imp (settles_takeAssignment fuel _ _ _) fun r h => ?_
      refine (h.skip hpeek).imp 1 ?_ (by decide)
      rintro fuel d d' - - ⟨hd, hcolumn, hread⟩
      simp only [takeStatement, hd, if_pos (peek?_of_takeAssignment hread), hcolumn, hread]
    · rename_i hequal
      refine Ends.imp (settles_takeNativeCall fuel _ _ _) fun r h => ?_
      refine (h.skip hpeek).imp 1 ?_ (by decide)
      rintro fuel d d' hcuts - ⟨hd, hcolumn, hread⟩
      simp only [takeStatement, hd, if_neg ((hcuts.skip hd).peek?_ne hequal), hcolumn, hread]
  · refine (owns_token hpeek).settles 1 (by decide) ?_
    rintro fuel d _ - - ⟨hd, hcolumn, rfl⟩
    simp only [takeStatement, hd, hcolumn]
  · refine (settles_takeItems fuel true _).bind fun r h => ?_
    refine (h.skip hpeek).settles 1 (by decide) ?_
    rintro fuel d d' - - ⟨hd, hcolumn, hread⟩
    simp only [takeStatement, hd, hread, hcolumn]
    rfl
  · refine (settles_takeVariable _).bind fun r h => ?_
    refine Ends.imp (settles_takeAssignment fuel _ _ _) fun r' h' => ?_
    refine ((h.trans h').skip hpeek).imp 1 ?_ (by decide)
    rintro fuel d d' - - ⟨hd, hcolumn, d₁, -, hv, hread⟩
    simp only [takeStatement, hd, hcolumn, hv, ok_bind, hread]
  · refine (settles_takeTarget _).bind fun r h => ?_
    refine (h.skip hpeek).settles 1 (by decide) ?_
    rintro fuel d d' - - ⟨hd, hcolumn, hread⟩
    simp only [takeStatement, hd, hread, hcolumn]
    rfl
  · refine (settles_takeTarget _).bind fun r h => ?_
    refine (h.skip hpeek).settles 1 (by decide) ?_
    rintro fuel d d' - - ⟨hd, hcolumn, hread⟩
    simp only [takeStatement, hd, hread, hcolumn]
    rfl
  · refine (owns_token hpeek).settles 1 (by decide) ?_
    rintro fuel d _ - - ⟨hd, hcolumn, rfl⟩
    simp only [takeStatement, hd, hcolumn]
  · refine (owns_token hpeek).settles 1 (by decide) ?_
    rintro fuel d _ - - ⟨hd, hcolumn, rfl⟩
    simp only [takeStatement, hd, hcolumn]
  · refine (settles_takeExpression fuel 0 _).bind ?_
    rintro ⟨condition, c₁⟩ h₁
    refine (ih.thenBody c₁).bind ?_
    rintro ⟨thenBody, c₂⟩ h₂
    dsimp only at h₁ h₂ ⊢
    split
    · rename_i helse
      refine (ih.body c₂.skip).bind ?_
      rintro ⟨elseBody, c₃⟩ h₃
      refine ((h₁.trans (h₂.trans (h₃.skip helse))).skip hpeek).settles 1 (by decide) ?_
      rintro fuel d d' - - ⟨hd, hcolumn, d₁, -, hcondition, d₂, -, hthen, hd₂, -, helse⟩
      simp only [takeStatement, hd, hcolumn, hcondition, ok_bind, hthen, if_pos hd₂, helse]
      rfl
    · rename_i helse
      refine ((h₁.trans h₂).skip hpeek).settles 1 (by decide) ?_
      rintro fuel d d' - hcuts ⟨hd, hcolumn, d₁, -, hcondition, hthen⟩
      simp only [takeStatement, hd, hcolumn, hcondition, ok_bind, hthen, if_neg (hcuts.peek?_ne helse)]
      rfl
  · refine Ends.imp (settles_takeLoop fuel _ _) fun r h => ?_
    refine (h.skip hpeek).imp 1 ?_ (by decide)
    rintro fuel d d' - - ⟨hd, hcolumn, hread⟩
    simp only [takeStatement, hd, hcolumn, hread]
  · split
    · rename_i hend
      refine (owns_token hpeek).settles 1 (by decide) ?_
      rintro fuel d _ - hcuts ⟨hd, hcolumn, rfl⟩
      simp only [takeStatement, hd, if_pos (hcuts.atStatementEnd hend), hcolumn]
    · rename_i hend
      refine (settles_takeVariable _).bind fun r h => ?_
      refine (h.skip hpeek).settles 1 (by decide) ?_
      rintro fuel d d' hcuts - ⟨hd, hcolumn, hread⟩
      have hnext : d.skip.peek? = c.skip.peek? :=
        (hcuts.skip hd).peek?_eq fun hnone => takeVariable_of_end hnone hread
      rw [← atStatementEnd_eq hnext] at hend
      simp only [takeStatement, hd, if_neg hend, hread, hcolumn]
      rfl
  · generalize hremark : c.skip.peek? = remark
    split
    · refine ((owns_token hremark).skip hpeek).settles 1 (by decide) ?_
      rintro fuel d _ - - ⟨hd, hcolumn, hremark, -, rfl⟩
      simp only [takeStatement, hd, hremark, hcolumn]
    · rename_i hremarks
      refine (owns_token hpeek).settles 1 (by decide) ?_
      rintro fuel d _ - hcuts ⟨hd, hcolumn, rfl⟩
      have hnext (text : String) : d.skip.peek? ≠ some (.remark text) :=
        hcuts.peek?_ne fun h => hremarks text (hremark ▸ h)
      simp only [takeStatement, hd, hcolumn]
  · trivial

theorem settles_takeThenBody {fuel : Nat} (ih : StatementsSettle R fuel) (c : Cursor) :
    Settles 3 (takeThenBody (R := R)) c (takeThenBody (fuel + 1) c) := by
  rw [takeThenBody]
  split
  · rename_i hpeek
    refine (settles_takeTarget c.skip).bind fun r h => ?_
    refine (h.skip hpeek).settles 1 (by decide) ?_
    rintro fuel d d' - - ⟨hd, hcolumn, hread⟩
    simp only [takeThenBody, if_pos hd, hread, hcolumn]
    rfl
  · rename_i hgoto
    by_cases hpeek : c.peek? = some (.keyword .then)
    · rw [expect, if_pos hpeek, ok_bind]
      refine Ends.imp (ih.body c.skip) fun r h => ?_
      refine (h.skip hpeek).imp 1 ?_ (by decide)
      rintro fuel d d' hcuts - ⟨hd, -, hread⟩
      simp only [takeThenBody, if_neg (hcuts.peek?_ne hgoto), expect, if_pos hd, ok_bind, hread]
    · rw [expect, if_neg hpeek]
      trivial

theorem settles_takeBody {fuel : Nat} (ih : StatementsSettle R fuel) (c : Cursor) :
    Settles 4 (takeBody (R := R)) c (takeBody (fuel + 1) c) := by
  rw [takeBody]
  generalize hpeek : c.peek? = peek
  split
  · refine (settles_takeTarget c).bind fun r h => ?_
    refine h.settles 1 (by decide) fun fuel d d' hcuts _ hread => ?_
    have hd : d.peek? = c.peek? := hcuts.peek?_eq fun hnone => takeTarget_of_end hnone hread
    simp only [takeBody, hd, hpeek, hread]
    rfl
  · rename_i hnumbers
    refine Ends.imp (ih.bodyStatements c) fun r h => ?_
    refine h.imp 1 (fun fuel d d' hcuts _ hread => ?_) (by decide)
    have hd (digits : String) : d.peek? ≠ some (.number digits) :=
      hcuts.peek?_ne fun hc => hnumbers digits (hpeek ▸ hc)
    simp only [takeBody, hread]

theorem settles_takeBodyStatements {fuel : Nat} (ih : StatementsSettle R fuel) (c : Cursor) :
    Settles 3 (takeBodyStatements (R := R)) c (takeBodyStatements (fuel + 1) c) := by
  rw [takeBodyStatements]
  generalize hpeek : c.peek? = peek
  split
  · refine (owns_refl c).settles 1 (by decide) ?_
    rintro fuel _ d hcuts - rfl
    have hd : d.peek? = none := hcuts.peek?_cases.elim id fun hd => hd.trans hpeek
    simp only [takeBodyStatements, hd]
  · refine (owns_refl c).settles 1 (by decide) ?_
    rintro fuel d _ hcuts - rfl
    rcases hcuts.peek?_cases with hd | hd
    · simp only [takeBodyStatements, hd]
    · simp only [takeBodyStatements, hd, hpeek]
  · refine Ends.imp (ih.bodyStatements c.skip) fun r h => ?_
    refine (h.skip hpeek).imp 1 ?_ (by decide)
    rintro fuel d d' hcuts - ⟨hd, -, hread⟩
    simp only [takeBodyStatements, hd, hread]
  · refine (ih.statement c).bind fun r h => ?_
    refine (ih.bodyStatements r.2).bind fun r' h' => ?_
    have hlt : r.2.rest.length < c.rest.length :=
      h.length_lt fun _ _ _ hd => takeStatement_of_end hd
    refine (h.trans_of_le h' 1 hlt).settles 1 (by decide) ?_
    rintro fuel d d' hcuts - ⟨d₁, -, hread, hmore⟩
    have hd : d.peek? = c.peek? := hcuts.peek?_eq fun hnone => takeStatement_of_end hnone hread
    simp only [takeBodyStatements, hd, hpeek, hread, ok_bind, hmore]
    rfl

theorem statementsSettle (fuel : Nat) : StatementsSettle R fuel := by
  induction fuel with
  | zero => refine ⟨?_, ?_, ?_, ?_⟩ <;> intros <;> trivial
  | succ fuel ih =>
      exact ⟨fun c => settles_takeStatement ih c, fun c => settles_takeThenBody ih c,
        fun c => settles_takeBody ih c, fun c => settles_takeBodyStatements ih c⟩

theorem takeStatement_column (fuel : Nat) (t : Column × Token) (tokens : List (Column × Token))
    (column column' : Column) :
    takeStatement (R := R) (fuel + 1) { rest := t :: tokens, column } =
      takeStatement (fuel + 1) { rest := t :: tokens, column := column' } := by
  simp only [takeStatement]
  rfl

/-- Tokens are read as an expression where nothing else stands. -/
def IsReadFrom (e : Expr R) (tokens : List (Column × Token)) : Prop :=
  ∃ fuel c c', c.rest = tokens ∧ takeExpression fuel 0 c = .ok (e, c') ∧ c'.rest = []

/-- An expression is read from its own tokens. -/
theorem exists_of_takeExpression {fuel : Nat} {c c' : Cursor} {e : Expr R}
    (h : takeExpression fuel 0 c = .ok (e, c')) :
    ∃ own, c.rest = own ++ c'.rest ∧ IsReadFrom e own := by
  have hsettles := settles_takeExpression (R := R) fuel 0 c
  rw [h] at hsettles
  obtain ⟨own, hrest, hown⟩ := hsettles
  have hread := hown { rest := [], column := c'.column } _ ⟨rfl, List.nil_prefix⟩ (Nat.le_refl _)
  exact ⟨own, hrest, _, _, _, List.append_nil own, hread, rfl⟩

theorem takeStatement_of_colon {fuel : Nat} {d : Cursor} {r : Stmt R × Cursor}
    (hd : d.peek? = some .colon) : takeStatement fuel d ≠ .ok r := by
  intro h
  cases fuel with
  | zero => cases h
  | succ fuel =>
      simp only [takeStatement, hd] at h
      cases h

theorem takeStatements_of_last {fuel : Nat} {c c' : Cursor} {s : Stmt R}
    (h : takeStatement (fuel + 1) c = .ok (s, c')) (hend : c'.peek? = none) :
    takeStatements (fuel + 2) c = .ok [s] := by
  rw [takeStatements]
  split
  · rename_i hnone
    exact absurd h (takeStatement_of_end hnone)
  · rename_i hcolon
    exact absurd h (takeStatement_of_colon hcolon)
  · simp only [h, ok_bind, hend, takeStatements]
    rfl

/-- A statement is read from its own tokens on a line of their own. -/
theorem exists_of_takeStatement {fuel : Nat} {c c' : Cursor} {s : Stmt R}
    (h : takeStatement fuel c = .ok (s, c')) :
    ∃ own, c.rest = own ++ c'.rest ∧ Stmt.parse own = .ok [s] := by
  have hsettles := (statementsSettle (R := R) fuel).statement c
  rw [h] at hsettles
  obtain ⟨own, hrest, hown⟩ := hsettles
  refine ⟨own, hrest, ?_⟩
  have hread := hown { rest := [], column := c'.column } (4 * own.length + 7) ⟨rfl, List.nil_prefix⟩ (by omega)
  simp only [List.append_nil] at hread
  cases own with
  | nil => exact absurd hread (takeStatement_of_end rfl)
  | cons t own =>
      rw [takeStatement_column _ t own c.column {}] at hread
      exact takeStatements_of_last hread rfl

end Cursor
end LineBasic
