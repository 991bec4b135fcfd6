import LineBasic.Proofs.OwnTokens

namespace LineBasic

variable {R : Type}

namespace Token

def AreColons (tokens : List (Column × Token)) : Prop :=
  ∀ t ∈ tokens, t.2 = .colon

/-- The tokens of a statement that only ends in front of a colon, of ELSE, or at the end of the line: PRINT, NEXT without a
variable, and a call without parentheses and arguments. -/
def RunsOn : List Token → Prop
  | .keyword .print :: _ | [.keyword .next] | [.name _] => True
  | _ => False

end Token

open Token

namespace Stmt

/-- A statement that is no IF. -/
def IsPlain : Stmt R → Prop
  | .if _ _ _ _ => False
  | _ => True

/-- The tokens of statements that follow one another. Each statement has its own ones; in front of them, between them and behind
them stand colons alone. Between two statements stands at least one, unless the tokens of the first may touch what follows. -/
inductive Separated (MayTouch : List Token → Prop) (Stands : Stmt R → List (Column × Token) → Prop) :
    List (Stmt R) → List (Column × Token) → Prop where
  | nil {gap : List (Column × Token)} : AreColons gap → Separated MayTouch Stands [] gap
  | cons {gap own more : List (Column × Token)} {s : Stmt R} {ss : List (Stmt R)} :
      AreColons gap → Stands s own → Separated MayTouch Stands ss more →
      (ss ≠ [] → ¬MayTouch (own.map Prod.snd) → more.head?.map Prod.snd = some .colon) →
      Separated MayTouch Stands (s :: ss) (gap ++ (own ++ more))

/-- The tokens of a keyword and of the body behind it: a line number, or statements that touch only where the first does not run
on. There may be no ELSE at all. -/
inductive StandsBehind (Stands : Stmt R → List (Column × Token) → Prop) :
    Keyword → List (Stmt R) → List (Column × Token) → Prop where
  | target {word : Keyword} {column column' : Column} {t : Target} {digits : String} :
      StandsBehind Stands word [.goto column' t] [(column, .keyword word), (t.column, .number digits)]
  | statements {word : Keyword} {column : Column} {ss : List (Stmt R)} {own : List (Column × Token)} :
      Separated (fun tokens => ¬RunsOn tokens) Stands ss own →
      StandsBehind Stands word ss ((column, .keyword word) :: own)
  | noElse : StandsBehind Stands .else [] []

variable [NumberSystem R]

/-- The tokens of a statement. On a line of their own they are read as this statement; the bodies of an IF stand among them. -/
inductive Stands : Stmt R → List (Column × Token) → Prop where
  | plain {s : Stmt R} {own : List (Column × Token)} :
      s.IsPlain → Stmt.parse own = .ok [s] → Stands s own
  | branch {column : Column} {condition : Expr R} {thenBody elseBody : List (Stmt R)}
      {conditionTokens thenTokens elseTokens : List (Column × Token)} {word : Keyword} :
      Stmt.parse ((column, .keyword .if) :: (conditionTokens ++ (thenTokens ++ elseTokens))) =
        .ok [.if column condition thenBody elseBody] →
      Cursor.IsReadFrom condition conditionTokens →
      word = .then ∨ word = .goto → StandsBehind Stands word thenBody thenTokens →
      StandsBehind Stands .else elseBody elseTokens →
      Stands (.if column condition thenBody elseBody)
        ((column, .keyword .if) :: (conditionTokens ++ (thenTokens ++ elseTokens)))

theorem Stands.ne_nil {s : Stmt R} {own : List (Column × Token)} (h : Stands s own) : own ≠ [] := by
  cases h with
  | plain _ hparse =>
      rintro rfl
      cases hparse
  | branch => exact List.cons_ne_nil _ _

section Separated

variable {MayTouch : List Token → Prop} {ss : List (Stmt R)} {own : List (Column × Token)} {column : Column}

theorem Separated.ne_nil (h : Separated MayTouch Stands ss own) (hne : ss ≠ []) : own ≠ [] := by
  cases h with
  | nil => exact absurd rfl hne
  | cons _ hs _ _ => simp [hs.ne_nil]

theorem Separated.colon (h : Separated MayTouch Stands ss own) :
    Separated MayTouch Stands ss ((column, .colon) :: own) := by
  cases h with
  | nil hgap => exact .nil (List.forall_mem_cons.mpr ⟨rfl, hgap⟩)
  | cons hgap hs hss htouch =>
      rw [← List.cons_append]
      exact .cons (List.forall_mem_cons.mpr ⟨rfl, hgap⟩) hs hss htouch

/-- A statement in front of others, with no colon in front of it. -/
theorem Separated.statement {s : Stmt R} {more : List (Column × Token)} (hs : Stands s own)
    (hss : Separated MayTouch Stands ss more)
    (htouch : ss ≠ [] → ¬MayTouch (own.map Prod.snd) → more.head?.map Prod.snd = some .colon) :
    Separated MayTouch Stands (s :: ss) (own ++ more) :=
  .cons (List.forall_mem_nil _ : AreColons []) hs hss htouch

end Separated

end Stmt

namespace Cursor

open Stmt

variable [NumberSystem R] {fuel : Nat} {c c' : Cursor} {s : Stmt R} {own : List (Column × Token)}

/-- If a reader of statements succeeds, then it gets no IF. -/
abbrev GetsPlain : Except Error (Stmt R × Cursor) → Prop :=
  Ends (fun _ => True) fun r => r.1.IsPlain

omit [NumberSystem R] in
theorem getsPlain_bind {α : Type} {x : Except Error α} {f : α → Except Error (Stmt R × Cursor)}
    (hf : ∀ a, GetsPlain (f a)) : GetsPlain (x >>= f) := by
  cases x with
  | error e => trivial
  | ok a => exact hf a

theorem getsPlain_takeAssignment (fuel : Nat) (column : Column) (v : Variable) (c : Cursor) :
    GetsPlain (R := R) (takeAssignment fuel column v c) :=
  getsPlain_bind fun _ => getsPlain_bind fun _ => trivial

theorem getsPlain_takeNativeCall (fuel : Nat) (column : Column) (name : String) (c : Cursor) :
    GetsPlain (R := R) (takeNativeCall fuel column name c) := by
  rw [takeNativeCall]
  split
  · exact getsPlain_bind fun _ => trivial
  · split
    · exact trivial
    · exact getsPlain_bind fun _ => trivial

theorem getsPlain_takeLoop (fuel : Nat) (column : Column) (c : Cursor) :
    GetsPlain (R := R) (takeLoop fuel column c) := by
  rw [takeLoop]
  refine getsPlain_bind fun _ => getsPlain_bind fun _ => getsPlain_bind fun _ =>
    getsPlain_bind fun _ => getsPlain_bind fun _ => ?_
  dsimp only
  split
  · exact getsPlain_bind fun _ => trivial
  · exact trivial

theorem getsPlain_takeStatement (hif : c.peek? ≠ some (.keyword .if)) :
    GetsPlain (R := R) (takeStatement (fuel + 1) c) := by
  rw [takeStatement]
  dsimp only
  generalize hpeek : c.peek? = peek
  split
  · split
    · exact getsPlain_takeAssignment _ _ _ _
    · exact getsPlain_takeNativeCall _ _ _ _
  · exact trivial
  · exact getsPlain_bind fun _ => trivial
  · exact getsPlain_bind fun _ => getsPlain_takeAssignment _ _ _ _
  · exact getsPlain_bind fun _ => trivial
  · exact getsPlain_bind fun _ => trivial
  · exact trivial
  · exact trivial
  · exact absurd hpeek hif
  · exact getsPlain_takeLoop _ _ _
  · split
    · exact trivial
    · exact getsPlain_bind fun _ => trivial
  · split
    · exact trivial
    · exact trivial
  · trivial

theorem atStatementEnd_of_takeItems {lineFeed : Bool} {items : List (Expr R)}
    (h : takeItems lineFeed fuel c = .ok (items, c')) : c'.atStatementEnd = true := by
  induction fuel generalizing lineFeed items c with
  | zero => cases h
  | succ fuel ih =>
      rw [takeItems] at h
      split at h
      · rename_i hend
        cases h
        exact hend
      · split at h
        · exact ih h
        · obtain ⟨r, hmore, h⟩ := bind_eq_ok h
          cases h
          exact ih hmore
        · obtain ⟨_, -, h⟩ := bind_eq_ok h
          obtain ⟨r, hmore, h⟩ := bind_eq_ok h
          cases h
          exact ih hmore

theorem rest_ne_of_settles {α : Type} {slack : Nat} {read : Nat → Cursor → Except Error (α × Cursor)}
    {r : α × Cursor} {x : Except Error (α × Cursor)} (h : Settles slack read c x) (hx : x = .ok r)
    (hend : ∀ fuel d r, d.peek? = none → read fuel d ≠ .ok r) : r.2.rest ≠ c.rest := by
  subst hx
  intro heq
  have howns : Owns slack c r.2 fun fuel d d' => read fuel d = .ok (r.1, d') := h
  have hlt : r.2.rest.length < c.rest.length := howns.length_lt fun fuel d _ hd => hend fuel d _ hd
  rw [heq] at hlt
  exact Nat.lt_irrefl _ hlt

theorem atStatementEnd_of_next (hpeek : c.peek? = some (.keyword .next))
    (h : takeStatement fuel c = .ok (s, c')) (hrest : c'.rest = c.skip.rest) :
    c'.atStatementEnd = true := by
  cases fuel with
  | zero => cases h
  | succ fuel =>
      simp only [takeStatement, hpeek] at h
      split at h
      · rename_i hend
        cases h
        exact hend
      · obtain ⟨r, hread, h⟩ := bind_eq_ok h
        cases h
        exact absurd hrest (rest_ne_of_settles (settles_takeVariable _) hread fun _ _ _ => takeVariable_of_end)

theorem atStatementEnd_of_name {name : String} (hpeek : c.peek? = some (.name name))
    (h : takeStatement fuel c = .ok (s, c')) (hrest : c'.rest = c.skip.rest) :
    c'.atStatementEnd = true := by
  cases fuel with
  | zero => cases h
  | succ fuel =>
      simp only [takeStatement, hpeek] at h
      split at h
      · refine absurd hrest (rest_ne_of_settles (settles_takeAssignment _ _ _ _) h fun _ _ _ hd hread => ?_)
        cases hd.symm.trans (peek?_of_takeAssignment hread)
      · rw [takeNativeCall] at h
        split at h
        · obtain ⟨r, hread, h⟩ := bind_eq_ok h
          cases h
          refine absurd hrest (rest_ne_of_settles ((expressionsSettle fuel).arguments _) hread ?_)
          intro _ _ _ hd hread
          cases hd.symm.trans (peek?_of_takeArguments hread)
        · split at h
          · rename_i hend
            cases h
            exact hend
          · obtain ⟨r, hread, h⟩ := bind_eq_ok h
            cases h
            refine absurd hrest (rest_ne_of_settles (settles_takeBareArguments fuel _) hread ?_)
            exact fun _ _ _ => takeBareArguments_of_end

theorem atStatementEnd_of_print (hpeek : c.peek? = some (.keyword .print))
    (h : takeStatement fuel c = .ok (s, c')) : c'.atStatementEnd = true := by
  cases fuel with
  | zero => cases h
  | succ fuel =>
      simp only [takeStatement, hpeek] at h
      obtain ⟨r, hread, h⟩ := bind_eq_ok h
      cases h
      exact atStatementEnd_of_takeItems hread

theorem atStatementEnd_of_runsOn (h : takeStatement fuel c = .ok (s, c')) (hrest : c.rest = own ++ c'.rest)
    (hrun : RunsOn (own.map Prod.snd)) : c'.atStatementEnd = true := by
  cases own with
  | nil => exact hrun.elim
  | cons t own =>
      have hpeek : c.peek? = some t.2 := by
        rw [peek?, hrest]
        rfl
      have hskip : c.skip.rest = own ++ c'.rest := by
        rw [skip, hrest]
        rfl
      have halone (htokens : own.map Prod.snd = []) : c'.rest = c.skip.rest := by
        rw [hskip, List.map_eq_nil_iff.mp htokens, List.nil_append]
      rw [List.map_cons] at hrun
      generalize htokens : own.map Prod.snd = tokens at hrun halone
      generalize htoken : t.2 = token at hrun hpeek
      unfold RunsOn at hrun
      split at hrun
      · rename_i heq
        cases heq
        exact atStatementEnd_of_print hpeek h
      · rename_i heq
        cases heq
        exact atStatementEnd_of_next hpeek h (halone rfl)
      · rename_i heq
        cases heq
        exact atStatementEnd_of_name hpeek h (halone rfl)
      · exact hrun.elim

/-- If a reader succeeds, then what it gets stands in the tokens it takes. -/
abbrev GetsStanding {α : Type} (stands : α → List (Column × Token) → Prop) (c : Cursor) :
    Except Error (α × Cursor) → Prop :=
  Ends (fun _ => True) fun r => ∃ own, c.rest = own ++ r.2.rest ∧ stands r.1 own

/-- What the readers of statements get stands in the tokens they take, with a given fuel. -/
structure StatementsStand (R : Type) [NumberSystem R] (fuel : Nat) : Prop where
  statement : ∀ c : Cursor, GetsStanding (Stands (R := R)) c (takeStatement fuel c)
  thenBody : ∀ c : Cursor,
    GetsStanding (fun ss own => ∃ word, (word = .then ∨ word = .goto) ∧ StandsBehind (Stands (R := R)) word ss own) c
      (takeThenBody fuel c)
  body : ∀ (word : Keyword) (column : Column) (c : Cursor),
    GetsStanding (fun ss own => StandsBehind (Stands (R := R)) word ss ((column, .keyword word) :: own)) c
      (takeBody fuel c)
  bodyStatements : ∀ c : Cursor,
    GetsStanding (Separated (fun tokens => ¬RunsOn tokens) (Stands (R := R))) c (takeBodyStatements fuel c)

theorem getsStanding_if (ih : StatementsStand R fuel) (hpeek : c.peek? = some (.keyword .if)) :
    GetsStanding (Stands (R := R)) c (takeStatement (fuel + 1) c) := by
  cases h : takeStatement (R := R) (fuel + 1) c with
  | error e => trivial
  | ok r =>
      obtain ⟨s, c'⟩ := r
      obtain ⟨own, hrest, hparse⟩ := exists_of_takeStatement h
      simp only [takeStatement, hpeek] at h
      obtain ⟨⟨condition, c₁⟩, hcondition, h⟩ := bind_eq_ok h
      obtain ⟨⟨thenBody, c₂⟩, hthen, h⟩ := bind_eq_ok h
      obtain ⟨conditionTokens, hrest₁, hread⟩ := exists_of_takeExpression hcondition
      have hstand := ih.thenBody c₁
      rw [hthen] at hstand
      obtain ⟨thenTokens, hrest₂, word, hword, hstandThen⟩ := hstand
      -- with an ELSE and without one the tokens of the whole are those of its parts
      have hall (elseBody : List (Stmt R)) (elseTokens : List (Column × Token))
          (hs : s = .if c.skip.column condition thenBody elseBody) (hrest₃ : c₂.rest = elseTokens ++ c'.rest)
          (hstandElse : StandsBehind Stands .else elseBody elseTokens) : Stands s own := by
        have hown : own = (c.skip.column, .keyword .if) :: (conditionTokens ++ (thenTokens ++ elseTokens)) := by
          rw [exists_rest hpeek, hrest₁, hrest₂, hrest₃] at hrest
          rw [← List.append_cancel_right_eq own c'.rest, ← hrest]
          simp only [List.cons_append, List.append_assoc]
        rw [hs, hown]
        rw [hs, hown] at hparse
        exact .branch hparse hread hword hstandThen hstandElse
      refine ⟨own, hrest, ?_⟩
      dsimp only at h
      split at h
      · rename_i helse
        obtain ⟨⟨elseBody, c₃⟩, helseBody, h⟩ := bind_eq_ok h
        have hstand := ih.body .else c₂.skip.column c₂.skip
        rw [helseBody] at hstand
        obtain ⟨elseTokens, hrest₃, hstandElse⟩ := hstand
        cases h
        refine hall elseBody _ rfl ?_ hstandElse
        rw [exists_rest helse, hrest₃, List.cons_append]
      · cases h
        exact hall [] [] rfl (List.nil_append _).symm .noElse

theorem getsStanding_takeStatement (ih : StatementsStand R fuel) (c : Cursor) :
    GetsStanding (Stands (R := R)) c (takeStatement (fuel + 1) c) := by
  by_cases hpeek : c.peek? = some (.keyword .if)
  · exact getsStanding_if ih hpeek
  · have hplain : GetsPlain (takeStatement (R := R) (fuel + 1) c) := getsPlain_takeStatement hpeek
    cases h : takeStatement (R := R) (fuel + 1) c with
    | error e => trivial
    | ok r =>
        rw [h] at hplain
        obtain ⟨own, hrest, hparse⟩ := exists_of_takeStatement h
        exact ⟨own, hrest, .plain hplain hparse⟩

theorem getsStanding_target (word : Keyword) (column : Column) (column' : Column → Column) (c : Cursor) :
    GetsStanding (fun ss own => StandsBehind (Stands (R := R)) word ss ((column, .keyword word) :: own)) c (do
      let (t, c) ← c.takeTarget
      return ([.goto (column' t.column) t], c)) := by
  rw [takeTarget]
  split
  · rename_i digits hpeek
    split
    · exact ⟨[(c.skip.column, .number digits)], exists_rest hpeek, .target⟩
    · trivial
  · trivial

theorem getsStanding_takeThenBody (ih : StatementsStand R fuel) (c : Cursor) :
    GetsStanding (fun ss own => ∃ word, (word = .then ∨ word = .goto) ∧ StandsBehind (Stands (R := R)) word ss own) c
      (takeThenBody (fuel + 1) c) := by
  rw [takeThenBody]
  split
  · rename_i hpeek
    refine Ends.imp (getsStanding_target .goto c.skip.column (fun _ => c.skip.column) c.skip) ?_
    rintro r ⟨own, hrest, hstand⟩
    exact ⟨_, (exists_rest hpeek).trans (congrArg _ hrest), .goto, .inr rfl, hstand⟩
  · by_cases hpeek : c.peek? = some (.keyword .then)
    · rw [expect, if_pos hpeek, ok_bind]
      refine Ends.imp (ih.body .then c.skip.column c.skip) ?_
      rintro r ⟨own, hrest, hstand⟩
      exact ⟨_, (exists_rest hpeek).trans (congrArg _ hrest), .then, .inl rfl, hstand⟩
    · rw [expect, if_neg hpeek]
      trivial

theorem getsStanding_takeBody (ih : StatementsStand R fuel) (word : Keyword) (column : Column) (c : Cursor) :
    GetsStanding (fun ss own => StandsBehind (Stands (R := R)) word ss ((column, .keyword word) :: own)) c
      (takeBody (fuel + 1) c) := by
  rw [takeBody]
  split
  · exact getsStanding_target word column id c
  · refine Ends.imp (ih.bodyStatements c) ?_
    rintro r ⟨own, hrest, hstand⟩
    exact ⟨own, hrest, .statements hstand⟩

theorem peek?_of_rest (hrest : c.rest = own ++ c'.rest) (hne : own ≠ []) :
    c.peek? = own.head?.map Prod.snd := by
  cases own with
  | nil => exact absurd rfl hne
  | cons t own =>
      rw [peek?, hrest]
      rfl

theorem peek?_of_takeBodyStatements {ss : List (Stmt R)} (hend : c.atStatementEnd = true)
    (h : takeBodyStatements fuel c = .ok (ss, c')) (hne : ss ≠ []) : c.peek? = some .colon := by
  cases fuel with
  | zero => cases h
  | succ fuel =>
      rw [takeBodyStatements] at h
      rw [atStatementEnd] at hend
      generalize c.peek? = peek at h hend
      split at hend
      · cases h
        exact absurd rfl hne
      · rfl
      · cases h
        exact absurd rfl hne
      · cases hend

theorem getsStanding_takeBodyStatements (ih : StatementsStand R fuel) (c : Cursor) :
    GetsStanding (Separated (fun tokens => ¬RunsOn tokens) (Stands (R := R))) c
      (takeBodyStatements (fuel + 1) c) := by
  rw [takeBodyStatements]
  split
  · exact ⟨[], rfl, .nil (List.forall_mem_nil _)⟩
  · exact ⟨[], rfl, .nil (List.forall_mem_nil _)⟩
  · rename_i hpeek
    refine Ends.imp (ih.bodyStatements c.skip) ?_
    rintro r ⟨own, hrest, hstand⟩
    exact ⟨_, (exists_rest hpeek).trans (congrArg _ hrest), hstand.colon⟩
  · cases hs : takeStatement (R := R) fuel c with
    | error e => trivial
    | ok r =>
        obtain ⟨s, c₁⟩ := r
        have hstand := ih.statement c
        rw [hs] at hstand
        obtain ⟨own, hrest, hstand⟩ := hstand
        show GetsStanding _ c (takeBodyStatements fuel c₁ >>= fun r => .ok (s :: r.1, r.2))
        cases hss : takeBodyStatements (R := R) fuel c₁ with
        | error e => trivial
        | ok r =>
            obtain ⟨ss, c₂⟩ := r
            have hmore := ih.bodyStatements c₁
            rw [hss] at hmore
            obtain ⟨more, hrest₁, hmore⟩ := hmore
            refine ⟨own ++ more, ?_, .statement hstand hmore fun hne htouch => ?_⟩
            · rw [hrest, hrest₁, List.append_assoc]
            -- in front of ELSE or at the end of the line no statement would follow, so that a colon is left
            · have hend := atStatementEnd_of_runsOn hs hrest (not_not.mp htouch)
              rw [← peek?_of_rest hrest₁ (hmore.ne_nil hne)]
              exact peek?_of_takeBodyStatements hend hss hne

theorem statementsStand (fuel : Nat) : StatementsStand R fuel := by
  induction fuel with
  | zero => refine ⟨?_, ?_, ?_, ?_⟩ <;> intros <;> trivial
  | succ fuel ih =>
      exact ⟨fun c => getsStanding_takeStatement ih c, fun c => getsStanding_takeThenBody ih c,
        fun word column c => getsStanding_takeBody ih word column c,
        fun c => getsStanding_takeBodyStatements ih c⟩

theorem takeStatements_of_end {ss : List (Stmt R)} (hpeek : c.peek? = none)
    (h : takeStatements fuel c = .ok ss) : ss = [] := by
  cases fuel with
  | zero => cases h
  | succ fuel =>
      rw [takeStatements, hpeek] at h
      cases h
      rfl

theorem separated_of_takeStatements {ss : List (Stmt R)} (h : takeStatements fuel c = .ok ss) :
    Separated (fun _ => False) Stands ss c.rest := by
  induction fuel generalizing c ss with
  | zero => cases h
  | succ fuel ih =>
      rw [takeStatements] at h
      split at h
      · rename_i hpeek
        cases h
        have hrest : c.rest = [] := List.head?_eq_none_iff.mp (Option.map_eq_none_iff.mp hpeek)
        rw [hrest]
        exact .nil (List.forall_mem_nil _)
      · rename_i hpeek
        rw [exists_rest hpeek]
        exact (ih h).colon
      · obtain ⟨⟨s, c₁⟩, hs, h⟩ := bind_eq_ok h
        have hstand := (statementsStand (R := R) fuel).statement c
        rw [hs] at hstand
        obtain ⟨own, hrest, hstand⟩ := hstand
        obtain ⟨hend, ss, hss, rfl⟩ : (c₁.peek? = none ∨ c₁.peek? = some .colon) ∧
            ∃ ss', takeStatements fuel c₁ = .ok ss' ∧ s :: ss' = ss := by
          dsimp only at h
          generalize c₁.peek? = peek at h ⊢
          split at h
          · obtain ⟨ss', hss, h⟩ := bind_eq_ok h
            cases h
            exact ⟨.inl rfl, ss', hss, rfl⟩
          · obtain ⟨ss', hss, h⟩ := bind_eq_ok h
            cases h
            exact ⟨.inr rfl, ss', hss, rfl⟩
          · cases h
        rw [hrest]
        refine .statement hstand (ih hss) fun hne _ => hend.resolve_left fun hnone => ?_
        exact hne (takeStatements_of_end hnone hss)

end Cursor

open Stmt

variable [NumberSystem R]

/-- Whatever line is read: on the line itself a colon stands between any two statements. In the bodies of its IFs, at any depth,
nothing but colons stands between two statements; and if none does, then the first is no PRINT, no NEXT without a variable, and
no call without parentheses and arguments. -/
theorem separated_of_parse {tokens : List (Column × Token)} {ss : List (Stmt R)}
    (h : Stmt.parse tokens = .ok ss) : Separated (fun _ => False) Stands ss tokens :=
  Cursor.separated_of_takeStatements h

/-- The tokens of `IF A THEN B=A END: PRINT "X": RETURN ELSE IF B THEN 100 END`. -/
def touchingTokens : List (Column × Token) :=
  [.keyword .if, .name "A", .keyword .then, .name "B", .operator .equal, .name "A", .keyword .end, .colon,
    .keyword .print, .string "X", .colon, .keyword .return, .keyword .else, .keyword .if, .name "B",
    .keyword .then, .number "100", .keyword .end].map fun token => ({}, token)

/-- Statements in bodies, with colons between some of them. -/
def touching : List (Stmt Float) :=
  [.if {} (.var {} "A")
    [.let {} { name := "B", column := {} } (.var {} "A"), .end {}, .print {} [.string {} "X", .char {} '\n'], .return {}]
    [.if {} (.var {} "B") [.goto {} { line := 100, column := {} }] [], .end {}]]

theorem separated_of_parse_touching :
    Stmt.parse touchingTokens = .ok touching ∧ Separated (fun _ => False) Stands touching touchingTokens :=
  ⟨rfl, separated_of_parse rfl⟩

/-- The tokens of `IF A THEN END RETURN`. -/
def noColons : List (Column × Token) :=
  [(⟨0, 2⟩, .keyword .if), (⟨3, 4⟩, .name "A"), (⟨5, 9⟩, .keyword .then), (⟨10, 13⟩, .keyword .end),
    (⟨14, 20⟩, .keyword .return)]

/-- Two statements of a body with no colon on the whole line. -/
theorem statements_without_colon :
    Token.lex "IF A THEN END RETURN" = .ok noColons ∧ (∀ t ∈ noColons, t.2 ≠ .colon) ∧
      Stmt.parse (R := Float) noColons =
        .ok [.if ⟨0, 2⟩ (.var ⟨3, 4⟩ "A") [.end ⟨10, 13⟩, .return ⟨14, 20⟩] []] :=
  ⟨by decide +kernel, by decide, rfl⟩

end LineBasic
