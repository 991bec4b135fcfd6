import LineBasic.Proofs.Acceptance
import LineBasic.Proofs.Columns
import LineBasic.Proofs.Coherence
import LineBasic.Proofs.Rescanning

namespace LineBasic

open Line

variable {R : Type}

/-- A target as the scan for references finds it. -/
def Target.reference (t : Target) : Column × LineNumber :=
  (t.column, t.line)

namespace Token

/-- One token stands behind another one. -/
def Behind (t t' : Column × Token) : Prop :=
  t.1.stop ≤ t'.1.start

theorem pairwise_remarkFrom (start : Nat) (cs : List Char) : (remarkFrom start cs).Pairwise Behind := by
  unfold remarkFrom
  split
  · exact .nil
  · exact List.pairwise_singleton _ _

theorem start_le_remarkFrom (start : Nat) (cs : List Char) :
    ∀ t ∈ remarkFrom start cs, start ≤ t.1.start := by
  unfold remarkFrom
  split <;> simp

/-- Tokens stand one behind the other. -/
theorem Lexes.pairwise {start : Nat} {cs : List Char} {tokens : List (Column × Token)}
    (h : Lexes start cs tokens) : tokens.Pairwise Behind := by
  induction h with
  | nil => exact .nil
  | separator _ _ ih => exact ih
  | apostrophe start cs => exact pairwise_remarkFrom start _
  | rem start _ _ =>
      exact List.pairwise_cons.mpr ⟨start_le_remarkFrom _ _, pairwise_remarkFrom _ _⟩
  | token _ _ _ h ih => exact List.pairwise_cons.mpr ⟨h.start_le, ih⟩

end Token

theorem Line.targetsFrom_sublist (inTargets : Bool) (tokens : List (Column × Token)) :
    ((targetsFrom inTargets tokens).map Prod.fst).Sublist (tokens.map Prod.fst) := by
  induction tokens generalizing inTargets with
  | nil => exact .slnil
  | cons t tokens ih =>
      obtain ⟨column, token⟩ := t
      have hrest := ih (opensTargets inTargets token)
      cases token with
      | number s =>
          rw [targetsFrom]
          split
          · split
            · exact hrest.cons_cons column
            · exact hrest.cons column
          · exact hrest.cons column
      | _ => exact hrest.cons column

namespace Cursor

/-- What the scan for references finds from a cursor on, where `inTargets` says whether its first token may be one. -/
def refs (inTargets : Bool) (c : Cursor) : List (Column × LineNumber) :=
  targetsFrom inTargets c.rest

variable {c : Cursor} {token : Token}

theorem refs_of_end (inTargets : Bool) (h : c.peek? = none) : c.refs inTargets = [] := by
  unfold peek? at h
  unfold refs
  rw [List.head?_eq_none_iff.mp (Option.map_eq_none_iff.mp h), targetsFrom]

theorem exists_rest (h : c.peek? = some token) :
    c.rest = (c.skip.column, token) :: c.skip.rest := by
  unfold peek? at h
  unfold skip
  cases hrest : c.rest with
  | nil =>
      rw [hrest] at h
      cases h
  | cons t rest =>
      rw [hrest] at h
      cases h
      rfl

theorem refs_skip (inTargets : Bool) (h : c.peek? = some token)
    (htoken : ∀ s, token ≠ .number s := by simp) :
    c.skip.refs (opensTargets inTargets token) = c.refs inTargets := by
  unfold refs
  rw [exists_rest h]
  cases token with
  | number s => exact absurd rfl (htoken s)
  | _ => rfl

theorem refs_skip_number {s : String} (h : c.peek? = some (.number s)) :
    c.skip.refs false = c.refs false := by
  unfold refs
  rw [exists_rest h, targetsFrom]
  rfl

theorem refs_reference {s : String} {line : LineNumber} (h : c.peek? = some (.number s))
    (hread : Text.readNat? Text.maxWord32 s = some line) :
    c.refs true = (c.skip.column, line) :: c.skip.refs true := by
  unfold refs
  rw [exists_rest h, targetsFrom, hread]
  rfl

variable {α : Type} {before : List (Column × LineNumber)}

/-- A reader that succeeds takes no reference: the scan finds behind it what it would find before it. -/
abbrev Skips (before : List (Column × LineNumber)) : Except Error (α × Cursor) → Prop :=
  Ends (fun _ => True) fun r => r.2.refs false = before

theorem skips_expect (htoken : opensTargets false token = false) (hnumber : ∀ s, token ≠ .number s)
    (c : Cursor) :
    Ends (fun _ => True) (fun c' : Cursor => c'.refs false = c.refs false) (c.expect token) := by
  unfold expect
  split
  · rename_i hpeek
    have hskip := refs_skip false hpeek hnumber
    rw [htoken] at hskip
    exact hskip
  · trivial

theorem skips_takeVariable (c : Cursor) : Skips (c.refs false) c.takeVariable := by
  unfold takeVariable
  split
  · rename_i hpeek
    exact refs_skip false hpeek
  · trivial

variable [NumberSystem R]

/-- The readers of expressions take no references, with a given fuel. -/
structure ExpressionsSkip (R : Type) [NumberSystem R] (fuel : Nat) : Prop where
  expression : ∀ (least : Nat) (c : Cursor),
    Skips (c.refs false) (takeExpression (R := R) fuel least c)
  operators : ∀ (least : Nat) (left : Expr R) (c : Cursor),
    Skips (c.refs false) (takeOperators fuel least left c)
  operand : ∀ c : Cursor, Skips (c.refs false) (takeOperand (R := R) fuel c)
  arguments : ∀ c : Cursor, Skips (c.refs false) (takeArguments (R := R) fuel c)
  moreArguments : ∀ c : Cursor, Skips (c.refs false) (takeMoreArguments (R := R) fuel c)

theorem skips_takeOperand {fuel : Nat} (ih : ExpressionsSkip R fuel) (c : Cursor) :
    Skips (c.refs false) (takeOperand (R := R) (fuel + 1) c) := by
  rw [takeOperand]
  dsimp only
  generalize hpeek : c.peek? = peek
  split
  · rw [← refs_skip false hpeek]
    exact (ih.expression _ _).bind fun r hr => hr
  · rw [← refs_skip false hpeek]
    exact ih.expression _ _
  · rw [← refs_skip false hpeek]
    exact (ih.expression _ _).bind fun r hr => hr
  · rw [← refs_skip false hpeek]
    refine (ih.expression _ _).bind fun r hr => ?_
    refine (skips_expect rfl (by simp) r.2).bind fun c' hc' => ?_
    exact hc'.trans hr
  · rw [← refs_skip false hpeek]
    split
    · exact (ih.arguments _).bind fun r hr => hr
    · rfl
  · split
    · exact refs_skip_number hpeek
    · trivial
  · exact refs_skip false hpeek
  · trivial

theorem skips_takeOperators {fuel : Nat} (ih : ExpressionsSkip R fuel) (least : Nat)
    (left : Expr R) (c : Cursor) :
    Skips (c.refs false) (takeOperators (fuel + 1) least left c) := by
  rw [takeOperators]
  split
  · rename_i hpeek
    have hskip : c.skip.refs false = c.refs false := refs_skip false hpeek
    split
    · split
      · rw [← hskip]
        refine (ih.expression _ _).bind fun r hr => ?_
        rw [← hr]
        exact ih.operators _ _ _
      · rfl
    · rfl
  · rfl

theorem skips_takeArguments {fuel : Nat} (ih : ExpressionsSkip R fuel) (c : Cursor) :
    Skips (c.refs false) (takeArguments (R := R) (fuel + 1) c) := by
  rw [takeArguments]
  refine (skips_expect rfl (by simp) c).bind fun c' hc' => ?_
  rw [← hc']
  split
  · rename_i hpeek
    exact refs_skip false hpeek
  · exact ih.moreArguments c'

theorem skips_takeMoreArguments {fuel : Nat} (ih : ExpressionsSkip R fuel) (c : Cursor) :
    Skips (c.refs false) (takeMoreArguments (R := R) (fuel + 1) c) := by
  rw [takeMoreArguments]
  refine (ih.expression _ c).bind fun r hr => ?_
  obtain ⟨e, c'⟩ := r
  rw [← hr]
  dsimp only
  generalize hpeek : c'.peek? = peek
  split
  · exact refs_skip false hpeek
  · rw [← refs_skip false hpeek]
    exact (ih.moreArguments _).bind fun r hr => hr
  · trivial

theorem expressionsSkip (fuel : Nat) : ExpressionsSkip R fuel := by
  induction fuel with
  | zero => refine ⟨?_, ?_, ?_, ?_, ?_⟩ <;> intros <;> trivial
  | succ fuel ih =>
      refine ⟨?_, ?_, ?_, ?_, ?_⟩
      · intro least c
        rw [takeExpression]
        refine (ih.operand c).bind fun r hr => ?_
        rw [← hr]
        exact ih.operators _ _ _
      · exact fun least left c => skips_takeOperators ih least left c
      · exact fun c => skips_takeOperand ih c
      · exact fun c => skips_takeArguments ih c
      · exact fun c => skips_takeMoreArguments ih c

theorem skips_takeExpression (fuel least : Nat) (c : Cursor) :
    Skips (c.refs false) (takeExpression (R := R) fuel least c) :=
  (expressionsSkip fuel).expression least c

theorem skips_takeBareArguments (fuel : Nat) (c : Cursor) :
    Skips (c.refs false) (takeBareArguments (R := R) fuel c) := by
  induction fuel generalizing c with
  | zero => trivial
  | succ fuel ih =>
      rw [takeBareArguments]
      refine (skips_takeExpression fuel 0 c).bind fun r hr => ?_
      obtain ⟨e, c'⟩ := r
      rw [← hr]
      dsimp only
      split
      · rename_i hpeek
        rw [← refs_skip false hpeek]
        exact (ih _).bind fun r hr => hr
      · rfl

theorem skips_takeItems (fuel : Nat) (lineFeed : Bool) (c : Cursor) :
    Skips (c.refs false) (takeItems (R := R) lineFeed fuel c) := by
  induction fuel generalizing lineFeed c with
  | zero => trivial
  | succ fuel ih =>
      rw [takeItems]
      split
      · rfl
      · generalize hpeek : c.peek? = peek
        split
        · rw [← refs_skip false hpeek]
          exact ih false _
        · rw [← refs_skip false hpeek]
          exact (ih false _).bind fun r hr => hr
        · refine (skips_takeExpression fuel 0 c).bind fun r hr => ?_
          refine (ih true r.2).bind fun r' hr' => ?_
          exact hr'.trans hr

/-- If a reader succeeds, then the scan would find before it what is found in its result, and then what it finds
behind it. -/
abbrev Finds (found : α → List Target) (before : List (Column × LineNumber)) :
    Except Error (α × Cursor) → Prop :=
  Ends (fun _ => True) fun r =>
    ∃ inTargets, before = (found r.1).map Target.reference ++ r.2.refs inTargets

omit [NumberSystem R] in
theorem finds_plain {s : Stmt R} {before : List (Column × LineNumber)} {c : Cursor}
    (hs : s.ownTargets = []) (h : c.refs inTargets = before) :
    Finds Stmt.ownTargets before (.ok (s, c)) := by
  refine ⟨inTargets, ?_⟩
  rw [hs, ← h]
  rfl

theorem finds_takeTarget (c : Cursor) : Finds (fun t => [t]) (c.refs true) c.takeTarget := by
  unfold takeTarget
  split
  · rename_i s hpeek
    split
    · rename_i line hread
      exact ⟨true, refs_reference hpeek hread⟩
    · trivial
  · trivial

theorem finds_takeAssignment (fuel : Nat) (column : Column) (v : Variable) (c : Cursor) :
    Finds (Stmt.ownTargets (R := R)) (c.refs false) (takeAssignment fuel column v c) := by
  unfold takeAssignment
  refine (skips_expect rfl (by simp) c).bind fun c' hc' => ?_
  rw [← hc']
  refine (skips_takeExpression fuel 0 c').bind fun r hr => ?_
  exact finds_plain (Stmt.ownTargets_of_plain (by simp) (by simp) (by simp)) hr

theorem finds_takeNativeCall (fuel : Nat) (column : Column) (name : String) (c : Cursor) :
    Finds (Stmt.ownTargets (R := R)) (c.refs false) (takeNativeCall fuel column name c) := by
  have hcall (args : List (Expr R)) : (Stmt.call column name args).ownTargets = [] :=
    Stmt.ownTargets_of_plain (by simp) (by simp) (by simp)
  unfold takeNativeCall
  split
  · exact ((expressionsSkip fuel).arguments c).bind fun r hr => finds_plain (hcall _) hr
  · split
    · exact finds_plain (hcall _) rfl
    · exact (skips_takeBareArguments fuel c).bind fun r hr => finds_plain (hcall _) hr

theorem finds_takeLoop (fuel : Nat) (column : Column) (c : Cursor) :
    Finds (Stmt.ownTargets (R := R)) (c.refs false) (takeLoop fuel column c) := by
  have hloop (v : Variable) (start limit : Expr R) (step : Option (Expr R)) :
      (Stmt.for column v start limit step).ownTargets = [] :=
    Stmt.ownTargets_of_plain (by simp) (by simp) (by simp)
  unfold takeLoop
  refine (skips_takeVariable c).bind fun ⟨v, c₁⟩ h₁ => ?_
  refine (skips_expect rfl (by simp) c₁).bind fun c₂ h₂ => ?_
  refine (skips_takeExpression fuel 0 c₂).bind fun ⟨start, c₃⟩ h₃ => ?_
  refine (skips_expect rfl (by simp) c₃).bind fun c₄ h₄ => ?_
  refine (skips_takeExpression fuel 0 c₄).bind fun ⟨limit, c₅⟩ h₅ => ?_
  have hall : c₅.refs false = c.refs false := h₅.trans (h₄.trans (h₃.trans (h₂.trans h₁)))
  rw [← hall]
  dsimp only
  split
  · rename_i hpeek
    rw [← refs_skip false hpeek]
    exact (skips_takeExpression fuel 0 _).bind fun r hr => finds_plain (hloop _ _ _ _) hr
  · exact finds_plain (hloop _ _ _ _) rfl

/-- The readers of statements find the references of what they take, with a given fuel. Behind a line number the scan takes
one more for a reference, but no statement starts with a number. -/
structure StatementsFind (R : Type) [NumberSystem R] (fuel : Nat) : Prop where
  statement : ∀ (inTargets : Bool) (c : Cursor),
    Finds (Stmt.ownTargets (R := R)) (c.refs inTargets) (takeStatement fuel c)
  thenBody : ∀ c : Cursor, Finds (Stmt.targets (R := R)) (c.refs false) (takeThenBody fuel c)
  body : ∀ c : Cursor, Finds (Stmt.targets (R := R)) (c.refs true) (takeBody fuel c)
  bodyStatements : ∀ (inTargets : Bool) (c : Cursor),
    Finds (Stmt.targets (R := R)) (c.refs inTargets) (takeBodyStatements fuel c)

theorem finds_takeIf {fuel : Nat} (ih : StatementsFind R fuel) (column : Column) (c : Cursor) :
    Finds (Stmt.ownTargets (R := R)) (c.refs false) (do
      let (condition, c) ← takeExpression fuel 0 c
      let (thenBody, c) ← takeThenBody fuel c
      if c.peek? = some (.keyword .else) then
        let (elseBody, c) ← takeBody fuel c.skip
        return (.if column condition thenBody elseBody, c)
      else return (.if column condition thenBody [], c)) := by
  refine (skips_takeExpression fuel 0 c).bind fun ⟨condition, c₁⟩ h₁ => ?_
  refine (ih.thenBody c₁).bind fun ⟨thenBody, c₂⟩ ⟨b, h₂⟩ => ?_
  rw [← h₁, h₂]
  dsimp only
  split
  · rename_i hpeek
    rw [← refs_skip b hpeek]
    refine (ih.body _).bind fun ⟨elseBody, c₃⟩ ⟨b', h₃⟩ => ⟨b', ?_⟩
    have hskip : c₂.skip.refs (opensTargets b (.keyword .else)) = c₂.skip.refs true := rfl
    rw [hskip, h₃, Stmt.ownTargets_if, List.map_append, List.append_assoc]
  · refine ⟨b, ?_⟩
    rw [Stmt.ownTargets_if, Stmt.targets_nil, List.append_nil]

theorem finds_takeStatement {fuel : Nat} (ih : StatementsFind R fuel) (inTargets : Bool) (c : Cursor) :
    Finds (Stmt.ownTargets (R := R)) (c.refs inTargets) (takeStatement (fuel + 1) c) := by
  rw [takeStatement]
  dsimp only
  generalize hpeek : c.peek? = peek
  split
  · rw [← refs_skip _ hpeek]
    split
    · exact finds_takeAssignment fuel _ _ _
    · exact finds_takeNativeCall fuel _ _ _
  · exact finds_plain rfl (refs_skip _ hpeek)
  · rw [← refs_skip _ hpeek]
    refine (skips_takeItems fuel true _).bind fun r hr => ?_
    exact finds_plain (Stmt.ownTargets_of_plain (by simp) (by simp) (by simp)) hr
  · rw [← refs_skip _ hpeek]
    refine (skips_takeVariable _).bind fun r hr => ?_
    rw [show c.skip.refs (opensTargets inTargets (.keyword .let)) = r.2.refs false from hr.symm]
    exact finds_takeAssignment fuel _ _ _
  · rw [← refs_skip _ hpeek]
    exact (finds_takeTarget _).bind fun r hr => hr
  · rw [← refs_skip _ hpeek]
    exact (finds_takeTarget _).bind fun r hr => hr
  · exact finds_plain rfl (refs_skip _ hpeek)
  · exact finds_plain rfl (refs_skip _ hpeek)
  · rw [← refs_skip _ hpeek]
    exact finds_takeIf ih _ _
  · rw [← refs_skip _ hpeek]
    exact finds_takeLoop fuel _ _
  · rw [← refs_skip _ hpeek]
    split
    · exact finds_plain rfl rfl
    · exact (skips_takeVariable _).bind fun r hr => finds_plain rfl hr
  · rw [← refs_skip _ hpeek]
    generalize hremark : c.skip.peek? = remark
    split
    · exact finds_plain rfl (refs_skip _ hremark)
    · exact finds_plain rfl rfl
  · trivial

omit [NumberSystem R] in
theorem finds_goto (column : Column → Column) (c : Cursor) :
    Finds (Stmt.targets (R := R)) (c.refs true) (do
      let (t, c) ← c.takeTarget
      return ([.goto (column t.column) t], c)) :=
  (finds_takeTarget c).bind fun _ hr => hr

theorem finds_takeThenBody {fuel : Nat} (ih : StatementsFind R fuel) (c : Cursor) :
    Finds (Stmt.targets (R := R)) (c.refs false) (takeThenBody (fuel + 1) c) := by
  rw [takeThenBody]
  split
  · rename_i hpeek
    rw [← refs_skip _ hpeek]
    exact finds_goto (fun _ => c.skip.column) c.skip
  · unfold expect
    split
    · rename_i hpeek
      rw [← refs_skip _ hpeek]
      exact ih.body _
    · trivial

theorem finds_takeBody {fuel : Nat} (ih : StatementsFind R fuel) (c : Cursor) :
    Finds (Stmt.targets (R := R)) (c.refs true) (takeBody (fuel + 1) c) := by
  rw [takeBody]
  split
  · exact finds_goto id c
  · exact ih.bodyStatements true c

theorem finds_takeBodyStatements {fuel : Nat} (ih : StatementsFind R fuel) (inTargets : Bool)
    (c : Cursor) :
    Finds (Stmt.targets (R := R)) (c.refs inTargets) (takeBodyStatements (fuel + 1) c) := by
  rw [takeBodyStatements]
  split
  · exact ⟨inTargets, rfl⟩
  · exact ⟨inTargets, rfl⟩
  · rename_i hpeek
    rw [← refs_skip _ hpeek]
    exact ih.bodyStatements _ _
  · refine (ih.statement inTargets c).bind ?_
    rintro ⟨s, c₁⟩ ⟨b, h₁⟩
    refine (ih.bodyStatements b c₁).bind ?_
    rintro ⟨ss, c₂⟩ ⟨b', h₂⟩
    refine ⟨b', ?_⟩
    rw [h₁, h₂, Stmt.targets_cons, List.map_append, List.append_assoc]

theorem statementsFind (fuel : Nat) : StatementsFind R fuel := by
  induction fuel with
  | zero => refine ⟨?_, ?_, ?_, ?_⟩ <;> intros <;> trivial
  | succ fuel ih =>
      exact ⟨fun b c => finds_takeStatement ih b c, fun c => finds_takeThenBody ih c,
        fun c => finds_takeBody ih c, fun b c => finds_takeBodyStatements ih b c⟩

theorem finds_takeStatements (fuel : Nat) (inTargets : Bool) (c : Cursor) :
    Ends (fun _ => True)
      (fun ss : List (Stmt R) => c.refs inTargets = (Stmt.targets ss).map Target.reference)
      (takeStatements fuel c) := by
  induction fuel generalizing inTargets c with
  | zero => trivial
  | succ fuel ih =>
      rw [takeStatements]
      split
      · rename_i hpeek
        exact refs_of_end _ hpeek
      · rename_i hpeek
        rw [← refs_skip _ hpeek]
        exact ih _ _
      · refine ((statementsFind fuel).statement inTargets c).bind ?_
        rintro ⟨s, c₁⟩ ⟨b, h₁⟩
        have hmore : Ends (fun _ => True)
            (fun ss : List (Stmt R) => c.refs inTargets = (Stmt.targets ss).map Target.reference)
            (takeStatements fuel c₁ >>= fun ss => .ok (s :: ss)) := by
          refine (ih b c₁).bind fun ss hss => ?_
          show c.refs inTargets = (Stmt.targets (s :: ss)).map Target.reference
          rw [h₁, hss, Stmt.targets_cons, List.map_append]
        dsimp only
        split
        · exact hmore
        · exact hmore
        · trivial

end Cursor

variable [NumberSystem R] {l : Line} {tokens : List (Column × Token)} {ss : List (Stmt R)}

/-- If a line can be read, then its references are the targets of its statements, one behind the other: the numbers that
RENUM changes are those that control may go to. -/
theorem references_eq_targets (hlex : Token.lex l.content = .ok tokens)
    (hparse : Stmt.parse tokens = .ok ss) :
    l.references = (Stmt.targets ss).map Target.reference ∧
      (Stmt.targets ss).Pairwise fun t t' => t.column.stop ≤ t'.column.start := by
  have hrefs : l.references = targetsFrom false tokens := by
    rw [references, hlex]
  have htargets : targetsFrom false tokens = (Stmt.targets ss).map Target.reference := by
    have hfinds := Cursor.finds_takeStatements (R := R) (4 * tokens.length + 8) false { rest := tokens }
    rw [show Cursor.takeStatements _ _ = .ok ss from hparse] at hfinds
    exact hfinds
  refine ⟨hrefs.trans htargets, ?_⟩
  have hcolumns : (tokens.map Prod.fst).Pairwise fun a b : Column => a.stop ≤ b.start :=
    List.pairwise_map.mpr (Token.lexes_of_lexFrom hlex (Nat.le_refl _)).pairwise
  have hsublist := hcolumns.sublist (targetsFrom_sublist false tokens)
  rw [htargets, List.map_map] at hsublist
  exact List.pairwise_map.mp hsublist

/-- A line with targets at two depths, and with numbers that are none. -/
def nestedJumps : Line :=
  ⟨5, "IF A THEN GOSUB 10: PRINT 20, 30 ELSE IF B GOTO 40 ELSE 50"⟩

theorem references_eq_targets_nested :
    ∃ tokens ss, Token.lex nestedJumps.content = .ok tokens ∧ Stmt.parse (R := Float) tokens = .ok ss ∧
      (nestedJumps.references = (Stmt.targets ss).map Target.reference ∧
        (Stmt.targets ss).Pairwise fun t t' => t.column.stop ≤ t'.column.start) ∧
      nestedJumps.references.map Prod.snd = [10, 40, 50] := by
  have hjumps : (Token.lex nestedJumps.content).isOk ∧
      (Token.lex nestedJumps.content >>= Stmt.parse (R := Float)).isOk ∧
      nestedJumps.references.map Prod.snd = [10, 40, 50] := by
    decide +kernel
  obtain ⟨hlexes, hparses, hnumbers⟩ := hjumps
  obtain ⟨tokens, hlex⟩ := exists_of_isOk hlexes
  rw [hlex] at hparses
  obtain ⟨ss, hparse⟩ := exists_of_isOk (x := Stmt.parse (R := Float) tokens) hparses
  exact ⟨tokens, ss, hlex, hparse, references_eq_targets hlex hparse, hnumbers⟩

end LineBasic
