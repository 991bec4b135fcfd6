import LineBasic.Proofs.NamedLines
import LineBasic.Proofs.Rescanning

namespace LineBasic

open Line

variable {R : Type}

/-- A token without the text of a remark. -/
def Token.plain : Token → Token
  | .remark _ => .remark ""
  | token => token

def Error.bare (e : Error) : Error :=
  { e with column := {} }

namespace Cursor

variable {change : LineNumber → Option LineNumber}

/-- The tokens to be taken are those of another cursor under their new numbers, where `inTargets` says whether the
first of them may be a reference. Remarks may have other texts. -/
def Follows (change : LineNumber → Option LineNumber) (inTargets : Bool) (c c' : Cursor) : Prop :=
  c'.rest.map (Token.plain ∘ Prod.snd) =
    renumberTokens change inTargets (c.rest.map (Token.plain ∘ Prod.snd))

variable {inTargets : Bool} {c c' : Cursor}

theorem renumberToken_false (token : Token) : renumberToken change false token = token := by
  cases token <;> rfl

theorem renumberToken_of_not_number {token : Token} (h : ∀ s, token ≠ .number s) :
    renumberToken change inTargets token = token := by
  cases token <;> first | rfl | exact absurd rfl (h _)

theorem renumberToken_number (change : LineNumber → Option LineNumber) (inTargets : Bool) (s : String) :
    ∃ s', renumberToken change inTargets (.number s) = .number s' := by
  unfold renumberToken
  split
  · exact ⟨_, rfl⟩
  · exact ⟨s, rfl⟩

theorem renumberToken_plain (token : Token) :
    renumberToken change inTargets token.plain = (renumberToken change inTargets token).plain := by
  cases token with
  | number s =>
      obtain ⟨s', hs'⟩ := renumberToken_number change inTargets s
      show renumberToken change inTargets (.number s) = (renumberToken change inTargets (.number s)).plain
      rw [hs']
      rfl
  | _ => rfl

theorem opensTargets_plain (token : Token) : opensTargets inTargets token.plain = opensTargets inTargets token := by
  cases token <;> rfl

theorem plain_eq_iff {token token' : Token} :
    token'.plain = token.plain ↔ token' = token ∨ ∃ s s', token = .remark s ∧ token' = .remark s' := by
  constructor
  · intro h
    cases token with
    | remark s =>
        cases token' with
        | remark s' => exact .inr ⟨s, s', rfl, rfl⟩
        | _ => cases h
    | _ =>
        cases token' with
        | remark s' => cases h
        | _ => exact .inl h
  · rintro (rfl | ⟨s, s', rfl, rfl⟩)
    · rfl
    · rfl

theorem Follows.peek?_eq_map_or (h : Follows change inTargets c c') :
    c'.peek? = c.peek?.map (renumberToken change inTargets) ∨
      ∃ s s', c.peek? = some (.remark s) ∧ c'.peek? = some (.remark s') := by
  unfold Follows at h
  unfold peek?
  cases hrest : c.rest with
  | nil =>
      rw [hrest] at h
      rw [List.map_eq_nil_iff.mp h]
      exact .inl rfl
  | cons t rest =>
      rw [hrest, List.map_cons, renumberTokens] at h
      obtain ⟨t', rest', hrest', ht, -⟩ := List.map_eq_cons_iff.mp h
      rw [hrest']
      have hplain : t'.2.plain = (renumberToken change inTargets t.2).plain :=
        ht.trans (renumberToken_plain t.2)
      rcases plain_eq_iff.mp hplain with heq | ⟨s, s', hs, hs'⟩
      · left
        show some t'.2 = some (renumberToken change inTargets t.2)
        rw [heq]
      · right
        have hremark : t.2 = .remark s := by
          cases htoken : t.2 with
          | number n =>
              obtain ⟨n', hn'⟩ := renumberToken_number change inTargets n
              rw [htoken, hn'] at hs
              cases hs
          | _ =>
              rw [htoken] at hs
              exact hs
        exact ⟨s, s', congrArg some hremark, congrArg some hs'⟩

theorem Follows.skip (h : Follows change inTargets c c') {token : Token}
    (hpeek : c.peek? = some token) :
    Follows change (opensTargets inTargets token) c.skip c'.skip := by
  unfold Follows peek? Cursor.skip at *
  cases hrest : c.rest with
  | nil =>
      rw [hrest] at hpeek
      cases hpeek
  | cons t rest =>
      rw [hrest] at h hpeek
      cases hpeek
      cases hrest' : c'.rest with
      | nil =>
          rw [hrest'] at h
          cases h
      | cons t' rest' =>
          rw [hrest', List.map_cons, List.map_cons, renumberTokens] at h
          rw [← opensTargets_plain]
          exact (List.cons.inj h).2

theorem Follows.peek?_eq_or (h : Follows change false c c') :
    c'.peek? = c.peek? ∨ ∃ s s', c.peek? = some (.remark s) ∧ c'.peek? = some (.remark s') := by
  refine h.peek?_eq_map_or.imp_left fun heq => ?_
  rw [heq, Option.map_congr fun token _ => renumberToken_false token, Option.map_id']

/-- Both cursors are at numbers, or at remarks, or at the same token. -/
theorem Follows.peek?_cases (h : Follows change inTargets c c') :
    (∃ s s', c.peek? = some (.number s) ∧ c'.peek? = some (.number s')) ∨
      (∃ s s', c.peek? = some (.remark s) ∧ c'.peek? = some (.remark s')) ∨
      c'.peek? = c.peek? ∧ ∀ s, c.peek? ≠ some (.number s) := by
  rcases h.peek?_eq_map_or with heq | hremarks
  · by_cases hpeek : ∃ s, c.peek? = some (.number s)
    · obtain ⟨s, hs⟩ := hpeek
      obtain ⟨s', hs'⟩ := renumberToken_number change inTargets s
      refine .inl ⟨s, s', hs, ?_⟩
      rw [heq, hs, Option.map_some, hs']
    · rw [not_exists] at hpeek
      refine .inr (.inr ⟨?_, hpeek⟩)
      rw [heq]
      cases htoken : c.peek? with
      | none => rfl
      | some token =>
          rw [Option.map_some, renumberToken_of_not_number]
          rintro s rfl
          exact hpeek s htoken
  · exact .inr (.inl hremarks)

theorem Follows.peek?_eq_some_iff (h : Follows change inTargets c c') {token : Token}
    (hnumber : ∀ s, token ≠ .number s) (hremark : ∀ s, token ≠ .remark s) :
    c'.peek? = some token ↔ c.peek? = some token := by
  rcases h.peek?_cases with ⟨s, s', hs, hs'⟩ | ⟨s, s', hs, hs'⟩ | ⟨heq, -⟩
  · rw [hs, hs', Option.some.injEq, Option.some.injEq]
    exact iff_of_false (fun heq => hnumber _ heq.symm) fun heq => hnumber _ heq.symm
  · rw [hs, hs', Option.some.injEq, Option.some.injEq]
    exact iff_of_false (fun heq => hremark _ heq.symm) fun heq => hremark _ heq.symm
  · rw [heq]

theorem Follows.atStatementEnd_eq (h : Follows change false c c') :
    c'.atStatementEnd = c.atStatementEnd := by
  unfold atStatementEnd
  rcases h.peek?_eq_or with heq | ⟨s, s', hs, hs'⟩
  · rw [heq]
  · rw [hs, hs']

variable {α β : Type} {P : α → α → Prop} {Q : β → β → Prop} {K L : Cursor → Cursor → Prop}

/-- Two readers fail in the same way, or they get related results and the cursors behind them are related. -/
abbrev Alike (P : α → α → Prop) (K : Cursor → Cursor → Prop) :
    Except Error (α × Cursor) → Except Error (α × Cursor) → Prop :=
  Agree (fun e e' => e'.bare = e.bare) fun r r' => P r.1 r'.1 ∧ K r.2 r'.2

theorem Alike.of_ok {a a' : α} (ha : P a a') (hc : K c c') : Alike P K (.ok (a, c)) (.ok (a', c')) :=
  .ok ⟨ha, hc⟩

theorem Alike.of_error {e e' : Error} (h : e'.bare = e.bare) :
    Alike P K (.error e) (.error e') :=
  .error h

theorem Alike.bind {x x' : Except Error (α × Cursor)} {f f' : α × Cursor → Except Error (β × Cursor)}
    (h : Alike P K x x') (hf : ∀ a a' c c', P a a' → K c c' → Alike Q L (f (a, c)) (f' (a', c'))) :
    Alike Q L (x >>= f) (x' >>= f') :=
  Agree.bind h fun _ _ hr => hf _ _ _ _ hr.1 hr.2

theorem Alike.expect {token : Token} {f f' : Cursor → Except Error (β × Cursor)}
    (h : Follows change false c c')
    (hf : Follows change (opensTargets false token) c.skip c'.skip →
      Alike Q L (f c.skip) (f' c'.skip))
    (hnumber : ∀ s, token ≠ .number s := by simp) (hremark : ∀ s, token ≠ .remark s := by simp) :
    Alike Q L (c.expect token >>= f) (c'.expect token >>= f') := by
  unfold Cursor.expect
  by_cases hpeek : c.peek? = some token
  · rw [if_pos hpeek, if_pos ((h.peek?_eq_some_iff hnumber hremark).mpr hpeek)]
    exact hf (h.skip hpeek)
  · rw [if_neg hpeek, if_neg (mt (h.peek?_eq_some_iff hnumber hremark).mp hpeek)]
    exact .of_error rfl

theorem Alike.ite {token : Token} {x x' y y' : Except Error (β × Cursor)}
    (h : Follows change inTargets c c') (hx : c.peek? = some token → Alike Q L x x')
    (hy : Alike Q L y y') (hnumber : ∀ s, token ≠ .number s := by simp)
    (hremark : ∀ s, token ≠ .remark s := by simp) :
    Alike Q L (if c.peek? = some token then x else y) (if c'.peek? = some token then x' else y') := by
  by_cases hpeek : c.peek? = some token
  · rw [if_pos hpeek, if_pos ((h.peek?_eq_some_iff hnumber hremark).mpr hpeek)]
    exact hx hpeek
  · rw [if_neg hpeek, if_neg (mt (h.peek?_eq_some_iff hnumber hremark).mp hpeek)]
    exact hy

def SameName (v v' : Variable) : Prop :=
  v'.bare = v.bare

theorem alike_takeVariable (h : Follows change false c c') :
    Alike SameName (Follows change false) c.takeVariable c'.takeVariable := by
  unfold takeVariable
  rcases h.peek?_eq_or with heq | ⟨s, s', hs, hs'⟩
  · rw [heq]
    split
    · rename_i hpeek
      exact .of_ok rfl (h.skip hpeek)
    · exact .of_error rfl
  · rw [hs, hs']
    exact .of_error rfl

variable [NumberSystem R]

/-- Expressions that differ in their columns. -/
def SameExpr (e e' : Expr R) : Prop :=
  e'.bare = e.bare

def SameExprs (es es' : List (Expr R)) : Prop :=
  Expr.bareAll es' = Expr.bareAll es

omit [NumberSystem R] in
theorem SameExprs.cons {e e' : Expr R} {es es' : List (Expr R)} (he : SameExpr e e')
    (hes : SameExprs es es') : SameExprs (e :: es) (e' :: es') := by
  unfold SameExprs Expr.bareAll
  rw [he, hes]

/-- The readers of expressions read alike, with a given fuel. -/
structure ExpressionsAlike (R : Type) [NumberSystem R] (change : LineNumber → Option LineNumber)
    (fuel : Nat) : Prop where
  expression : ∀ (least : Nat) (c c' : Cursor), Follows change false c c' →
    Alike (SameExpr (R := R)) (Follows change false) (takeExpression fuel least c)
      (takeExpression fuel least c')
  operators : ∀ (least : Nat) (left left' : Expr R) (c c' : Cursor), SameExpr left left' →
    Follows change false c c' →
    Alike SameExpr (Follows change false) (takeOperators fuel least left c)
      (takeOperators fuel least left' c')
  operand : ∀ c c' : Cursor, Follows change false c c' →
    Alike (SameExpr (R := R)) (Follows change false) (takeOperand fuel c) (takeOperand fuel c')
  arguments : ∀ c c' : Cursor, Follows change false c c' →
    Alike (SameExprs (R := R)) (Follows change false) (takeArguments fuel c) (takeArguments fuel c')
  moreArguments : ∀ c c' : Cursor, Follows change false c c' →
    Alike (SameExprs (R := R)) (Follows change false) (takeMoreArguments fuel c)
      (takeMoreArguments fuel c')

theorem alike_takeOperand {fuel : Nat} (ih : ExpressionsAlike R change fuel)
    (h : Follows change false c c') :
    Alike (SameExpr (R := R)) (Follows change false) (takeOperand (fuel + 1) c)
      (takeOperand (fuel + 1) c') := by
  rw [takeOperand, takeOperand]
  dsimp only
  rcases h.peek?_eq_or with heq | ⟨s, s', hs, hs'⟩
  case inr =>
    rw [hs, hs']
    exact .of_error rfl
  rw [heq]
  generalize hpeek : c.peek? = peek
  split
  · refine (ih.expression _ _ _ (h.skip hpeek)).bind fun e e' c c' he hc => ?_
    exact .of_ok (congrArg (Expr.unary .negate {}) he) hc
  · exact ih.expression _ _ _ (h.skip hpeek)
  · refine (ih.expression _ _ _ (h.skip hpeek)).bind fun e e' c c' he hc => ?_
    exact .of_ok (congrArg (Expr.unary .not {}) he) hc
  · refine (ih.expression _ _ _ (h.skip hpeek)).bind fun e e' c c' he hc => ?_
    exact .expect hc fun hc => .of_ok he hc
  · rename_i name
    have htaken : Follows change false c.skip c'.skip := h.skip hpeek
    refine .ite htaken (fun _ => ?_) (.of_ok rfl htaken)
    refine (ih.arguments _ _ htaken).bind fun args args' c c' hargs hc => ?_
    exact .of_ok (congrArg (Expr.call {} name) hargs) hc
  · split
    · exact .of_ok rfl (h.skip hpeek)
    · exact .of_error rfl
  · exact .of_ok rfl (h.skip hpeek)
  · exact .of_error rfl

theorem alike_takeOperators {fuel : Nat} (ih : ExpressionsAlike R change fuel) (least : Nat)
    {left left' : Expr R} (hleft : SameExpr left left') (h : Follows change false c c') :
    Alike SameExpr (Follows change false) (takeOperators (fuel + 1) least left c)
      (takeOperators (fuel + 1) least left' c') := by
  rw [takeOperators, takeOperators]
  rcases h.peek?_eq_or with heq | ⟨s, s', hs, hs'⟩
  case inr =>
    rw [hs, hs']
    exact .of_ok hleft h
  rw [heq]
  generalize hpeek : c.peek? = peek
  split
  · rename_i sign
    dsimp only
    split
    · rename_i precedence hprecedence
      split
      · refine (ih.expression _ _ _ (h.skip hpeek)).bind fun right right' c c' hright hc => ?_
        refine ih.operators _ _ _ _ _ ?_ hc
        show Expr.binary (sign.binary _) {} left'.bare right'.bare =
          Expr.binary (sign.binary _) {} left.bare right.bare
        rw [hleft, hright]
      · exact .of_ok hleft h
    · exact .of_ok hleft h
  · exact .of_ok hleft h

theorem alike_takeArguments {fuel : Nat} (ih : ExpressionsAlike R change fuel)
    (h : Follows change false c c') :
    Alike (SameExprs (R := R)) (Follows change false) (takeArguments (fuel + 1) c)
      (takeArguments (fuel + 1) c') := by
  rw [takeArguments, takeArguments]
  refine .expect h fun hskip => ?_
  exact .ite hskip (fun hpeek => .of_ok rfl (Follows.skip hskip hpeek)) (ih.moreArguments _ _ hskip)

theorem alike_takeMoreArguments {fuel : Nat} (ih : ExpressionsAlike R change fuel)
    (h : Follows change false c c') :
    Alike (SameExprs (R := R)) (Follows change false) (takeMoreArguments (fuel + 1) c)
      (takeMoreArguments (fuel + 1) c') := by
  rw [takeMoreArguments, takeMoreArguments]
  refine (ih.expression _ _ _ h).bind fun e e' c c' he hc => ?_
  dsimp only
  rcases hc.peek?_eq_or with heq | ⟨s, s', hs, hs'⟩
  case inr =>
    rw [hs, hs']
    exact .of_error rfl
  rw [heq]
  generalize hpeek : c.peek? = peek
  split
  · exact .of_ok (.cons he rfl) (hc.skip hpeek)
  · refine (ih.moreArguments _ _ (hc.skip hpeek)).bind fun es es' c c' hes hc => ?_
    exact .of_ok (.cons he hes) hc
  · exact .of_error rfl

theorem expressionsAlike (change : LineNumber → Option LineNumber) (fuel : Nat) :
    ExpressionsAlike R change fuel := by
  induction fuel with
  | zero =>
      refine ⟨?_, ?_, ?_, ?_, ?_⟩ <;> intros <;> exact .of_error rfl
  | succ fuel ih =>
      refine ⟨?_, ?_, ?_, ?_, ?_⟩
      · intro least c c' h
        rw [takeExpression, takeExpression]
        exact (ih.operand c c' h).bind fun e e' c c' he hc => ih.operators _ _ _ _ _ he hc
      · exact fun least left left' c c' hleft h => alike_takeOperators ih least hleft h
      · exact fun c c' h => alike_takeOperand ih h
      · exact fun c c' h => alike_takeArguments ih h
      · exact fun c c' h => alike_takeMoreArguments ih h

theorem alike_takeExpression (fuel least : Nat) (h : Follows change false c c') :
    Alike (SameExpr (R := R)) (Follows change false) (takeExpression fuel least c)
      (takeExpression fuel least c') :=
  (expressionsAlike change fuel).expression least c c' h

theorem alike_takeBareArguments (fuel : Nat) (h : Follows change false c c') :
    Alike (SameExprs (R := R)) (Follows change false) (takeBareArguments fuel c)
      (takeBareArguments fuel c') := by
  induction fuel generalizing c c' with
  | zero => exact .of_error rfl
  | succ fuel ih =>
      rw [takeBareArguments, takeBareArguments]
      refine (alike_takeExpression fuel 0 h).bind fun e e' c c' he hc => ?_
      refine .ite hc (fun hpeek => ?_) (.of_ok (.cons he rfl) hc)
      refine (ih (hc.skip hpeek)).bind fun es es' c c' hes hc => ?_
      exact .of_ok (.cons he hes) hc

theorem alike_takeItems (fuel : Nat) (lineFeed : Bool) (h : Follows change false c c') :
    Alike (SameExprs (R := R)) (Follows change false) (takeItems lineFeed fuel c)
      (takeItems lineFeed fuel c') := by
  induction fuel generalizing lineFeed c c' with
  | zero => exact .of_error rfl
  | succ fuel ih =>
      have hexpression : Alike (SameExprs (R := R)) (Follows change false)
          (takeExpression fuel 0 c >>= fun e => takeItems true fuel e.2 >>= fun es =>
            .ok (e.1 :: es.1, es.2))
          (takeExpression fuel 0 c' >>= fun e => takeItems true fuel e.2 >>= fun es =>
            .ok (e.1 :: es.1, es.2)) := by
        refine (alike_takeExpression fuel 0 h).bind fun e e' c c' he hc => ?_
        refine (ih true hc).bind fun es es' c c' hes hc => ?_
        exact .of_ok (.cons he hes) hc
      rw [takeItems, takeItems, h.atStatementEnd_eq]
      split
      · refine .of_ok ?_ h
        cases lineFeed <;> rfl
      · rcases h.peek?_eq_or with heq | ⟨s, s', hs, hs'⟩
        case inr =>
          rw [hs, hs']
          exact hexpression
        rw [heq]
        generalize hpeek : c.peek? = peek
        split
        · exact ih false (h.skip hpeek)
        · refine (ih false (h.skip hpeek)).bind fun es es' c c' hes hc => ?_
          exact .of_ok (.cons rfl hes) hc
        · exact hexpression

/-- Statements that differ in their columns, the lines of the second one under new numbers. -/
def Renumbers (change : LineNumber → Option LineNumber) (s s' : Stmt R) : Prop :=
  s'.bare id = s.bare (newNumber change)

/-- Lists of statements that differ in their columns, the lines of the second one under new numbers. -/
def RenumbersAll (change : LineNumber → Option LineNumber) (ss ss' : List (Stmt R)) : Prop :=
  Stmt.bareAll id ss' = Stmt.bareAll (newNumber change) ss

omit [NumberSystem R] in
theorem RenumbersAll.cons {s s' : Stmt R} {ss ss' : List (Stmt R)} (hs : Renumbers change s s')
    (hss : RenumbersAll change ss ss') : RenumbersAll change (s :: ss) (s' :: ss') := by
  unfold RenumbersAll Stmt.bareAll
  rw [hs, hss]

/-- One cursor follows the other, wherever the scan for references is. -/
def FollowsAnyhow (change : LineNumber → Option LineNumber) (c c' : Cursor) : Prop :=
  ∃ inTargets, Follows change inTargets c c'

omit [NumberSystem R] in
theorem Follows.anyhow (h : Follows change inTargets c c') : FollowsAnyhow change c c' :=
  ⟨inTargets, h⟩

/-- Targets that differ in their columns, the line of the second one under its new number. -/
def SameTarget (change : LineNumber → Option LineNumber) (t t' : Target) : Prop :=
  t'.bare id = t.bare (newNumber change)

omit [NumberSystem R] in
theorem exists_renumberToken_number (hchange : ∀ old new, change old = some new → new ≤ Text.maxWord32)
    (s : String) :
    ∃ s', renumberToken change true (.number s) = .number s' ∧
      Text.readNat? Text.maxWord32 s' =
        (Text.readNat? Text.maxWord32 s).map (newNumber change) := by
  cases hread : Text.readNat? Text.maxWord32 s with
  | none => exact ⟨s, by simp [renumberToken, newNumber?, hread], hread⟩
  | some old =>
      cases hold : change old with
      | none =>
          refine ⟨s, by simp [renumberToken, newNumber?, hread, hold], ?_⟩
          rw [hread, Option.map_some, newNumber, hold]
          rfl
      | some new =>
          refine ⟨toString new, by simp [renumberToken, newNumber?, hread, hold], ?_⟩
          rw [Text.readNat?_toString (hchange old new hold), Option.map_some,
            newNumber, hold]
          rfl

omit [NumberSystem R] in
theorem alike_takeTarget (hchange : ∀ old new, change old = some new → new ≤ Text.maxWord32)
    (h : Follows change true c c') :
    Alike (SameTarget change) (FollowsAnyhow change) c.takeTarget c'.takeTarget := by
  unfold takeTarget
  rcases h.peek?_eq_map_or with heq | ⟨s, s', hs, hs'⟩
  case inr =>
    rw [hs, hs']
    exact .of_error rfl
  rw [heq]
  cases hpeek : c.peek? with
  | none => exact .of_error rfl
  | some token =>
      have hskip := h.skip hpeek
      cases token with
      | number s =>
          obtain ⟨s', hs', hread'⟩ := exists_renumberToken_number hchange s
          rw [Option.map_some, hs']
          dsimp only
          rw [hread']
          cases Text.readNat? Text.maxWord32 s with
          | none => exact .of_error rfl
          | some old => exact .of_ok rfl hskip.anyhow
      | _ => exact .of_error rfl

theorem alike_takeAssignment (fuel : Nat) (column column' : Column) {v v' : Variable}
    (hv : SameName v v') (h : Follows change false c c') :
    Alike (Renumbers (R := R) change) (FollowsAnyhow change) (takeAssignment fuel column v c)
      (takeAssignment fuel column' v' c') := by
  unfold takeAssignment
  refine .expect h fun hc => ?_
  refine (alike_takeExpression fuel 0 hc).bind fun e e' c c' he hc => .of_ok ?_ hc.anyhow
  show Stmt.let {} v'.bare e'.bare = Stmt.let {} v.bare e.bare
  rw [hv, he]

theorem alike_takeNativeCall (fuel : Nat) (column column' : Column) (name : String)
    (h : Follows change false c c') :
    Alike (Renumbers (R := R) change) (FollowsAnyhow change) (takeNativeCall fuel column name c)
      (takeNativeCall fuel column' name c') := by
  have hcall {args args' : List (Expr R)} (hargs : SameExprs args args') :
      Renumbers change (.call column name args) (.call column' name args') :=
    congrArg (Stmt.call {} name) hargs
  unfold takeNativeCall
  rw [h.atStatementEnd_eq]
  refine .ite h (fun _ => ?_) ?_
  · exact ((expressionsAlike change fuel).arguments c c' h).bind
      fun args args' c c' hargs hc => .of_ok (hcall hargs) hc.anyhow
  · split
    · exact .of_ok rfl h.anyhow
    · exact (alike_takeBareArguments fuel h).bind
        fun args args' c c' hargs hc => .of_ok (hcall hargs) hc.anyhow

theorem alike_takeLoop (fuel : Nat) (column column' : Column) (h : Follows change false c c') :
    Alike (Renumbers (R := R) change) (FollowsAnyhow change) (takeLoop fuel column c)
      (takeLoop fuel column' c') := by
  unfold takeLoop
  refine (alike_takeVariable h).bind fun v v' c c' hv hc => ?_
  refine .expect hc fun hc => ?_
  refine (alike_takeExpression fuel 0 hc).bind fun start start' c c' hstart hc => ?_
  refine .expect hc fun hc => ?_
  refine (alike_takeExpression fuel 0 hc).bind fun limit limit' c c' hlimit hc => ?_
  refine .ite hc (fun hpeek => ?_) ?_
  · refine (alike_takeExpression fuel 0 (hc.skip hpeek)).bind fun step step' c c' hstep hc => ?_
    refine .of_ok ?_ hc.anyhow
    show Stmt.for {} v'.bare start'.bare limit'.bare (some step'.bare) =
      Stmt.for {} v.bare start.bare limit.bare (some step.bare)
    rw [hv, hstart, hlimit, hstep]
  · refine .of_ok ?_ hc.anyhow
    show Stmt.for {} v'.bare start'.bare limit'.bare none =
      Stmt.for {} v.bare start.bare limit.bare none
    rw [hv, hstart, hlimit]

/-- The readers of statements read alike, with a given fuel. -/
structure StatementsAlike (R : Type) [NumberSystem R] (change : LineNumber → Option LineNumber)
    (fuel : Nat) : Prop where
  statement : ∀ c c' : Cursor, FollowsAnyhow change c c' →
    Alike (Renumbers (R := R) change) (FollowsAnyhow change) (takeStatement fuel c)
      (takeStatement fuel c')
  thenBody : ∀ c c' : Cursor, Follows change false c c' →
    Alike (RenumbersAll (R := R) change) (FollowsAnyhow change) (takeThenBody fuel c)
      (takeThenBody fuel c')
  body : ∀ c c' : Cursor, Follows change true c c' →
    Alike (RenumbersAll (R := R) change) (FollowsAnyhow change) (takeBody fuel c) (takeBody fuel c')
  bodyStatements : ∀ c c' : Cursor, FollowsAnyhow change c c' →
    Alike (RenumbersAll (R := R) change) (FollowsAnyhow change) (takeBodyStatements fuel c)
      (takeBodyStatements fuel c')

omit [NumberSystem R] in
theorem renumbers_if {column column' : Column} {condition condition' : Expr R}
    {thenBody thenBody' elseBody elseBody' : List (Stmt R)} (hcondition : SameExpr condition condition')
    (hthen : RenumbersAll change thenBody thenBody') (helse : RenumbersAll change elseBody elseBody') :
    Renumbers change (.if column condition thenBody elseBody)
      (.if column' condition' thenBody' elseBody') := by
  unfold Renumbers Stmt.bare
  rw [hcondition, hthen, helse]

variable (hchange : ∀ old new, change old = some new → new ≤ Text.maxWord32)
include hchange

theorem alike_takeStatement {fuel : Nat} (ih : StatementsAlike R change fuel)
    (h : FollowsAnyhow change c c') :
    Alike (Renumbers (R := R) change) (FollowsAnyhow change) (takeStatement (fuel + 1) c)
      (takeStatement (fuel + 1) c') := by
  obtain ⟨inTargets, h⟩ := h
  rw [takeStatement, takeStatement]
  dsimp only
  rcases h.peek?_cases with ⟨s, s', hs, hs'⟩ | ⟨s, s', hs, hs'⟩ | ⟨heq, hnumber⟩
  · rw [hs, hs']
    exact .of_error rfl
  · rw [hs, hs']
    exact .of_ok rfl (h.skip hs).anyhow
  rw [heq]
  generalize hpeek : c.peek? = peek at hnumber
  split
  · rename_i name
    have htaken : Follows change false c.skip c'.skip := h.skip hpeek
    exact .ite htaken (fun _ => alike_takeAssignment fuel _ _ rfl htaken)
      (alike_takeNativeCall fuel _ _ name htaken)
  · exact .of_ok rfl (h.skip hpeek).anyhow
  · have htaken : Follows change false c.skip c'.skip := h.skip hpeek
    refine (alike_takeItems fuel true htaken).bind fun items items' c c' hitems hc => ?_
    exact .of_ok (congrArg (Stmt.print {}) hitems) hc.anyhow
  · have htaken : Follows change false c.skip c'.skip := h.skip hpeek
    exact (alike_takeVariable htaken).bind
      fun v v' c c' hv hc => alike_takeAssignment fuel _ _ hv hc
  · have htaken : Follows change true c.skip c'.skip := h.skip hpeek
    refine (alike_takeTarget hchange htaken).bind fun t t' c c' ht hc => ?_
    exact .of_ok (congrArg (Stmt.goto {}) ht) hc
  · have htaken : Follows change true c.skip c'.skip := h.skip hpeek
    refine (alike_takeTarget hchange htaken).bind fun t t' c c' ht hc => ?_
    exact .of_ok (congrArg (Stmt.gosub {}) ht) hc
  · exact .of_ok rfl (h.skip hpeek).anyhow
  · exact .of_ok rfl (h.skip hpeek).anyhow
  · have htaken : Follows change false c.skip c'.skip := h.skip hpeek
    refine (alike_takeExpression fuel 0 htaken).bind fun condition condition' c c' hcondition hc => ?_
    refine (ih.thenBody c c' hc).bind fun thenBody thenBody' c c' hthen hc => ?_
    obtain ⟨inTargets, hc⟩ := hc
    refine .ite hc (fun helse => ?_) (.of_ok (renumbers_if hcondition hthen rfl) hc.anyhow)
    have hskip : Follows change true c.skip c'.skip := hc.skip helse
    refine (ih.body _ _ hskip).bind fun elseBody elseBody' c c' helse hc => .of_ok ?_ hc
    exact renumbers_if hcondition hthen helse
  · have htaken : Follows change false c.skip c'.skip := h.skip hpeek
    exact alike_takeLoop fuel _ _ htaken
  · have htaken : Follows change false c.skip c'.skip := h.skip hpeek
    rw [htaken.atStatementEnd_eq]
    split
    · exact .of_ok rfl htaken.anyhow
    · refine (alike_takeVariable htaken).bind fun v v' c c' hv hc => ?_
      exact .of_ok (congrArg (fun v => Stmt.next {} (some v)) hv) hc.anyhow
  · have htaken : Follows change false c.skip c'.skip := h.skip hpeek
    rcases htaken.peek?_eq_or with heq | ⟨s, s', hs, hs'⟩
    case inr =>
      rw [hs, hs']
      exact .of_ok rfl (htaken.skip hs).anyhow
    rw [heq]
    generalize hremark : c.skip.peek? = remark
    split
    · exact .of_ok rfl (htaken.skip hremark).anyhow
    · exact .of_ok rfl htaken.anyhow
  · exact .of_error rfl

theorem alike_takeThenBody {fuel : Nat} (ih : StatementsAlike R change fuel)
    (h : Follows change false c c') :
    Alike (RenumbersAll (R := R) change) (FollowsAnyhow change) (takeThenBody (fuel + 1) c)
      (takeThenBody (fuel + 1) c') := by
  rw [takeThenBody, takeThenBody]
  refine .ite h (fun hpeek => ?_) (.expect h fun hskip => ih.body _ _ hskip)
  have hskip : Follows change true c.skip c'.skip := h.skip hpeek
  refine (alike_takeTarget hchange hskip).bind fun t t' c c' ht hc => ?_
  exact .of_ok (.cons (congrArg (Stmt.goto {}) ht) rfl) hc

theorem alike_takeBody {fuel : Nat} (ih : StatementsAlike R change fuel)
    (h : Follows change true c c') :
    Alike (RenumbersAll (R := R) change) (FollowsAnyhow change) (takeBody (fuel + 1) c)
      (takeBody (fuel + 1) c') := by
  rw [takeBody, takeBody]
  rcases h.peek?_cases with ⟨s, s', hs, hs'⟩ | ⟨s, s', hs, hs'⟩ | ⟨heq, hnumber⟩
  · rw [hs, hs']
    refine (alike_takeTarget hchange h).bind fun t t' c c' ht hc => ?_
    exact .of_ok (.cons (congrArg (Stmt.goto {}) ht) rfl) hc
  · rw [hs, hs']
    exact ih.bodyStatements _ _ h.anyhow
  · rw [heq]
    split
    · rename_i s hpeek
      exact absurd hpeek (hnumber s)
    · exact ih.bodyStatements _ _ h.anyhow

omit hchange in
theorem alike_takeBodyStatements {fuel : Nat} (ih : StatementsAlike R change fuel)
    (h : FollowsAnyhow change c c') :
    Alike (RenumbersAll (R := R) change) (FollowsAnyhow change) (takeBodyStatements (fuel + 1) c)
      (takeBodyStatements (fuel + 1) c') := by
  obtain ⟨inTargets, h⟩ := h
  have hstatement : Alike (RenumbersAll (R := R) change) (FollowsAnyhow change)
      (takeStatement fuel c >>= fun s => takeBodyStatements fuel s.2 >>= fun ss =>
        .ok (s.1 :: ss.1, ss.2))
      (takeStatement fuel c' >>= fun s => takeBodyStatements fuel s.2 >>= fun ss =>
        .ok (s.1 :: ss.1, ss.2)) := by
    refine (ih.statement c c' h.anyhow).bind fun s s' c c' hs hc => ?_
    refine (ih.bodyStatements c c' hc).bind fun ss ss' c c' hss hc => ?_
    exact .of_ok (.cons hs hss) hc
  rw [takeBodyStatements, takeBodyStatements]
  rcases h.peek?_cases with ⟨s, s', hs, hs'⟩ | ⟨s, s', hs, hs'⟩ | ⟨heq, -⟩
  · rw [hs, hs']
    exact hstatement
  · rw [hs, hs']
    exact hstatement
  rw [heq]
  generalize hpeek : c.peek? = peek
  split
  · exact .of_ok rfl h.anyhow
  · exact .of_ok rfl h.anyhow
  · exact ih.bodyStatements _ _ (h.skip hpeek).anyhow
  · exact hstatement

theorem statementsAlike (fuel : Nat) : StatementsAlike R change fuel := by
  induction fuel with
  | zero =>
      refine ⟨?_, ?_, ?_, ?_⟩ <;> intros <;> exact .of_error rfl
  | succ fuel ih =>
      exact ⟨fun c c' h => alike_takeStatement hchange ih h,
        fun c c' h => alike_takeThenBody hchange ih h, fun c c' h => alike_takeBody hchange ih h,
        fun c c' h => alike_takeBodyStatements ih h⟩

theorem agree_takeStatements (fuel : Nat) (h : FollowsAnyhow change c c') :
    Agree (fun e e' => e'.bare = e.bare) (RenumbersAll (R := R) change) (takeStatements fuel c)
      (takeStatements fuel c') := by
  induction fuel generalizing c c' with
  | zero => exact .error rfl
  | succ fuel ih =>
      obtain ⟨inTargets, h⟩ := h
      rw [takeStatements, takeStatements]
      rcases h.peek?_cases with ⟨s, s', hs, hs'⟩ | ⟨s, s', hs, hs'⟩ | ⟨heq, -⟩
      case' inl => rw [hs, hs']
      case' inr.inl => rw [hs, hs']
      case' inr.inr =>
        rw [heq]
        generalize hpeek : c.peek? = peek
        split
        · exact .ok rfl
        · exact ih (h.skip hpeek).anyhow
      -- at a number, at a remark, or at any other token but a colon there has to be a statement
      all_goals
        refine Agree.bind ((statementsAlike hchange fuel).statement c c' h.anyhow) ?_
        rintro ⟨s, c⟩ ⟨s', c'⟩ ⟨hs, inTargets, hc⟩
        have hmore : Agree (fun e e' => e'.bare = e.bare) (RenumbersAll (R := R) change)
            (takeStatements fuel c >>= fun ss => .ok (s :: ss))
            (takeStatements fuel c' >>= fun ss => .ok (s' :: ss)) :=
          (ih hc.anyhow).bind fun ss ss' hss => .ok (.cons hs hss)
        dsimp only
        rcases hc.peek?_cases with ⟨s, s', hs, hs'⟩ | ⟨s, s', hs, hs'⟩ | ⟨heq, -⟩
        · rw [hs, hs']
          exact .error rfl
        · rw [hs, hs']
          exact .error rfl
        rw [heq]
        generalize c.peek? = peek
        split
        · exact hmore
        · exact hmore
        · exact .error rfl

end Cursor

theorem Token.map_plain_renumberTokens (change : LineNumber → Option LineNumber) (inTargets : Bool)
    (tokens : List Token) :
    (renumberTokens change inTargets tokens).map plain = renumberTokens change inTargets (tokens.map plain) := by
  induction tokens generalizing inTargets with
  | nil => rfl
  | cons token tokens ih =>
      rw [renumberTokens, List.map_cons, List.map_cons, renumberTokens, Cursor.renumberToken_plain,
        Cursor.opensTargets_plain, ih]

theorem Line.length_renumberTokens (change : LineNumber → Option LineNumber) (inTargets : Bool)
    (tokens : List Token) : (renumberTokens change inTargets tokens).length = tokens.length := by
  induction tokens generalizing inTargets with
  | nil => rfl
  | cons token tokens ih => rw [renumberTokens, List.length_cons, List.length_cons, ih]

/-- The statements of a line in another layout and under new numbers. -/
theorem Stmt.agree_parse [NumberSystem R] {change : LineNumber → Option LineNumber}
    (hchange : ∀ old new, change old = some new → new ≤ Text.maxWord32)
    {tokens tokens' : List (Column × Token)}
    (htokens : tokens'.map (Token.plain ∘ Prod.snd) =
      renumberTokens change false (tokens.map (Token.plain ∘ Prod.snd))) :
    Agree (fun e e' => e'.bare = e.bare) (Cursor.RenumbersAll (R := R) change) (Stmt.parse tokens)
      (Stmt.parse tokens') := by
  have hlength := congrArg List.length htokens
  rw [length_renumberTokens, List.length_map, List.length_map] at hlength
  have hfollows : Cursor.Follows change false { rest := tokens } { rest := tokens' } := htokens
  unfold Stmt.parse
  rw [hlength]
  exact Cursor.agree_takeStatements hchange _ hfollows.anyhow

/-- A line in another layout and under new numbers. -/
structure LexedLine.Follows (change : LineNumber → Option LineNumber) (line line' : LexedLine) :
    Prop where
  number : line'.number = newNumber change line.number
  tokens : line'.tokens.map (Token.plain ∘ Prod.snd) =
    renumberTokens change false (line.tokens.map (Token.plain ∘ Prod.snd))

theorem Error.renamed_inLine {f : LineNumber → LineNumber} {e e' : Error} (h : e'.bare = e.bare)
    (n : LineNumber) : (e.inLine n).Renamed f (e'.inLine (f n)) := by
  have hcode : e'.bare.code = e.bare.code := congrArg Error.code h
  have htext : e'.bare.text = e.bare.text := congrArg Error.text h
  exact ⟨hcode, rfl, .inl htext⟩

/-- The lines of a program in another layout and under new numbers. -/
theorem Program.agree_parseLines [NumberSystem R] {change : LineNumber → Option LineNumber}
    (hchange : ∀ old new, change old = some new → new ≤ Text.maxWord32)
    {lexed lexed' : List LexedLine} (h : List.Forall₂ (LexedLine.Follows change) lexed lexed') :
    Agree (Error.Renamed (newNumber change))
      (fun lines lines' => lines'.map (ProgramLine.bare id) =
        lines.map (ProgramLine.bare (newNumber change)))
      (parseLines (R := R) lexed) (parseLines lexed') := by
  induction h with
  | nil => exact .ok rfl
  | @cons line line' lexed lexed' hline _ ih =>
      rw [parseLines, parseLines]
      obtain ⟨ss, ss', hread, hread', hss⟩ | ⟨e, e', hread, hread', herror⟩ :=
        agree_iff.mp (Stmt.agree_parse (R := R) hchange hline.tokens)
      · rw [hread, hread']
        refine ih.bind fun lines lines' hlines => .ok ?_
        rw [List.map_cons, List.map_cons, hlines, ProgramLine.bare, ProgramLine.bare, hss, hline.number]
        rfl
      · rw [hread, hread', hline.number]
        exact .error (Error.renamed_inLine herror line.number)

end LineBasic
