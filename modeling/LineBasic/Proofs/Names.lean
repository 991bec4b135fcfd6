import Mathlib.Data.List.TakeWhile
import LineBasic.Proofs.Acceptance

namespace LineBasic

variable {R : Type}

namespace Expr

mutual

/-- The names of variables and natives in an expression. -/
def names : Expr R → List String
  | var _ name => [name]
  | call _ name args => name :: namesAll args
  | unary _ _ e => e.names
  | binary _ _ l r => l.names ++ r.names
  | _ => []

def namesAll : List (Expr R) → List String
  | [] => []
  | e :: es => e.names ++ namesAll es

end

end Expr

namespace Stmt

mutual

/-- The names of variables and natives in a statement. -/
def names : Stmt R → List String
  | call _ name args => name :: Expr.namesAll args
  | .for _ v start limit step =>
      v.name :: (start.names ++ limit.names ++ (step.map Expr.names).getD [])
  | .if _ condition thenBody elseBody =>
      condition.names ++ namesAll thenBody ++ namesAll elseBody
  | .let _ v e => v.name :: e.names
  | next _ v => (v.map Variable.name).toList
  | print _ items => Expr.namesAll items
  | _ => []

def namesAll : List (Stmt R) → List String
  | [] => []
  | s :: ss => s.names ++ namesAll ss

end

theorem mem_namesAll {ss : List (Stmt R)} {name : String} :
    name ∈ namesAll ss ↔ ∃ s ∈ ss, name ∈ s.names := by
  induction ss with
  | nil => simp [namesAll]
  | cons s ss ih => simp [namesAll, ih]

end Stmt

namespace Program

/-- The names of variables and natives in a program. -/
def names (p : Program R) : List String :=
  p.lines.flatMap fun line => Stmt.namesAll line.statements

end Program

/-- A name as a text can have it: letters, digits and dollar signs. -/
def IsName (name : String) : Prop :=
  name.toList ≠ [] ∧ ∀ c ∈ name.toList, Token.isNamePart c ∨ c = '$'

/-- A name is not one of those that compilation keeps to itself. -/
theorem IsName.ne_limit {name : String} (h : IsName name) (place : Place) :
    name ≠ place.limit := by
  rintro rfl
  have hhead := h.2 '%' (by simp [Place.limit])
  revert hhead
  decide

theorem IsName.ne_step {name : String} (h : IsName name) (place : Place) :
    name ≠ place.step := by
  rintro rfl
  have hhead := h.2 '%' (by simp [Place.step])
  revert hhead
  decide

namespace Text

/-- What holds of every character below a bound, which can be checked for one after the other. -/
theorem char_of_lt {P : Char → Prop} {bound : Nat} (h : ∀ n < bound, P (Char.ofNat n)) {c : Char}
    (hc : c.toNat < bound) : P c := by
  have hchar := h c.toNat hc
  rwa [Char.ofNat_toNat] at hchar

theorem toUpper_of_ge {c : Char} (h : 123 ≤ c.toNat) : c.toUpper = c := by
  apply dif_neg
  rintro ⟨-, hle⟩
  have hle : c.toNat ≤ 122 := hle
  omega

end Text

namespace Token

open Text

theorem mem_wordSpan {cs : List Char} {c : Char} (h : c ∈ wordSpan cs) :
    isNamePart c ∨ c = '$' := by
  unfold wordSpan at h
  extract_lets letters name at h
  split at h
  · have hletter : isLetter c := List.mem_takeWhile_imp h
    exact .inl (by simp [isNamePart, hletter])
  · split at h
    · rcases List.mem_append.mp h with h | h
      · exact .inl (List.mem_takeWhile_imp h)
      · exact .inr (List.mem_singleton.mp h)
    · exact .inl (List.mem_takeWhile_imp h)

theorem wordSpan_ne_nil {c : Char} (h : isLetter c) (cs : List Char) :
    wordSpan (c :: cs) ≠ [] := by
  unfold wordSpan
  extract_lets letters name
  have hletters : letters ≠ [] := by simp [letters, h]
  have hname : name ≠ [] := by simp [name, isNamePart, h]
  split
  · exact hletters
  · split
    · simp
    · exact hname

private theorem isNamePart_toUpper {c : Char} (h : isNamePart c) : isNamePart c.toUpper := by
  have hlt : c.toNat < 123 := by
    simp only [isNamePart, isLetter, isDigit, Bool.or_eq_true, Bool.and_eq_true,
      decide_eq_true_eq, Char.le_def, UInt32.le_iff_toNat_le] at h
    change c.val.toNat < 123
    have hz : 'z'.val.toNat = 122 := rfl
    have hZ : 'Z'.val.toNat = 90 := rfl
    have h9 : '9'.val.toNat = 57 := rfl
    omega
  exact char_of_lt (P := fun c => isNamePart c → isNamePart c.toUpper) (by decide) hlt h

theorem isName_upper {cs : List Char} (hne : cs ≠ [])
    (h : ∀ c ∈ cs, isNamePart c ∨ c = '$') : IsName (upper (String.ofList cs)) := by
  refine ⟨by simpa [upper] using hne, ?_⟩
  intro c hc
  simp only [upper, String.toList_ofList, List.mem_map] at hc
  obtain ⟨d, hd, rfl⟩ := hc
  rcases h d hd with h | rfl
  · exact .inl (isNamePart_toUpper h)
  · exact .inr rfl

theorem ofWord?_ne_name (word s : String) : ofWord? word ≠ some (name s) := by
  unfold ofWord?
  split <;> simp

theorem sign?_ne_name (cs : List Char) (s : String) (n : Nat) :
    sign? cs ≠ some (name s, n) := by
  unfold sign?
  split <;> simp

theorem isName_of_scan {cs : List Char} {s : String} (h : (scan cs).token = .ok (name s)) :
    IsName s := by
  unfold scan at h
  split at h
  · cases h
  · rename_i c rest
    split at h
    · extract_lets taken text at h
      split at h <;> cases h
    · split at h
      · rename_i hletter
        have hname := isName_upper (wordSpan_ne_nil hletter rest)
          fun _ => mem_wordSpan
        simp only [Except.ok.injEq] at h
        cases hword : ofWord? (upper (String.ofList (wordSpan (c :: rest)))) with
        | none =>
            rw [hword, Option.getD_none, Token.name.injEq] at h
            exact h ▸ hname
        | some token =>
            rw [hword, Option.getD_some] at h
            exact absurd (h ▸ hword) (ofWord?_ne_name _ _)
      · split at h
        · extract_lets inside at h
          split at h <;> simp at h
        · split at h
          · rename_i token length hsign
            simp only [Except.ok.injEq] at h
            exact absurd (h ▸ hsign) (sign?_ne_name _ _ _)
          · cases h

theorem isName_of_mem_lexFrom {fuel start : Nat} {cs : List Char}
    {tokens : List (Column × Token)} (h : lexFrom fuel start cs = .ok tokens)
    {column : Column} {s : String} (hmem : (column, name s) ∈ tokens) : IsName s := by
  have hremark : ∀ start cs, (column, name s) ∉ remarkFrom start cs := by
    intro start cs
    unfold remarkFrom
    split <;> simp
  induction fuel generalizing start cs tokens with
  | zero =>
      cases h
      cases hmem
  | succ fuel ih =>
      cases cs with
      | nil =>
          cases h
          cases hmem
      | cons c cs =>
          rw [lexFrom] at h
          split at h
          · exact ih h hmem
          · split at h
            · cases h
              exact absurd hmem (hremark _ _)
            · extract_lets lexeme stop rest at h
              split at h
              · cases h
              · rename_i token htoken
                split at h
                · rename_i hrem
                  cases h
                  rcases List.mem_cons.mp hmem with heq | hmem
                  · rw [hrem] at heq
                    cases heq
                  · exact absurd hmem (hremark _ _)
                · cases hrest : lexFrom fuel stop rest with
                  | error e =>
                      rw [hrest] at h
                      cases h
                  | ok tokens' =>
                      rw [hrest] at h
                      cases h
                      rcases List.mem_cons.mp hmem with heq | hmem
                      · rw [Prod.mk.injEq] at heq
                        rw [← heq.2] at htoken
                        exact isName_of_scan htoken
                      · exact ih hrest hmem

end Token

theorem LexedLine.isName_of_mem_lexAfter {previous : Option LineNumber} {texts : List String}
    {lines : List LexedLine} (h : lexAfter previous texts = .ok lines) {line : LexedLine}
    (hline : line ∈ lines) {column : Column} {s : String}
    (hmem : (column, Token.name s) ∈ line.tokens) : IsName s := by
  induction texts generalizing previous lines with
  | nil =>
      cases h
      cases hline
  | cons text texts ih =>
      rw [lexAfter] at h
      split at h
      · exact ih h hline
      · split at h
        · cases h
        · cases h
        · split at h
          · cases h
          · split at h
            · cases h
            · rename_i tokens htokens
              cases hrest : lexAfter (some _) texts with
              | error e =>
                  rw [hrest] at h
                  cases h
              | ok rest =>
                  rw [hrest] at h
                  cases h
                  rcases List.mem_cons.mp hline with rfl | hline
                  · exact Token.isName_of_mem_lexFrom htokens hmem
                  · exact ih hrest hline

namespace Cursor

variable [NumberSystem R] {P : String → Prop} {α β : Type}

/-- The names that are still to be taken have a property. -/
def Names (P : String → Prop) (c : Cursor) : Prop :=
  ∀ column s, (column, Token.name s) ∈ c.rest → P s

theorem Names.skip {c : Cursor} (h : c.Names P) : c.skip.Names P := by
  unfold Cursor.skip
  split
  · exact h
  · rename_i hrest
    intro column s hmem
    exact h column s (hrest ▸ List.mem_cons_of_mem _ hmem)

theorem Names.of_peek? {c : Cursor} (h : c.Names P) {s : String}
    (hpeek : c.peek? = some (.name s)) : P s := by
  unfold peek? at hpeek
  cases hrest : c.rest with
  | nil =>
      rw [hrest] at hpeek
      cases hpeek
  | cons t rest =>
      rw [hrest] at hpeek
      obtain ⟨column, token⟩ := t
      cases hpeek
      exact h column s (hrest ▸ List.mem_cons_self)

/-- If a reader gets a result, its names have the property, and so have those
still to be taken. -/
def Yields (P : String → Prop) (names : α → List String)
    (x : Except Error (α × Cursor)) : Prop :=
  ∀ a c, x = .ok (a, c) → (∀ n ∈ names a, P n) ∧ c.Names P

variable {names : α → List String} {names' : β → List String}

theorem Yields.bind {x : Except Error (α × Cursor)}
    {f : α × Cursor → Except Error (β × Cursor)} (hx : Yields P names x)
    (hf : ∀ a c, (∀ n ∈ names a, P n) → c.Names P → Yields P names' (f (a, c))) :
    Yields P names' (x >>= f) := by
  intro b c' h
  cases hxa : x with
  | error e =>
      rw [hxa] at h
      cases h
  | ok ac =>
      obtain ⟨a, c⟩ := ac
      rw [hxa] at h
      obtain ⟨ha, hc⟩ := hx a c hxa
      exact hf a c ha hc b c' h

theorem Yields.of_ok {a : α} {c : Cursor} (ha : ∀ n ∈ names a, P n) (hc : c.Names P) :
    Yields P names (.ok (a, c)) := by
  rintro a' c' h
  cases h
  exact ⟨ha, hc⟩

theorem Yields.of_error (e : Error) : Yields P names (.error e) := by
  rintro a c h
  cases h

theorem Yields.expect {token : Token} {c : Cursor}
    {f : Cursor → Except Error (β × Cursor)} (hf : Yields P names' (f c.skip)) :
    Yields P names' (c.expect token >>= f) := by
  unfold Cursor.expect
  split
  · exact hf
  · exact Yields.of_error _

theorem yields_takeVariable {c : Cursor} (h : c.Names P) :
    Yields P (fun v : Variable => [v.name]) c.takeVariable := by
  unfold takeVariable
  split
  · rename_i hpeek
    exact Yields.of_ok (by simpa using h.of_peek? hpeek) h.skip
  · exact Yields.of_error _

theorem yields_takeTarget {c : Cursor} (h : c.Names P) :
    Yields P (fun _ : Target => []) c.takeTarget := by
  unfold takeTarget
  split
  · split
    · exact Yields.of_ok (by simp) h.skip
    · exact Yields.of_error _
  · exact Yields.of_error _

/-- The readers of expressions yield no new names, with a given fuel. -/
structure ExpressionReaders (R : Type) [NumberSystem R] (P : String → Prop) (fuel : Nat) :
    Prop where
  expression : ∀ (least : Nat) (c : Cursor), c.Names P →
    Yields P (Expr.names (R := R)) (takeExpression fuel least c)
  operators : ∀ (least : Nat) (left : Expr R) (c : Cursor), (∀ n ∈ left.names, P n) →
    c.Names P → Yields P Expr.names (takeOperators fuel least left c)
  operand : ∀ c : Cursor, c.Names P → Yields P (Expr.names (R := R)) (takeOperand fuel c)
  arguments : ∀ c : Cursor, c.Names P →
    Yields P (Expr.namesAll (R := R)) (takeArguments fuel c)
  moreArguments : ∀ c : Cursor, c.Names P →
    Yields P (Expr.namesAll (R := R)) (takeMoreArguments fuel c)

theorem yields_takeOperand {fuel : Nat} (ih : ExpressionReaders R P fuel) {c : Cursor}
    (h : c.Names P) : Yields P (Expr.names (R := R)) (takeOperand (fuel + 1) c) := by
  rw [takeOperand]
  have htaken : c.skip.Names P := h.skip
  split
  · exact (ih.expression _ _ htaken).bind fun e c he hc => Yields.of_ok he hc
  · exact ih.expression _ _ htaken
  · exact (ih.expression _ _ htaken).bind fun e c he hc => Yields.of_ok he hc
  · refine (ih.expression _ _ htaken).bind fun e c he hc => ?_
    exact Yields.expect (Yields.of_ok he hc.skip)
  · rename_i name hpeek
    have hname := h.of_peek? hpeek
    split
    · refine (ih.arguments _ htaken).bind fun args c hargs hc => Yields.of_ok ?_ hc
      simpa [Expr.names] using ⟨hname, hargs⟩
    · exact Yields.of_ok (by simpa [Expr.names] using hname) htaken
  · split
    · exact Yields.of_ok (by simp [Expr.names]) htaken
    · exact Yields.of_error _
  · exact Yields.of_ok (by simp [Expr.names]) htaken
  · exact Yields.of_error _

theorem yields_takeOperators {fuel : Nat} (ih : ExpressionReaders R P fuel) (least : Nat)
    {left : Expr R} {c : Cursor} (hleft : ∀ n ∈ left.names, P n) (h : c.Names P) :
    Yields P Expr.names (takeOperators (fuel + 1) least left c) := by
  rw [takeOperators]
  split
  · split
    · split
      · refine (ih.expression _ _ h.skip).bind fun right c hright hc => ?_
        refine ih.operators _ _ _ ?_ hc
        simpa [Expr.names, or_imp, forall_and] using ⟨hleft, hright⟩
      · exact Yields.of_ok hleft h
    · exact Yields.of_ok hleft h
  · exact Yields.of_ok hleft h

theorem yields_takeArguments {fuel : Nat} (ih : ExpressionReaders R P fuel) {c : Cursor}
    (h : c.Names P) : Yields P (Expr.namesAll (R := R)) (takeArguments (fuel + 1) c) := by
  rw [takeArguments]
  refine Yields.expect ?_
  split
  · exact Yields.of_ok (by simp [Expr.namesAll]) h.skip.skip
  · exact ih.moreArguments _ h.skip

theorem yields_takeMoreArguments {fuel : Nat} (ih : ExpressionReaders R P fuel) {c : Cursor}
    (h : c.Names P) : Yields P (Expr.namesAll (R := R)) (takeMoreArguments (fuel + 1) c) := by
  rw [takeMoreArguments]
  refine (ih.expression _ _ h).bind fun e c he hc => ?_
  dsimp only
  split
  · exact Yields.of_ok (by simpa [Expr.namesAll] using he) hc.skip
  · refine (ih.moreArguments _ hc.skip).bind fun es c hes hc => Yields.of_ok ?_ hc
    simpa [Expr.namesAll, or_imp, forall_and] using ⟨he, hes⟩
  · exact Yields.of_error _

theorem expressionReaders (P : String → Prop) (fuel : Nat) :
    ExpressionReaders R P fuel := by
  induction fuel with
  | zero =>
      refine ⟨?_, ?_, ?_, ?_, ?_⟩ <;> intros <;> exact Yields.of_error _
  | succ fuel ih =>
      refine ⟨?_, ?_, ?_, ?_, ?_⟩
      · intro least c h
        rw [takeExpression]
        exact (ih.operand c h).bind fun e c he hc => ih.operators _ _ _ he hc
      · exact fun least left c hleft h => yields_takeOperators ih least hleft h
      · exact fun c h => yields_takeOperand ih h
      · exact fun c h => yields_takeArguments ih h
      · exact fun c h => yields_takeMoreArguments ih h

theorem yields_takeExpression (fuel least : Nat) {c : Cursor} (h : c.Names P) :
    Yields P (Expr.names (R := R)) (takeExpression fuel least c) :=
  (expressionReaders P fuel).expression least c h

theorem yields_takeBareArguments (fuel : Nat) {c : Cursor} (h : c.Names P) :
    Yields P (Expr.namesAll (R := R)) (takeBareArguments fuel c) := by
  induction fuel generalizing c with
  | zero => exact Yields.of_error _
  | succ fuel ih =>
      rw [takeBareArguments]
      refine (yields_takeExpression fuel 0 h).bind fun e c he hc => ?_
      dsimp only
      split
      · refine (ih hc.skip).bind fun es c hes hc => Yields.of_ok ?_ hc
        simpa [Expr.namesAll, or_imp, forall_and] using ⟨he, hes⟩
      · exact Yields.of_ok (by simpa [Expr.namesAll] using he) hc

theorem yields_takeItems (fuel : Nat) (lineFeed : Bool) {c : Cursor} (h : c.Names P) :
    Yields P (Expr.namesAll (R := R)) (takeItems lineFeed fuel c) := by
  induction fuel generalizing lineFeed c with
  | zero => exact Yields.of_error _
  | succ fuel ih =>
      rw [takeItems]
      split
      · refine Yields.of_ok ?_ h
        split <;> simp [Expr.namesAll, Expr.names]
      · split
        · exact ih false h.skip
        · refine (ih false h.skip).bind fun es c hes hc => Yields.of_ok ?_ hc
          simpa [Expr.namesAll, Expr.names] using hes
        · refine (yields_takeExpression fuel 0 h).bind fun e c he hc => ?_
          refine (ih true hc).bind fun es c hes hc => Yields.of_ok ?_ hc
          simpa [Expr.namesAll, or_imp, forall_and] using ⟨he, hes⟩

theorem yields_takeAssignment (fuel : Nat) (column : Column) {v : Variable} {c : Cursor}
    (hv : P v.name) (h : c.Names P) :
    Yields P (Stmt.names (R := R)) (takeAssignment fuel column v c) := by
  unfold takeAssignment
  refine Yields.expect ?_
  refine (yields_takeExpression fuel 0 h.skip).bind fun e c he hc => Yields.of_ok ?_ hc
  simpa [Stmt.names] using ⟨hv, he⟩

theorem yields_takeNativeCall (fuel : Nat) (column : Column) {name : String} {c : Cursor}
    (hname : P name) (h : c.Names P) :
    Yields P (Stmt.names (R := R)) (takeNativeCall fuel column name c) := by
  unfold takeNativeCall
  split
  · refine ((expressionReaders P fuel).arguments c h).bind
      fun args c hargs hc => Yields.of_ok ?_ hc
    simpa [Stmt.names] using ⟨hname, hargs⟩
  · split
    · exact Yields.of_ok (by simpa [Stmt.names, Expr.namesAll] using hname) h
    · refine (yields_takeBareArguments fuel h).bind fun args c hargs hc => Yields.of_ok ?_ hc
      simpa [Stmt.names] using ⟨hname, hargs⟩

theorem yields_takeLoop (fuel : Nat) (column : Column) {c : Cursor} (h : c.Names P) :
    Yields P (Stmt.names (R := R)) (takeLoop fuel column c) := by
  unfold takeLoop
  refine (yields_takeVariable h).bind fun v c hv hc => ?_
  refine Yields.expect ?_
  refine (yields_takeExpression fuel 0 hc.skip).bind fun start c hstart hc => ?_
  refine Yields.expect ?_
  refine (yields_takeExpression fuel 0 hc.skip).bind fun limit c hlimit hc => ?_
  have hv : P v.name := hv _ (List.mem_singleton.mpr rfl)
  dsimp only
  split
  · refine (yields_takeExpression fuel 0 hc.skip).bind fun step c hstep hc => ?_
    refine Yields.of_ok ?_ hc
    simpa [Stmt.names, or_imp, forall_and] using ⟨hv, hstart, hlimit, hstep⟩
  · refine Yields.of_ok ?_ hc
    simpa [Stmt.names, or_imp, forall_and] using ⟨hv, hstart, hlimit⟩

/-- The readers of statements yield no new names, with a given fuel. -/
structure StatementReaders (R : Type) [NumberSystem R] (P : String → Prop) (fuel : Nat) :
    Prop where
  statement : ∀ c : Cursor, c.Names P → Yields P (Stmt.names (R := R)) (takeStatement fuel c)
  thenBody : ∀ c : Cursor, c.Names P →
    Yields P (Stmt.namesAll (R := R)) (takeThenBody fuel c)
  body : ∀ c : Cursor, c.Names P → Yields P (Stmt.namesAll (R := R)) (takeBody fuel c)
  bodyStatements : ∀ c : Cursor, c.Names P →
    Yields P (Stmt.namesAll (R := R)) (takeBodyStatements fuel c)

theorem yields_takeStatement {fuel : Nat} (ih : StatementReaders R P fuel) {c : Cursor}
    (h : c.Names P) : Yields P (Stmt.names (R := R)) (takeStatement (fuel + 1) c) := by
  rw [takeStatement]
  have htaken : c.skip.Names P := h.skip
  split
  · rename_i name hpeek
    have hname := h.of_peek? hpeek
    split
    · exact yields_takeAssignment fuel _ hname htaken
    · exact yields_takeNativeCall fuel _ hname htaken
  · exact Yields.of_ok (by simp [Stmt.names]) htaken
  · exact (yields_takeItems fuel true htaken).bind fun items c hitems hc =>
      Yields.of_ok hitems hc
  · refine (yields_takeVariable htaken).bind fun v c hv hc => ?_
    exact yields_takeAssignment fuel _ (hv _ (List.mem_singleton.mpr rfl)) hc
  · exact (yields_takeTarget htaken).bind fun t c _ hc =>
      Yields.of_ok (by simp [Stmt.names]) hc
  · exact (yields_takeTarget htaken).bind fun t c _ hc =>
      Yields.of_ok (by simp [Stmt.names]) hc
  · exact Yields.of_ok (by simp [Stmt.names]) htaken
  · exact Yields.of_ok (by simp [Stmt.names]) htaken
  · refine (yields_takeExpression fuel 0 htaken).bind fun condition c hcondition hc => ?_
    refine (ih.thenBody c hc).bind fun thenBody c hthen hc => ?_
    dsimp only
    split
    · refine (ih.body _ hc.skip).bind fun elseBody c helse hc => Yields.of_ok ?_ hc
      simpa [Stmt.names, or_imp, forall_and] using ⟨hcondition, hthen, helse⟩
    · refine Yields.of_ok ?_ hc
      simpa [Stmt.names, Stmt.namesAll, or_imp, forall_and] using ⟨hcondition, hthen⟩
  · exact yields_takeLoop fuel _ htaken
  · split
    · exact Yields.of_ok (by simp [Stmt.names]) htaken
    · refine (yields_takeVariable htaken).bind fun v c hv hc => Yields.of_ok ?_ hc
      simpa [Stmt.names] using hv
  · split
    · exact Yields.of_ok (by simp [Stmt.names]) htaken.skip
    · exact Yields.of_ok (by simp [Stmt.names]) htaken
  · exact Yields.of_error _

omit [NumberSystem R] in
theorem yields_goto (column : Column → Column) {c : Cursor} (h : c.Names P) :
    Yields P (Stmt.namesAll (R := R)) (do
      let (t, c) ← c.takeTarget
      return ([.goto (column t.column) t], c)) :=
  (yields_takeTarget h).bind fun _ _ _ hc =>
    Yields.of_ok (by simp [Stmt.namesAll, Stmt.names]) hc

theorem statementReaders (P : String → Prop) (fuel : Nat) : StatementReaders R P fuel := by
  induction fuel with
  | zero =>
      refine ⟨?_, ?_, ?_, ?_⟩ <;> intros <;> exact Yields.of_error _
  | succ fuel ih =>
      refine ⟨fun c h => yields_takeStatement ih h, ?_, ?_, ?_⟩
      · intro c h
        rw [takeThenBody]
        split
        · exact yields_goto (fun _ => c.skip.column) h.skip
        · exact Yields.expect (ih.body _ h.skip)
      · intro c h
        rw [takeBody]
        split
        · exact yields_goto id h
        · exact ih.bodyStatements c h
      · intro c h
        rw [takeBodyStatements]
        split
        · exact Yields.of_ok (by simp [Stmt.namesAll]) h
        · exact Yields.of_ok (by simp [Stmt.namesAll]) h
        · exact ih.bodyStatements _ h.skip
        · refine (ih.statement c h).bind fun s c hs hc => ?_
          refine (ih.bodyStatements c hc).bind fun ss c hss hc => Yields.of_ok ?_ hc
          simpa [Stmt.namesAll, or_imp, forall_and] using ⟨hs, hss⟩

theorem names_of_takeStatements {fuel : Nat} {c : Cursor} (h : c.Names P)
    {ss : List (Stmt R)} (hread : takeStatements fuel c = .ok ss) :
    ∀ n ∈ Stmt.namesAll ss, P n := by
  induction fuel generalizing c ss with
  | zero => cases hread
  | succ fuel ih =>
      rw [takeStatements] at hread
      split at hread
      · cases hread
        simp [Stmt.namesAll]
      · exact ih h.skip hread
      · cases hs : takeStatement (R := R) fuel c with
        | error e =>
            rw [hs] at hread
            cases hread
        | ok sc =>
            obtain ⟨s, c'⟩ := sc
            obtain ⟨hnames, hc'⟩ := (statementReaders P fuel).statement c h s c' hs
            rw [hs] at hread
            obtain ⟨rest, hrest, hss⟩ : ∃ rest, takeStatements fuel c' = .ok rest ∧
                s :: rest = ss := by
              dsimp only [bind, Except.bind] at hread
              split at hread
              · cases hss : takeStatements (R := R) fuel c' <;> simp_all [pure, Except.pure]
              · cases hss : takeStatements (R := R) fuel c' <;> simp_all [pure, Except.pure]
              · cases hread
            rw [← hss, Stmt.namesAll]
            simpa [or_imp, forall_and] using ⟨hnames, ih hc' hrest⟩

end Cursor

namespace Program

variable [NumberSystem R]

theorem names_of_parseLines {P : String → Prop} {lexed : List LexedLine}
    {lines : List (ProgramLine R)} (h : parseLines lexed = .ok lines)
    (hnames : ∀ line ∈ lexed, ∀ column s, (column, Token.name s) ∈ line.tokens → P s) :
    ∀ line ∈ lines, ∀ n ∈ Stmt.namesAll line.statements, P n := by
  induction lexed generalizing lines with
  | nil =>
      cases h
      simp
  | cons line lexed ih =>
      rw [parseLines] at h
      split at h
      · cases h
      · rename_i statements hstatements
        obtain ⟨rest, hrest, hlines⟩ := Stmt.bind_eq_ok h
        cases hlines
        rw [List.forall_mem_cons] at hnames ⊢
        have hfirst : Cursor.Names P { rest := line.tokens } := hnames.1
        exact ⟨Cursor.names_of_takeStatements hfirst hstatements, ih hrest hnames.2⟩

/-- The names of a program that was read are names as a text can have them. -/
theorem isName_of_read {registry : Registry} {source : String} {p : Program R}
    (h : read registry source = .ok p) : ∀ n ∈ p.names, IsName n := by
  obtain ⟨lexed, hlex, hparse, -⟩ := read_eq_ok h
  have hnames := names_of_parseLines hparse
    fun line hline _ _ hmem => LexedLine.isName_of_mem_lexAfter hlex hline hmem
  intro n hn
  obtain ⟨line, hline, hn⟩ := List.mem_flatMap.mp hn
  exact hnames line hline n hn

end Program

namespace Expr

variable [NumberSystem R]

theorem names_orLiteral (e : Expr R) (result : Except Error (Value R)) :
    (e.orLiteral result).names ⊆ e.names := by
  unfold orLiteral
  split
  · split
    · exact List.nil_subset _
    · exact List.Subset.refl _
  · exact List.nil_subset _
  · exact List.Subset.refl _

mutual

theorem names_fold : ∀ e : Expr R, e.fold.names ⊆ e.names
  | number _ _ | string _ _ | char _ _ | var _ _ => List.Subset.refl _
  | call _ name args => by
      rw [fold, names, names]
      exact List.cons_subset_cons _ (names_foldAll args)
  | unary op column e => by
      rw [fold]
      split
      · exact List.Subset.trans (names_orLiteral _ _) (names_fold e)
      · exact names_fold e
  | binary op column l r => by
      have hboth : (Expr.binary op column l.fold r.fold).names ⊆ l.names ++ r.names :=
        List.append_subset.mpr ⟨List.subset_append_of_subset_left _ (names_fold l),
          List.subset_append_of_subset_right _ (names_fold r)⟩
      rw [fold]
      split
      · exact List.Subset.trans (names_orLiteral _ _) hboth
      · exact hboth

theorem names_foldAll : ∀ es : List (Expr R), namesAll (foldAll es) ⊆ namesAll es
  | [] => List.Subset.refl _
  | e :: es => by
      rw [foldAll, namesAll, namesAll]
      exact List.append_subset.mpr ⟨List.subset_append_of_subset_left _ (names_fold e),
        List.subset_append_of_subset_right _ (names_foldAll es)⟩

end

end Expr

namespace Stmt

theorem namesAll_append (ss ss' : List (Stmt R)) :
    namesAll (ss ++ ss') = namesAll ss ++ namesAll ss' := by
  induction ss with
  | nil => rfl
  | cons s ss ih => simp [namesAll, ih]

variable [NumberSystem R]

mutual

theorem names_fold : ∀ s : Stmt R, s.fold.names ⊆ s.names
  | .end _ | gosub _ _ | goto _ _ | rem _ | .return _ | next _ _ => List.Subset.refl _
  | call _ name args => List.cons_subset_cons _ (Expr.names_foldAll args)
  | print _ items => Expr.names_foldAll items
  | .let _ v e => List.cons_subset_cons _ e.names_fold
  | .for _ v start limit step => by
      refine List.cons_subset_cons _ ?_
      have hfront : start.fold.names ++ limit.fold.names ⊆ start.names ++ limit.names :=
        List.append_subset.mpr ⟨List.subset_append_of_subset_left _ start.names_fold,
          List.subset_append_of_subset_right _ limit.names_fold⟩
      have hstep : ((step.map Expr.fold).map Expr.names).getD [] ⊆
          (step.map Expr.names).getD [] := by
        cases step with
        | none => exact List.Subset.refl _
        | some step => exact step.names_fold
      exact List.append_subset.mpr ⟨List.subset_append_of_subset_left _ hfront,
        List.subset_append_of_subset_right _ hstep⟩
  | .if _ condition thenBody elseBody => by
      have hthen := names_foldAll thenBody
      have helse := names_foldAll elseBody
      have hcondition := condition.names_fold
      intro n
      simp only [fold, names, List.mem_append]
      exact Or.imp (Or.imp (@hcondition n) (@hthen n)) (@helse n)

theorem names_foldAll : ∀ ss : List (Stmt R), namesAll (foldAll ss) ⊆ namesAll ss
  | [] => List.Subset.refl _
  | s :: ss => by
      rw [foldAll, namesAll, namesAll]
      exact List.append_subset.mpr ⟨List.subset_append_of_subset_left _ (names_fold s),
        List.subset_append_of_subset_right _ (names_foldAll ss)⟩

end

mutual

theorem names_tidy : ∀ s : Stmt R, namesAll s.tidy ⊆ s.names
  | call _ _ _ | .end _ | gosub _ _ | goto _ _ | print _ _ | .return _ | next _ _
  | .for _ _ _ _ _ => by
      simp [tidy, isSelfAssignment, namesAll]
  | rem _ => List.nil_subset _
  | .let column v e => by
      rw [tidy_let]
      split <;> simp [namesAll]
  | .if column condition thenBody elseBody => by
      have hthen := names_tidyAll false thenBody
      have helse := names_tidyAll false elseBody
      intro n
      rcases tidy_if column condition thenBody elseBody with hkept | ⟨-, hkept | hkept⟩
      · simp only [hkept, namesAll, names, List.append_nil, List.mem_append]
        exact Or.imp (Or.imp id (@hthen n)) (@helse n)
      · simp only [hkept, names, List.mem_append]
        exact fun hn => .inl (.inr (hthen hn))
      · simp only [hkept, names, List.mem_append]
        exact fun hn => .inr (helse hn)

theorem names_tidyAll (dead : Bool) :
    ∀ ss : List (Stmt R), namesAll (tidyAll dead ss) ⊆ namesAll ss
  | [] => by
      rw [tidyAll]
      exact List.Subset.refl _
  | s :: ss => by
      have hss := fun dead => names_tidyAll dead ss
      rw [tidyAll, namesAll]
      split
      · split
        · exact List.append_subset.mpr ⟨List.subset_append_left _ _,
            List.subset_append_of_subset_right _ (hss true)⟩
        · exact List.subset_append_of_subset_right _ (hss true)
      · rw [namesAll_append]
        exact List.append_subset.mpr ⟨List.subset_append_of_subset_left _ (names_tidy s),
          List.subset_append_of_subset_right _ (hss _)⟩

end

end Stmt

namespace Program

variable {p : Program R}

theorem names_prune (flow : Flow) : (flow.prune p).names ⊆ p.names := by
  intro n hn
  obtain ⟨line, hline, hn⟩ := List.mem_flatMap.mp hn
  exact List.mem_flatMap.mpr ⟨line, List.mem_of_mem_filter hline, hn⟩

variable [NumberSystem R]

theorem names_fold : p.fold.names ⊆ p.names := by
  intro n hn
  obtain ⟨line', hline', hn⟩ := List.mem_flatMap.mp hn
  obtain ⟨line, hline, rfl⟩ := List.mem_map.mp hline'
  exact List.mem_flatMap.mpr ⟨line, hline, Stmt.names_foldAll _ hn⟩

theorem names_tidy : p.tidy.names ⊆ p.names := by
  intro n hn
  obtain ⟨line', hline', hn⟩ := List.mem_flatMap.mp hn
  obtain ⟨line, hline, rfl⟩ := List.mem_map.mp hline'
  exact List.mem_flatMap.mpr ⟨line, hline, Stmt.names_tidyAll false _ hn⟩

theorem names_folded (flags : Flags) : (p.folded flags).names ⊆ p.names := by
  unfold folded
  split
  · exact names_fold
  · exact List.Subset.refl _

theorem names_tidied (flags : Flags) : (p.tidied flags).names ⊆ p.names := by
  unfold tidied
  split
  · exact List.Subset.trans names_tidy (names_folded flags)
  · exact names_folded flags

end Program

end LineBasic
