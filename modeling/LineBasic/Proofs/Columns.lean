import LineBasic.Proofs.Scanning

namespace LineBasic

open Text

variable {R : Type}

/-- A column is a range of a text: it starts and stops between two characters. -/
structure Column.LiesIn (text : String) (column : Column) : Prop where
  ordered : column.start ≤ column.stop
  start : String.Pos.Raw.IsValid text ⟨column.start⟩
  stop : String.Pos.Raw.IsValid text ⟨column.stop⟩

namespace Column

variable {text : String} {column : Column}

theorem isValid_byteLength (front back : List Char) :
    String.Pos.Raw.IsValid (String.ofList (front ++ back)) ⟨byteLength front⟩ := by
  have hlength : byteLength front = (String.ofList front).utf8ByteSize := by
    induction front with
    | nil => rfl
    | cons c cs ih => simp [ih]
  refine String.Pos.Raw.isValid_iff_exists_append.mpr ⟨String.ofList front, String.ofList back, ?_, ?_⟩
  · exact String.ofList_append
  · rw [hlength]
    rfl

theorem liesIn_append (front range back : List Char) :
    LiesIn (String.ofList (front ++ (range ++ back)))
      ⟨byteLength front, byteLength front + byteLength range⟩ where
  ordered := Nat.le_add_right _ _
  start := isValid_byteLength front (range ++ back)
  stop := by
    rw [← byteLength_append, ← List.append_assoc]
    exact isValid_byteLength (front ++ range) back

theorem liesIn_zero (text : String) : LiesIn text {} := by
  simpa using liesIn_append [] [] text.toList

/-- A range of a front of a text is one of the text. -/
theorem LiesIn.mono {front : List Char} (h : column.LiesIn (String.ofList front))
    (hfront : front <+: text.toList) : column.LiesIn text := by
  obtain ⟨back, hback⟩ := hfront
  have htext : text = String.ofList front ++ String.ofList back := by
    rw [← String.ofList_append, hback, String.ofList_toList]
  have hvalid {pos : String.Pos.Raw} (hpos : pos.IsValid (String.ofList front)) : pos.IsValid text := by
    obtain ⟨s, t, heq, rfl⟩ := String.Pos.Raw.isValid_iff_exists_append.mp hpos
    exact String.Pos.Raw.isValid_iff_exists_append.mpr
      ⟨s, t ++ String.ofList back, by rw [htext, heq, String.append_assoc], rfl⟩
  exact ⟨h.ordered, hvalid h.start, hvalid h.stop⟩

/-- The empty range behind a range. -/
theorem LiesIn.behind (h : column.LiesIn text) : LiesIn text ⟨column.stop, column.stop⟩ :=
  ⟨Nat.le_refl _, h.stop, h.stop⟩

end Column

/-- A result has one property, and an error that comes instead of it has another one. -/
def Ends {ε α : Type} (Bad : ε → Prop) (Good : α → Prop) : Except ε α → Prop
  | .ok a => Good a
  | .error e => Bad e

theorem ok_bind {ε α β : Type} (a : α) (f : α → Except ε β) : (.ok a >>= f) = f a :=
  rfl

theorem Ends.bind {ε α β : Type} {Bad : ε → Prop} {Good : α → Prop} {Good' : β → Prop}
    {x : Except ε α} {f : α → Except ε β} (hx : Ends Bad Good x)
    (hf : ∀ a, Good a → Ends Bad Good' (f a)) : Ends Bad Good' (x >>= f) := by
  cases x with
  | error e => exact hx
  | ok a => exact hf a hx

theorem Ends.imp {ε α : Type} {Bad : ε → Prop} {Good Good' : α → Prop} {x : Except ε α}
    (h : Ends Bad Good x) (himp : ∀ a, Good a → Good' a) : Ends Bad Good' x := by
  cases x with
  | error e => exact h
  | ok a => exact himp a h

/-- A result has a property. An error that comes instead of it is about a range of a text, and names no line. -/
abbrev Locates {α : Type} (text : String) : (α → Prop) → Except Error α → Prop :=
  Ends fun e : Error => e.line = none ∧ e.column.LiesIn text

theorem locates_errorAt {α : Type} {text : String} {Good : α → Prop} {column : Column}
    (code : ErrorCode) (words : String) (h : column.LiesIn text) :
    Locates text Good (.error (code.errorAt column words)) :=
  ⟨rfl, h⟩

namespace Token

def AllLieIn (text : String) (tokens : List (Column × Token)) : Prop :=
  ∀ t ∈ tokens, t.1.LiesIn text

theorem allLieIn_remarkFrom (front cs : List Char) :
    AllLieIn (String.ofList (front ++ cs)) (remarkFrom (byteLength front) cs) := by
  unfold remarkFrom
  split
  · exact nofun
  · intro t ht
    rw [List.mem_singleton.mp ht]
    simpa using Column.liesIn_append front cs []

theorem locates_lexFrom (fuel : Nat) (front cs : List Char) :
    Locates (String.ofList (front ++ cs)) (AllLieIn (String.ofList (front ++ cs)))
      (lexFrom fuel (byteLength front) cs) := by
  induction fuel generalizing front cs with
  | zero => exact nofun
  | succ fuel ih =>
      cases cs with
      | nil => exact nofun
      | cons c cs =>
          rw [lexFrom]
          split
          · simpa using ih (front ++ [c]) cs
          · split
            · exact allLieIn_remarkFrom front (c :: cs)
            · extract_lets lexeme stop rest
              have hcs : c :: cs = lexeme.taken ++ rest :=
                (List.prefix_iff_eq_append.mp (prefix_taken (c :: cs))).symm
              have hstop : stop = byteLength (front ++ lexeme.taken) := (byteLength_append _ _).symm
              have hcolumn : Column.LiesIn (String.ofList (front ++ (lexeme.taken ++ rest)))
                  ⟨byteLength front, stop⟩ :=
                Column.liesIn_append front lexeme.taken rest
              rw [hcs]
              split
              · exact locates_errorAt _ _ hcolumn
              · rename_i token _
                split
                · refine List.forall_mem_cons.mpr ⟨hcolumn, ?_⟩
                  rw [hstop, ← List.append_assoc]
                  exact allLieIn_remarkFrom (front ++ lexeme.taken) rest
                · have hrest := ih (front ++ lexeme.taken) rest
                  rw [List.append_assoc, ← hstop] at hrest
                  exact hrest.bind fun tokens htokens => List.forall_mem_cons.mpr ⟨hcolumn, htokens⟩

/-- Every token of a line is a range of its content, and so is what is no token. -/
theorem locates_lex (content : String) : Locates content (AllLieIn content) (lex content) := by
  have h := locates_lexFrom content.toList.length [] content.toList
  rwa [List.nil_append, String.ofList_toList] at h

end Token

inductive Expr.LiesIn (text : String) : Expr R → Prop where
  | number {column : Column} {n : R} : column.LiesIn text → LiesIn text (number column n)
  | string {column : Column} {s : String} : column.LiesIn text → LiesIn text (string column s)
  | char {column : Column} {c : Char} : column.LiesIn text → LiesIn text (char column c)
  | var {column : Column} {name : String} : column.LiesIn text → LiesIn text (var column name)
  | call {column : Column} {name : String} {args : List (Expr R)} :
      column.LiesIn text → (∀ e ∈ args, LiesIn text e) → LiesIn text (call column name args)
  | unary {op : UnaryOp} {column : Column} {e : Expr R} :
      column.LiesIn text → LiesIn text e → LiesIn text (unary op column e)
  | binary {op : BinaryOp} {column : Column} {l r : Expr R} :
      column.LiesIn text → LiesIn text l → LiesIn text r → LiesIn text (binary op column l r)

theorem Expr.LiesIn.column {text : String} {e : Expr R} (h : e.LiesIn text) :
    e.column.LiesIn text := by
  cases h <;> assumption

inductive Stmt.LiesIn (text : String) : Stmt R → Prop where
  | call {column : Column} {name : String} {args : List (Expr R)} :
      column.LiesIn text → (∀ e ∈ args, e.LiesIn text) → LiesIn text (call column name args)
  | end {column : Column} : column.LiesIn text → LiesIn text (.end column)
  | for {column : Column} {v : Variable} {start limit : Expr R} {step : Option (Expr R)} :
      column.LiesIn text → v.column.LiesIn text → start.LiesIn text → limit.LiesIn text →
      (∀ e ∈ step, e.LiesIn text) → LiesIn text (.for column v start limit step)
  | gosub {column : Column} {t : Target} :
      column.LiesIn text → t.column.LiesIn text → LiesIn text (gosub column t)
  | goto {column : Column} {t : Target} :
      column.LiesIn text → t.column.LiesIn text → LiesIn text (goto column t)
  | if {column : Column} {condition : Expr R} {thenBody elseBody : List (Stmt R)} :
      column.LiesIn text → condition.LiesIn text → (∀ s ∈ thenBody, LiesIn text s) →
      (∀ s ∈ elseBody, LiesIn text s) → LiesIn text (.if column condition thenBody elseBody)
  | let {column : Column} {v : Variable} {e : Expr R} :
      column.LiesIn text → v.column.LiesIn text → e.LiesIn text → LiesIn text (.let column v e)
  | next {column : Column} {v : Option Variable} :
      column.LiesIn text → (∀ w ∈ v, w.column.LiesIn text) → LiesIn text (next column v)
  | print {column : Column} {items : List (Expr R)} :
      column.LiesIn text → (∀ e ∈ items, e.LiesIn text) → LiesIn text (print column items)
  | rem {column : Column} : column.LiesIn text → LiesIn text (rem column)
  | return {column : Column} : column.LiesIn text → LiesIn text (.return column)

namespace Cursor

variable [NumberSystem R] {text : String} {α β : Type}

/-- The columns of the last token taken and of those still to be taken are ranges of a text. -/
structure LiesIn (text : String) (c : Cursor) : Prop where
  column : c.column.LiesIn text
  rest : Token.AllLieIn text c.rest

theorem LiesIn.skip {c : Cursor} (h : c.LiesIn text) : c.skip.LiesIn text := by
  unfold Cursor.skip
  split
  · exact h
  · rename_i hrest
    have hall := h.rest
    rw [hrest] at hall
    obtain ⟨hcolumn, hall⟩ := List.forall_mem_cons.mp hall
    exact ⟨hcolumn, hall⟩

/-- What a reader gets has a property, and all columns are ranges of a text, those of its errors as well. -/
abbrev Reads (text : String) (Good : α → Prop) : Except Error (α × Cursor) → Prop :=
  Locates text fun r => Good r.1 ∧ r.2.LiesIn text

variable {Good : α → Prop} {Good' : β → Prop}

theorem Reads.bind {x : Except Error (α × Cursor)} {f : α × Cursor → Except Error (β × Cursor)}
    (hx : Reads text Good x) (hf : ∀ a c, Good a → c.LiesIn text → Reads text Good' (f (a, c))) :
    Reads text Good' (x >>= f) :=
  Ends.bind hx fun r hr => hf r.1 r.2 hr.1 hr.2

theorem reads_ok {a : α} {c : Cursor} (ha : Good a) (hc : c.LiesIn text) :
    Reads text Good (.ok (a, c)) :=
  ⟨ha, hc⟩

theorem reads_fail {c : Cursor} (words : String) (h : c.LiesIn text) :
    Reads text Good (c.fail words) :=
  locates_errorAt _ _ h.column

theorem reads_expect {token : Token} {c : Cursor} {f : Cursor → Except Error (β × Cursor)}
    (h : c.LiesIn text) (hf : Reads text Good' (f c.skip)) :
    Reads text Good' (c.expect token >>= f) := by
  unfold expect
  split
  · exact hf
  · exact reads_fail _ h.skip

theorem reads_takeVariable {c : Cursor} (h : c.LiesIn text) :
    Reads text (fun v : Variable => v.column.LiesIn text) c.takeVariable := by
  unfold takeVariable
  split
  · exact reads_ok h.skip.column h.skip
  · exact reads_fail _ h.skip

theorem reads_takeTarget {c : Cursor} (h : c.LiesIn text) :
    Reads text (fun t : Target => t.column.LiesIn text) c.takeTarget := by
  unfold takeTarget
  split
  · split
    · exact reads_ok h.skip.column h.skip
    · exact locates_errorAt _ _ h.skip.column
  · exact reads_fail _ h.skip

/-- The readers of expressions locate what they read, with a given fuel. -/
structure LocatedExpressions (R : Type) [NumberSystem R] (text : String) (fuel : Nat) : Prop where
  expression : ∀ (least : Nat) (c : Cursor), c.LiesIn text →
    Reads text (Expr.LiesIn (R := R) text) (takeExpression fuel least c)
  operators : ∀ (least : Nat) (left : Expr R) (c : Cursor), left.LiesIn text → c.LiesIn text →
    Reads text (Expr.LiesIn text) (takeOperators fuel least left c)
  operand : ∀ c : Cursor, c.LiesIn text →
    Reads text (Expr.LiesIn (R := R) text) (takeOperand fuel c)
  arguments : ∀ c : Cursor, c.LiesIn text →
    Reads text (fun es : List (Expr R) => ∀ e ∈ es, e.LiesIn text) (takeArguments fuel c)
  moreArguments : ∀ c : Cursor, c.LiesIn text →
    Reads text (fun es : List (Expr R) => ∀ e ∈ es, e.LiesIn text) (takeMoreArguments fuel c)

theorem reads_takeOperand {fuel : Nat} (ih : LocatedExpressions R text fuel) {c : Cursor}
    (h : c.LiesIn text) : Reads text (Expr.LiesIn (R := R) text) (takeOperand (fuel + 1) c) := by
  rw [takeOperand]
  have htaken : c.skip.LiesIn text := h.skip
  split
  · exact (ih.expression _ _ htaken).bind fun e c he hc => reads_ok (.unary htaken.column he) hc
  · exact ih.expression _ _ htaken
  · exact (ih.expression _ _ htaken).bind fun e c he hc => reads_ok (.unary htaken.column he) hc
  · refine (ih.expression _ _ htaken).bind fun e c he hc => ?_
    exact reads_expect hc (reads_ok he hc.skip)
  · split
    · refine (ih.arguments _ htaken).bind fun args c hargs hc => ?_
      exact reads_ok (.call htaken.column hargs) hc
    · exact reads_ok (.var htaken.column) htaken
  · split
    · exact reads_ok (.number htaken.column) htaken
    · exact reads_fail _ htaken
  · exact reads_ok (.string htaken.column) htaken
  · exact reads_fail _ htaken

theorem reads_takeOperators {fuel : Nat} (ih : LocatedExpressions R text fuel) (least : Nat)
    {left : Expr R} {c : Cursor} (hleft : left.LiesIn text) (h : c.LiesIn text) :
    Reads text (Expr.LiesIn text) (takeOperators (fuel + 1) least left c) := by
  rw [takeOperators]
  split
  · split
    · split
      · refine (ih.expression _ _ h.skip).bind fun right c hright hc => ?_
        exact ih.operators _ _ _ (.binary h.skip.column hleft hright) hc
      · exact reads_ok hleft h
    · exact reads_ok hleft h
  · exact reads_ok hleft h

theorem reads_takeArguments {fuel : Nat} (ih : LocatedExpressions R text fuel) {c : Cursor}
    (h : c.LiesIn text) :
    Reads text (fun es : List (Expr R) => ∀ e ∈ es, e.LiesIn text) (takeArguments (fuel + 1) c) := by
  rw [takeArguments]
  refine reads_expect h ?_
  split
  · exact reads_ok (List.forall_mem_nil _) h.skip.skip
  · exact ih.moreArguments _ h.skip

theorem reads_takeMoreArguments {fuel : Nat} (ih : LocatedExpressions R text fuel) {c : Cursor}
    (h : c.LiesIn text) :
    Reads text (fun es : List (Expr R) => ∀ e ∈ es, e.LiesIn text)
      (takeMoreArguments (fuel + 1) c) := by
  rw [takeMoreArguments]
  refine (ih.expression _ _ h).bind fun e c he hc => ?_
  dsimp only
  split
  · exact reads_ok (List.forall_mem_singleton.mpr he) hc.skip
  · refine (ih.moreArguments _ hc.skip).bind fun es c hes hc => ?_
    exact reads_ok (List.forall_mem_cons.mpr ⟨he, hes⟩) hc
  · exact reads_fail _ hc.skip

theorem locatedExpressions (text : String) (fuel : Nat) : LocatedExpressions R text fuel := by
  induction fuel with
  | zero => refine ⟨?_, ?_, ?_, ?_, ?_⟩ <;> intros <;> exact reads_fail _ ‹_›
  | succ fuel ih =>
      refine ⟨?_, ?_, ?_, ?_, ?_⟩
      · intro least c h
        rw [takeExpression]
        exact (ih.operand c h).bind fun e c he hc => ih.operators _ _ _ he hc
      · exact fun least left c hleft h => reads_takeOperators ih least hleft h
      · exact fun c h => reads_takeOperand ih h
      · exact fun c h => reads_takeArguments ih h
      · exact fun c h => reads_takeMoreArguments ih h

theorem reads_takeExpression (fuel least : Nat) {c : Cursor} (h : c.LiesIn text) :
    Reads text (Expr.LiesIn (R := R) text) (takeExpression fuel least c) :=
  (locatedExpressions text fuel).expression least c h

theorem reads_takeBareArguments (fuel : Nat) {c : Cursor} (h : c.LiesIn text) :
    Reads text (fun es : List (Expr R) => ∀ e ∈ es, e.LiesIn text) (takeBareArguments fuel c) := by
  induction fuel generalizing c with
  | zero => exact reads_fail _ h
  | succ fuel ih =>
      rw [takeBareArguments]
      refine (reads_takeExpression fuel 0 h).bind fun e c he hc => ?_
      dsimp only
      split
      · refine (ih hc.skip).bind fun es c hes hc => ?_
        exact reads_ok (List.forall_mem_cons.mpr ⟨he, hes⟩) hc
      · exact reads_ok (List.forall_mem_singleton.mpr he) hc

theorem reads_takeItems (fuel : Nat) (lineFeed : Bool) {c : Cursor} (h : c.LiesIn text) :
    Reads text (fun es : List (Expr R) => ∀ e ∈ es, e.LiesIn text) (takeItems lineFeed fuel c) := by
  induction fuel generalizing lineFeed c with
  | zero => exact reads_fail _ h
  | succ fuel ih =>
      rw [takeItems]
      split
      · refine reads_ok ?_ h
        split
        · exact List.forall_mem_singleton.mpr (.char h.column.behind)
        · exact List.forall_mem_nil _
      · split
        · exact ih false h.skip
        · refine (ih false h.skip).bind fun es c' hes hc' => ?_
          exact reads_ok (List.forall_mem_cons.mpr ⟨.char h.skip.column, hes⟩) hc'
        · refine (reads_takeExpression fuel 0 h).bind fun e c he hc => ?_
          refine (ih true hc).bind fun es c hes hc => ?_
          exact reads_ok (List.forall_mem_cons.mpr ⟨he, hes⟩) hc

theorem reads_takeAssignment (fuel : Nat) {column : Column} {v : Variable} {c : Cursor}
    (hcolumn : column.LiesIn text) (hv : v.column.LiesIn text) (h : c.LiesIn text) :
    Reads text (Stmt.LiesIn (R := R) text) (takeAssignment fuel column v c) := by
  unfold takeAssignment
  refine reads_expect h ?_
  exact (reads_takeExpression fuel 0 h.skip).bind fun e c he hc => reads_ok (.let hcolumn hv he) hc

theorem reads_takeNativeCall (fuel : Nat) {column : Column} (name : String) {c : Cursor}
    (hcolumn : column.LiesIn text) (h : c.LiesIn text) :
    Reads text (Stmt.LiesIn (R := R) text) (takeNativeCall fuel column name c) := by
  unfold takeNativeCall
  split
  · exact ((locatedExpressions text fuel).arguments c h).bind fun args c hargs hc =>
      reads_ok (.call hcolumn hargs) hc
  · split
    · exact reads_ok (.call hcolumn (List.forall_mem_nil _)) h
    · exact (reads_takeBareArguments fuel h).bind fun args c hargs hc =>
        reads_ok (.call hcolumn hargs) hc

theorem reads_takeLoop (fuel : Nat) {column : Column} {c : Cursor} (hcolumn : column.LiesIn text)
    (h : c.LiesIn text) : Reads text (Stmt.LiesIn (R := R) text) (takeLoop fuel column c) := by
  unfold takeLoop
  refine (reads_takeVariable h).bind fun v c hv hc => ?_
  refine reads_expect hc ?_
  refine (reads_takeExpression fuel 0 hc.skip).bind fun start c hstart hc => ?_
  refine reads_expect hc ?_
  refine (reads_takeExpression fuel 0 hc.skip).bind fun limit c hlimit hc => ?_
  dsimp only
  split
  · refine (reads_takeExpression fuel 0 hc.skip).bind fun step c hstep hc => ?_
    refine reads_ok (.for hcolumn hv hstart hlimit ?_) hc
    rintro e ⟨rfl⟩
    exact hstep
  · exact reads_ok (.for hcolumn hv hstart hlimit (by simp)) hc

/-- The readers of statements locate what they read, with a given fuel. -/
structure LocatedStatements (R : Type) [NumberSystem R] (text : String) (fuel : Nat) : Prop where
  statement : ∀ c : Cursor, c.LiesIn text →
    Reads text (Stmt.LiesIn (R := R) text) (takeStatement fuel c)
  thenBody : ∀ c : Cursor, c.LiesIn text →
    Reads text (fun ss : List (Stmt R) => ∀ s ∈ ss, s.LiesIn text) (takeThenBody fuel c)
  body : ∀ c : Cursor, c.LiesIn text →
    Reads text (fun ss : List (Stmt R) => ∀ s ∈ ss, s.LiesIn text) (takeBody fuel c)
  bodyStatements : ∀ c : Cursor, c.LiesIn text →
    Reads text (fun ss : List (Stmt R) => ∀ s ∈ ss, s.LiesIn text) (takeBodyStatements fuel c)

theorem reads_takeStatement {fuel : Nat} (ih : LocatedStatements R text fuel) {c : Cursor}
    (h : c.LiesIn text) : Reads text (Stmt.LiesIn (R := R) text) (takeStatement (fuel + 1) c) := by
  rw [takeStatement]
  have htaken : c.skip.LiesIn text := h.skip
  have hcolumn := htaken.column
  split
  · split
    · exact reads_takeAssignment fuel hcolumn hcolumn htaken
    · exact reads_takeNativeCall fuel _ hcolumn htaken
  · exact reads_ok (.rem hcolumn) htaken
  · exact (reads_takeItems fuel true htaken).bind fun items c hitems hc =>
      reads_ok (.print hcolumn hitems) hc
  · exact (reads_takeVariable htaken).bind fun v c hv hc => reads_takeAssignment fuel hcolumn hv hc
  · exact (reads_takeTarget htaken).bind fun t c ht hc => reads_ok (.goto hcolumn ht) hc
  · exact (reads_takeTarget htaken).bind fun t c ht hc => reads_ok (.gosub hcolumn ht) hc
  · exact reads_ok (.return hcolumn) htaken
  · exact reads_ok (.end hcolumn) htaken
  · refine (reads_takeExpression fuel 0 htaken).bind fun condition c hcondition hc => ?_
    refine (ih.thenBody c hc).bind fun thenBody c hthen hc => ?_
    dsimp only
    split
    · refine (ih.body _ hc.skip).bind fun elseBody c helse hc => ?_
      exact reads_ok (.if hcolumn hcondition hthen helse) hc
    · exact reads_ok (.if hcolumn hcondition hthen (List.forall_mem_nil _)) hc
  · exact reads_takeLoop fuel hcolumn htaken
  · split
    · exact reads_ok (.next hcolumn (by simp)) htaken
    · refine (reads_takeVariable htaken).bind fun v c hv hc => ?_
      refine reads_ok (.next hcolumn ?_) hc
      rintro w ⟨rfl⟩
      exact hv
  · split
    · exact reads_ok (.rem hcolumn) htaken.skip
    · exact reads_ok (.rem hcolumn) htaken
  · exact reads_fail _ htaken

theorem locatedStatements (text : String) (fuel : Nat) : LocatedStatements R text fuel := by
  induction fuel with
  | zero => refine ⟨?_, ?_, ?_, ?_⟩ <;> intros <;> exact reads_fail _ ‹_›
  | succ fuel ih =>
      refine ⟨fun c h => reads_takeStatement ih h, ?_, ?_, ?_⟩
      · intro c h
        rw [takeThenBody]
        split
        · exact (reads_takeTarget h.skip).bind fun t c' ht hc' =>
            reads_ok (List.forall_mem_singleton.mpr (.goto h.skip.column ht)) hc'
        · exact reads_expect h (ih.body _ h.skip)
      · intro c h
        rw [takeBody]
        split
        · exact (reads_takeTarget h).bind fun t c ht hc =>
            reads_ok (List.forall_mem_singleton.mpr (.goto ht ht)) hc
        · exact ih.bodyStatements c h
      · intro c h
        rw [takeBodyStatements]
        split
        · exact reads_ok (List.forall_mem_nil _) h
        · exact reads_ok (List.forall_mem_nil _) h
        · exact ih.bodyStatements _ h.skip
        · refine (ih.statement c h).bind fun s c hs hc => ?_
          refine (ih.bodyStatements c hc).bind fun ss c hss hc => ?_
          exact reads_ok (List.forall_mem_cons.mpr ⟨hs, hss⟩) hc

theorem locates_takeStatements (fuel : Nat) {c : Cursor} (h : c.LiesIn text) :
    Locates text (fun ss : List (Stmt R) => ∀ s ∈ ss, s.LiesIn text) (takeStatements fuel c) := by
  induction fuel generalizing c with
  | zero => exact ⟨rfl, h.column⟩
  | succ fuel ih =>
      rw [takeStatements]
      split
      · exact List.forall_mem_nil _
      · exact ih h.skip
      · refine Ends.bind ((locatedStatements text fuel).statement c h) fun r hr => ?_
        obtain ⟨s, c⟩ := r
        have hmore : Locates text (fun ss : List (Stmt R) => ∀ s ∈ ss, s.LiesIn text)
            (takeStatements fuel c >>= fun ss => .ok (s :: ss)) :=
          (ih hr.2).bind fun ss hss => List.forall_mem_cons.mpr ⟨hr.1, hss⟩
        dsimp only
        split
        · exact hmore
        · exact hmore
        · exact ⟨rfl, hr.2.skip.column⟩

end Cursor

/-- The statements of a line are read from ranges of its content, and a reader that fails says where. -/
theorem Stmt.locates_parse [NumberSystem R] {text : String} {tokens : List (Column × Token)}
    (h : Token.AllLieIn text tokens) :
    Locates text (fun ss : List (Stmt R) => ∀ s ∈ ss, s.LiesIn text) (Stmt.parse tokens) :=
  Cursor.locates_takeStatements _ ⟨Column.liesIn_zero text, h⟩

end LineBasic
