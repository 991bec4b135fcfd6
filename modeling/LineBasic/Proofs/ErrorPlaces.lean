import LineBasic.Proofs.Columns
import LineBasic.Proofs.RenumberedListing

namespace LineBasic

open Text

variable {R : Type}

namespace Expr

variable {text : String} {e : Expr R}

theorem locates_expectType (type found : ValueType) (h : e.LiesIn text) :
    Locates text (fun _ => True) (e.expectType type found) := by
  unfold expectType
  split
  · trivial
  · exact ⟨rfl, h.column⟩

theorem locates_signature? (registry : Registry) {column : Column} (name : String) (count : Nat)
    (h : column.LiesIn text) :
    Locates text (fun _ => True) (signature? registry column name count) := by
  unfold signature?
  split
  · exact locates_errorAt _ _ h
  · split
    · trivial
    · exact locates_errorAt _ _ h

mutual

theorem locates_check (registry : Registry) : ∀ e : Expr R, e.LiesIn text →
    Locates text (fun _ => True) (e.check registry)
  | number _ _, _ | string _ _, _ | char _ _, _ | var _ _, _ => trivial
  | call column name args, .call hcolumn hargs => by
      rw [check]
      refine (locates_signature? registry name _ hcolumn).bind fun signature _ => ?_
      refine (locates_checkArgs registry signature 0 args hargs).bind fun _ _ => ?_
      split
      · trivial
      · exact locates_errorAt _ _ hcolumn
  | unary op column e, .unary _ he => by
      rw [check]
      refine (locates_check registry e he).bind fun type _ => ?_
      exact (locates_expectType _ _ he).bind fun _ _ => trivial
  | binary op column l r, .binary hcolumn hl hr => by
      have hsame (type : ValueType → ValueType) : Locates text (fun _ => True)
          (l.check registry >>= fun left => r.check registry >>= fun right =>
            if left = right then .ok (type left) else .error (mismatch column)) := by
        refine (locates_check registry l hl).bind fun left _ => ?_
        refine (locates_check registry r hr).bind fun right _ => ?_
        split
        · trivial
        · exact ⟨rfl, hcolumn⟩
      have hnumbers : Locates text (fun _ => True)
          (l.check registry >>= fun left => l.expectType .number left >>= fun _ =>
            r.check registry >>= fun right => r.expectType .number right >>= fun _ =>
              .ok ValueType.number) := by
        refine (locates_check registry l hl).bind fun left _ => ?_
        refine (locates_expectType _ _ hl).bind fun _ _ => ?_
        refine (locates_check registry r hr).bind fun right _ => ?_
        exact (locates_expectType _ _ hr).bind fun _ _ => trivial
      cases op with
      | add => exact hsame id
      | equal | notEqual | less | lessEqual | greater | greaterEqual => exact hsame fun _ => .number
      | _ => exact hnumbers

theorem locates_checkArgs (registry : Registry) (signature : Signature) (index : Nat) :
    ∀ es : List (Expr R), (∀ e ∈ es, e.LiesIn text) →
      Locates text (fun _ => True) (checkArgs registry signature index es)
  | [], _ => trivial
  | e :: es, h => by
      obtain ⟨he, hes⟩ := List.forall_mem_cons.mp h
      have hmore := locates_checkArgs registry signature (index + 1) es hes
      rw [checkArgs]
      refine (locates_check registry e he).bind fun found _ => ?_
      dsimp only
      split
      · exact (locates_expectType _ _ he).bind fun _ _ => hmore
      · exact hmore

end

theorem locates_checkNumber (registry : Registry) (h : e.LiesIn text) :
    Locates text (fun _ => True) (e.checkNumber registry) :=
  (locates_check registry e h).bind fun _ _ => locates_expectType _ _ h

end Expr

/-- A loop was opened in a line of the program, in a range of its content. -/
def OpenLoop.LiesIn (program : List Line) (loop : OpenLoop) : Prop :=
  ∃ l ∈ program, loop.line = l.number ∧ loop.column.LiesIn l.content

namespace Stmt

variable {program : List Line} {l : Line} {around : Surroundings}

theorem locates_checkTarget {text : String} {t : Target} (h : t.column.LiesIn text) :
    Locates text (fun _ => True) (checkTarget around t) := by
  unfold checkTarget
  split
  · trivial
  · exact locates_errorAt _ _ h

theorem locates_checkItems {text : String} (registry : Registry) {items : List (Expr R)}
    (h : ∀ e ∈ items, e.LiesIn text) : Locates text (fun _ => True) (checkItems registry items) := by
  induction items with
  | nil => trivial
  | cons e items ih =>
      obtain ⟨he, hitems⟩ := List.forall_mem_cons.mp h
      rw [checkItems]
      exact (Expr.locates_check registry e he).bind fun _ _ => ih hitems

mutual

theorem locates_check (hl : l ∈ program) (hline : around.line = l.number) {loops : List OpenLoop}
    (hloops : ∀ loop ∈ loops, loop.LiesIn program) : ∀ s : Stmt R, s.LiesIn l.content →
      Locates l.content (fun loops => ∀ loop ∈ loops, OpenLoop.LiesIn program loop)
        (s.check around loops)
  | .end _, _ | rem _, _ | .return _, _ => hloops
  | goto _ t, .goto _ ht | gosub _ t, .gosub _ ht =>
      (locates_checkTarget ht).bind fun _ _ => hloops
  | print _ items, .print _ hitems => by
      rw [check]
      exact (locates_checkItems _ hitems).bind fun _ _ => hloops
  | .let _ v e, .let _ _ he => by
      rw [check]
      refine (Expr.locates_check _ e he).bind fun type _ => ?_
      exact (Expr.locates_expectType _ _ he).bind fun _ _ => hloops
  | .if _ condition thenBody elseBody, .if _ hcondition hthen helse => by
      rw [check]
      refine (Expr.locates_checkNumber _ hcondition).bind fun _ _ => ?_
      refine (locates_checkAll hl hline hloops thenBody hthen).bind fun loops hloops => ?_
      exact locates_checkAll hl hline hloops elseBody helse
  | .for column v start limit step, .for hcolumn hv hstart hlimit hstep => by
      rw [check]
      split
      · exact ⟨rfl, hv⟩
      · refine (Expr.locates_checkNumber _ hstart).bind fun _ _ => ?_
        refine (Expr.locates_checkNumber _ hlimit).bind fun _ _ => ?_
        have hopened : ∀ loop ∈ { line := around.line, column, name := v.name } :: loops,
            OpenLoop.LiesIn program loop :=
          List.forall_mem_cons.mpr ⟨⟨l, hl, hline, hcolumn⟩, hloops⟩
        cases step with
        | none => exact hopened
        | some step => exact (Expr.locates_checkNumber _ (hstep step rfl)).bind fun _ _ => hopened
  | next column v, .next hcolumn hv => by
      cases loops with
      | nil => exact ⟨rfl, hcolumn⟩
      | cons loop loops =>
          have hrest := (List.forall_mem_cons.mp hloops).2
          cases v with
          | none => exact hrest
          | some v =>
              rw [check]
              split
              · exact hrest
              · exact locates_errorAt _ _ (hv v rfl)
  | call column name args, .call hcolumn hargs => by
      rw [check]
      refine (Expr.locates_signature? _ name _ hcolumn).bind fun signature _ => ?_
      exact (Expr.locates_checkArgs _ signature 0 args hargs).bind fun _ _ => hloops

theorem locates_checkAll (hl : l ∈ program) (hline : around.line = l.number) {loops : List OpenLoop}
    (hloops : ∀ loop ∈ loops, loop.LiesIn program) : ∀ ss : List (Stmt R),
      (∀ s ∈ ss, s.LiesIn l.content) →
      Locates l.content (fun loops => ∀ loop ∈ loops, OpenLoop.LiesIn program loop)
        (checkAll around loops ss)
  | [], _ => hloops
  | s :: ss, h => by
      obtain ⟨hs, hss⟩ := List.forall_mem_cons.mp h
      rw [checkAll]
      refine (locates_check hl hline hloops s hs).bind fun loops hloops => ?_
      exact locates_checkAll hl hline hloops ss hss

end

end Stmt

/-- An error names a line of a program, and a range of its content. -/
def Error.LiesIn (program : List Line) (e : Error) : Prop :=
  ∃ l ∈ program, e.line = some l.number ∧ e.column.LiesIn l.content

theorem Error.liesIn_inLine {program : List Line} {l : Line} {e : Error} (hl : l ∈ program)
    (h : e.column.LiesIn l.content) : (e.inLine l.number).LiesIn program :=
  ⟨l, hl, rfl, h⟩

theorem Error.liesIn_orLine {program : List Line} {l : Line} {e : Error} (hl : l ∈ program)
    (hline : e.line = none) (h : e.column.LiesIn l.content) :
    (e.orLine (some l.number)).LiesIn program := by
  unfold orLine
  rw [hline]
  exact ⟨l, hl, rfl, h⟩

/-- A result has a property. An error that comes instead of it lies in a line of the program. -/
abbrev Blames {α : Type} (program : List Line) : (α → Prop) → Except Error α → Prop :=
  Ends (Error.LiesIn program)

variable {program : List Line}

/-- The compiler finds the number of a line in what it gets of the line's text, and a front of its content. -/
theorem Line.IsShownBy.split {l : Line} {text : String} (h : l.IsShownBy text)
    (hnumber : l.number ≤ maxLineNumber) :
    isBlank text = false ∧ ∃ content, content <+: l.content.toList ∧
      Line.split text.toList = .ok (l.number, content) := by
  rcases h with rfl | h
  · exact ⟨l.isBlank_text, _, List.prefix_refl _, split_text hnumber⟩
  · obtain ⟨content, hcontent⟩ := List.getLast?_eq_some_iff.mp (getLast?_of_return h)
    have hne : l.content.toList ≠ [] := by simp [hcontent]
    have htext : text.toList = Nat.toDigits 10 l.number ++ ' ' :: content := by
      rw [toList_text, tail_of_ne hne, hcontent, ← List.cons_append, ← List.append_assoc] at h
      exact (List.append_inj_left' h rfl).symm
    have hrest : ∀ c, (' ' :: content).head? = some c → isDigit c = false := by
      rintro c ⟨rfl⟩
      rfl
    refine ⟨isBlank_of_number htext, content, ⟨['\r'], hcontent.symm⟩, ?_⟩
    rw [split_of_number htext hrest, if_pos hnumber]
    rfl

namespace LexedLine

/-- The tokens of a line are those of a line of the program. -/
def LiesIn (program : List Line) (line : LexedLine) : Prop :=
  ∃ l ∈ program, line.number = l.number ∧ Token.AllLieIn l.content line.tokens

theorem blames_lexAfter {previous : Option LineNumber} {ls : List Line} {texts : List String}
    (hls : ls ⊆ program) (htexts : List.Forall₂ Line.IsShownBy ls texts)
    (hascending : ls.Pairwise Line.Before) (hprevious : ∀ m ∈ previous, ∀ l ∈ ls, m < l.number)
    (hnumbers : ∀ l ∈ ls, l.number ≤ maxLineNumber) :
    Blames program (fun lines => ∀ line ∈ lines, LiesIn program line) (lexAfter previous texts) := by
  induction htexts generalizing previous with
  | nil => exact nofun
  | @cons l text ls texts htext _ ih =>
      obtain ⟨hfirst, hrest⟩ := List.pairwise_cons.mp hascending
      obtain ⟨hl, hls⟩ := List.cons_subset.mp hls
      rw [List.forall_mem_cons] at hnumbers
      have hbehind : previous.any (l.number ≤ ·) = false := by
        rw [Option.any_eq_false]
        intro m hm
        rw [decide_eq_false_iff_not]
        exact Nat.not_le_of_lt (hprevious m hm l List.mem_cons_self)
      have hlater : ∀ m ∈ some l.number, ∀ k ∈ ls, m < k.number := by
        rintro m ⟨rfl⟩ k hk
        exact hfirst k hk
      obtain ⟨hblank, content, hfront, hsplit⟩ := htext.split hnumbers.1
      have hlex := Token.locates_lex (String.ofList content)
      rw [lexAfter_of_split texts hblank hsplit hbehind]
      split
      · rename_i e herror
        rw [herror] at hlex
        exact Error.liesIn_inLine hl (hlex.2.mono hfront)
      · rename_i tokens htokens
        rw [htokens] at hlex
        refine (ih hls hrest hlater hnumbers.2).bind fun lines hlines => ?_
        exact List.forall_mem_cons.mpr ⟨⟨l, hl, rfl, fun t ht => (hlex t ht).mono hfront⟩, hlines⟩

end LexedLine

namespace Program

/-- The statements of a line are read from a line of the program. -/
def LineLiesIn (program : List Line) (line : ProgramLine R) : Prop :=
  ∃ l ∈ program, line.number = l.number ∧ ∀ s ∈ line.statements, s.LiesIn l.content

theorem blames_parseLines [NumberSystem R] {lexed : List LexedLine}
    (h : ∀ line ∈ lexed, line.LiesIn program) :
    Blames program (fun lines => ∀ line ∈ lines, LineLiesIn (R := R) program line)
      (parseLines lexed) := by
  induction lexed with
  | nil => exact nofun
  | cons line lexed ih =>
      obtain ⟨⟨l, hl, hnumber, htokens⟩, hlexed⟩ := List.forall_mem_cons.mp h
      have hparse := Stmt.locates_parse (R := R) htokens
      rw [parseLines]
      split
      · rename_i e herror
        rw [herror] at hparse
        rw [hnumber]
        exact Error.liesIn_inLine hl hparse.2
      · rename_i statements hstatements
        rw [hstatements] at hparse
        exact (ih hlexed).bind fun lines hlines =>
          List.forall_mem_cons.mpr ⟨⟨l, hl, hnumber, hparse⟩, hlines⟩

theorem blames_checkLines {registry : Registry} {numbers : List LineNumber} {loops : List OpenLoop}
    {lines : List (ProgramLine R)} (hloops : ∀ loop ∈ loops, loop.LiesIn program)
    (h : ∀ line ∈ lines, LineLiesIn program line) :
    Blames program (fun loops => ∀ loop ∈ loops, OpenLoop.LiesIn program loop)
      (checkLines registry numbers loops lines) := by
  induction lines generalizing loops with
  | nil => exact hloops
  | cons line lines ih =>
      obtain ⟨⟨l, hl, hnumber, hstatements⟩, hlines⟩ := List.forall_mem_cons.mp h
      have hcheck : Locates l.content (fun loops => ∀ loop ∈ loops, OpenLoop.LiesIn program loop)
          (Stmt.checkAll ⟨registry, numbers, line.number⟩ loops line.statements) :=
        Stmt.locates_checkAll hl hnumber hloops line.statements hstatements
      rw [checkLines]
      split
      · rename_i e herror
        rw [herror] at hcheck
        rw [hnumber]
        exact Error.liesIn_orLine hl hcheck.1 hcheck.2
      · rename_i opened hopened
        rw [hopened] at hcheck
        exact ih hcheck hlines

theorem blames_check {registry : Registry} {p : Program R}
    (h : ∀ line ∈ p.lines, LineLiesIn program line) :
    Blames program (fun _ => True) (p.check registry) := by
  unfold check
  refine (blames_checkLines (List.forall_mem_nil _) h).bind fun loops hloops => ?_
  split
  · trivial
  · obtain ⟨l, hl, hline, hcolumn⟩ := hloops _ List.mem_cons_self
    rw [hline]
    exact Error.liesIn_inLine hl hcolumn

end Program

/-- A program that is refused before its code is made is refused with an error in one of its lines. -/
abbrev BlamesEarly {α : Type} (program : List Line) : (α → Prop) → Except CompileError α → Prop :=
  Ends fun e : CompileError => e.stage ≠ .codegen → e.error.LiesIn program

theorem Stage.blamesEarly_run {α : Type} {Good : α → Prop} {x : Except Error α}
    (h : Blames program Good x) (stage : Stage) : BlamesEarly program Good (stage.run x) := by
  cases x with
  | ok a => exact h
  | error e => exact fun _ => h

theorem Stage.blamesEarly_codegen {α : Type} (x : Except Error α) :
    BlamesEarly program (fun _ => True) (codegen.run x) := by
  cases x with
  | ok a => trivial
  | error e => exact fun hstage => absurd rfl hstage

namespace Listing

/-- If the numbers of a program are line numbers and its contents have no line feeds, then it is refused before its code is
made only with an error that names one of its lines and a range of that line's content. -/
theorem liesIn_of_compile [NumberSystem R] {listing : Listing}
    (hnumbers : ∀ l ∈ listing.lines, l.number ≤ maxLineNumber)
    (hbreaks : ∀ l ∈ listing.lines, HasNoBreak l.content) {registry : Registry} {flags : Flags}
    {e : CompileError} (h : compile R registry flags listing.source = .error e)
    (hstage : e.stage ≠ .codegen) : e.error.LiesIn listing.lines := by
  have hlex : Blames listing.lines (fun lines => ∀ line ∈ lines, LexedLine.LiesIn listing.lines line)
      (LexedLine.lex listing.source) := by
    exact LexedLine.blames_lexAfter (List.Subset.refl _) (forall₂_lines_source hbreaks)
      listing.ascending (by simp) hnumbers
  have hread : BlamesEarly listing.lines (fun _ => True)
      (Program.read (R := R) registry listing.source) := by
    refine (Stage.blamesEarly_run hlex _).bind fun lexed hlexed => ?_
    have hparse : Blames listing.lines
        (fun p : Program R => ∀ line ∈ p.lines, Program.LineLiesIn listing.lines line)
        (Program.parse lexed) :=
      (Program.blames_parseLines hlexed).bind fun lines hlines => hlines
    refine (Stage.blamesEarly_run hparse _).bind fun p hp => ?_
    exact (Stage.blamesEarly_run (Program.blames_check hp) _).bind fun _ _ => trivial
  have hcode : BlamesEarly listing.lines (fun _ => True)
      (Program.instructions (R := R) registry flags listing.source) :=
    hread.bind fun p _ => Stage.blamesEarly_codegen _
  have hcompile : BlamesEarly listing.lines (fun _ => True)
      (compile R registry flags listing.source) :=
    hcode.bind fun code _ => Stage.blamesEarly_codegen _
  rw [h] at hcompile
  exact hcompile hstage

/-- A number is added to a string, behind a character of two bytes; a carriage return is in the line before. -/
def accented : Listing :=
  { lines := [⟨10, "REM A\rB"⟩, ⟨20, "PRINT \"é\" + 1"⟩]
    ascending := by unfold Line.Before; decide }

theorem liesIn_of_compile_accented :
    compile Float .empty {} accented.source =
        .error { stage := .semantic, error := ⟨.typeMismatch, some 20, ⟨11, 12⟩, ""⟩ } ∧
      Error.LiesIn accented.lines ⟨.typeMismatch, some 20, ⟨11, 12⟩, ""⟩ := by
  have hcompile : compile Float .empty {} accented.source =
      .error { stage := .semantic, error := ⟨.typeMismatch, some 20, ⟨11, 12⟩, ""⟩ } := by
    decide +kernel
  have hbreaks : ∀ l ∈ accented.lines, HasNoBreak l.content := by
    unfold HasNoBreak
    decide +kernel
  exact ⟨hcompile, liesIn_of_compile (by decide) hbreaks hcompile (by decide)⟩

end Listing

end LineBasic
