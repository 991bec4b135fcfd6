import LineBasic.Proofs.NewNumbers

namespace LineBasic

open Line

variable {R : Type}

theorem Error.Renamed.bare_eq {e e' : Error} (h : e.Renamed id e') : e'.bare = e.bare := by
  have hline : e'.line = e.line := by
    rw [h.line, Option.map_id, id]
  have htext : e'.text = e.text := by
    rcases h.text with htext | ⟨n, hn, hn'⟩
    · exact htext
    · rw [hn, hn', id]
  rw [Error.bare, Error.bare, h.code, hline, htext]

theorem SameResult.mapError_bare {α : Type} {x x' : Except Error α} (h : SameResult id id x x') :
    x'.mapError Error.bare = x.mapError Error.bare := by
  obtain ⟨a, _, rfl, rfl, rfl⟩ | ⟨e, e', rfl, rfl, he⟩ := agree_iff.mp h
  · rfl
  · exact congrArg Except.error he.bare_eq

theorem agree_of_mapError_bare {α : Type} {x x' : Except Error α}
    (h : x'.mapError Error.bare = x.mapError Error.bare) :
    Agree (fun e e' => e'.bare = e.bare) Eq x x' := by
  cases x with
  | ok a =>
      cases x' with
      | ok a' =>
          cases h
          exact .ok rfl
      | error e' => cases h
  | error e =>
      cases x' with
      | ok a' => cases h
      | error e' => exact .error (Except.error.inj h)

namespace Flow

theorem edges_bare (lines : List (ProgramLine R)) :
    edges (lines.map (ProgramLine.bare id)) = edges lines := by
  induction lines with
  | nil => rfl
  | cons line lines ih =>
      rw [List.map_cons, edges, edges, ih, leadsTo_bare, List.map_id]
      rfl

theorem ofProgram_bare (p : Program R) : ofProgram (p.bare id) = ofProgram p := by
  unfold ofProgram
  rw [Program.bare, edges_bare, seeds_bare, List.map_id]

theorem prune_bare (flow : Flow) (p : Program R) : flow.prune (p.bare id) = (flow.prune p).bare id := by
  rw [prune, prune, Program.bare, Program.bare, List.filter_map]
  rfl

end Flow

theorem Program.mapError_check_bare (registry : Registry) (p : Program R) :
    ((p.bare id).check registry).mapError Error.bare = (p.check registry).mapError Error.bare := by
  apply SameResult.mapError_bare
  apply sameResult_check
  intro t _
  rw [List.map_id, id]

variable [NumberSystem R]

theorem Program.optimize_bare (flags : Flags) (p : Program R) :
    (p.bare id).optimize flags = (p.optimize flags).bare id := by
  rw [optimize_eq, optimize_eq, ← bare_tidied, Flow.ofProgram_bare, Flow.prune_bare]

namespace Expr

theorem code_bare_id (e : Expr R) : e.bare.code = e.code := by
  rw [code_bare (g := id) (f := id), Instruction.rename_id, List.map_id]

theorem codeAll_bareAll_id (es : List (Expr R)) : codeAll (bareAll es) = codeAll es := by
  rw [codeAll_bareAll (g := id) (f := id), Instruction.rename_id, List.map_id]

end Expr

namespace Stmt

omit [NumberSystem R] in
@[simp] theorem map_mapError_plain (code : List (Instruction R String)) :
    (plain code).map (Except.mapError Error.bare) = plain code := by
  rw [plain, List.map_map]
  rfl

theorem loopCode_bare (place : Place) (v : Variable) (start limit : Expr R) (step : Option (Expr R)) :
    loopCode place v.bare start.bare limit.bare (step.map Expr.bare) =
      loopCode place v start limit step := by
  cases step <;> simp [loopCode, Expr.code_bare_id, Variable.bare]

mutual

theorem code_bare (tally : Tally) : ∀ s : Stmt R,
    (s.bare id).code tally = ((s.code tally).1.map (Except.mapError Error.bare), (s.code tally).2)
  | call _ name args | print _ args => by
      rw [bare, code, code, Expr.codeAll_bareAll_id, Expr.length_bareAll, map_mapError_plain]
  | .end _ | .return _ | rem _ | goto _ _ | gosub _ _ => rfl
  | .let _ v e => by
      rw [bare, code, code, Expr.code_bare_id, map_mapError_plain]
      rfl
  | .if _ condition thenBody elseBody => by
      have hempty : (bareAll id elseBody).isEmpty = elseBody.isEmpty := by
        cases elseBody <;> rfl
      simp only [bare, code, codeAll_bareAll _ thenBody, codeAll_bareAll _ elseBody, hempty,
        Expr.code_bare_id]
      split <;> simp
  | .for _ v start limit step => by
      rw [bare, code, code, loopCode_bare, map_mapError_plain]
      rfl
  | next _ v => by
      rw [bare, code, code]
      rcases tally.openLoops with - | ⟨⟨place, name⟩, openLoops⟩
      · rfl
      · cases v with
        | none => rfl
        | some v =>
            dsimp only [Option.map_some]
            rw [show v.bare.name = v.name from rfl]
            split <;> rfl

theorem codeAll_bareAll (tally : Tally) : ∀ ss : List (Stmt R),
    codeAll tally (bareAll id ss) =
      ((codeAll tally ss).1.map (Except.mapError Error.bare), (codeAll tally ss).2)
  | [] => rfl
  | s :: ss => by
      simp only [bareAll, codeAll, code_bare tally s, codeAll_bareAll _ ss, List.map_append]

end

end Stmt

/-- A piece of code whose error has lost its column. -/
def Emission.bare (piece : Emission R) : Emission R :=
  { piece with instruction := piece.instruction.mapError Error.bare }

namespace Program

theorem lineEmissions_bare (tally : Tally) (lines : List (ProgramLine R)) :
    lineEmissions tally (lines.map (ProgramLine.bare id)) =
      ((lineEmissions tally lines).1.map Emission.bare, (lineEmissions tally lines).2) := by
  induction lines generalizing tally with
  | nil => rfl
  | cons line lines ih =>
      simp only [List.map_cons, lineEmissions, ProgramLine.bare, Stmt.codeAll_bareAll, ih,
        List.map_append, List.map_map]
      rfl

theorem emissions_bare (p : Program R) : (p.bare id).emissions = p.emissions.map Emission.bare := by
  simp only [emissions, Program.bare, lineEmissions_bare]
  split
  · simp [Emission.bare, Except.mapError]
  · simp [Emission.bare, Except.mapError, Error.bare, ErrorCode.error]

omit [NumberSystem R] in
theorem locate_bare (line : Option LineNumber) (e : Error) :
    Emission.locate line e.bare = (Emission.locate line e).bare := by
  cases line <;> rfl

omit [NumberSystem R] in
theorem assembleFrom_bare (done : Array (Instruction R String)) (pieces : List (Emission R)) :
    (assembleFrom done (pieces.map Emission.bare)).mapError Error.bare =
      (assembleFrom done pieces).mapError Error.bare := by
  induction pieces generalizing done with
  | nil => rfl
  | cons piece pieces ih =>
      obtain ⟨instruction, line⟩ := piece
      cases instruction with
      | error e =>
          show Except.error (Emission.locate line e.bare).bare = Except.error (Emission.locate line e).bare
          rw [locate_bare]
          rfl
      | ok i =>
          have hpiece : Emission.bare ⟨.ok i, line⟩ = ⟨.ok i, line⟩ := rfl
          rw [List.map_cons, hpiece, assembleFrom, assembleFrom]
          dsimp only
          split
          · exact ih (done.push i)
          · rfl

variable {p p' : Program R}

omit [NumberSystem R] in
theorem agree_check (registry : Registry) (h : p'.bare id = p.bare id) :
    Agree (fun e e' => e'.bare = e.bare) Eq (p.check registry) (p'.check registry) := by
  apply agree_of_mapError_bare
  rw [← mapError_check_bare, h, mapError_check_bare]

theorem agree_code (h : p'.bare id = p.bare id) :
    Agree (fun e e' => e'.bare = e.bare) Eq p.code p'.code := by
  have hpieces : p'.emissions.map Emission.bare = p.emissions.map Emission.bare := by
    rw [← emissions_bare, h, emissions_bare]
  have hassembled : Agree (fun e e' => e'.bare = e.bare) Eq (assembleFrom #[] p.emissions)
      (assembleFrom #[] p'.emissions) := by
    apply agree_of_mapError_bare
    rw [← assembleFrom_bare, hpieces, assembleFrom_bare]
  exact hassembled.bind fun code code' hcode => .ok (congrArg Array.toList hcode)

end Program

theorem renumberTokens_none (inTargets : Bool) (tokens : List Token) :
    renumberTokens (fun _ => none) inTargets tokens = tokens := by
  induction tokens generalizing inTargets with
  | nil => rfl
  | cons token tokens ih =>
      have hnumber : newNumber? (fun _ => none) inTargets token = none := by
        cases token with
        | number s => cases inTargets <;> simp [newNumber?]
        | _ => rfl
      rw [renumberTokens, renumberToken, hnumber, ih]

/-- What a line says: its number and its tokens, without their columns and without the texts of remarks. -/
def LexedLine.plain (line : LexedLine) : LineNumber × List Token :=
  (line.number, line.tokens.map (Token.plain ∘ Prod.snd))

theorem LexedLine.follows_of_plain_eq {line line' : LexedLine} (h : line.plain = line'.plain) :
    Follows (fun _ => none) line line' := by
  obtain ⟨hnumber, htokens⟩ := Prod.mk.inj h
  refine ⟨hnumber.symm, ?_⟩
  rw [renumberTokens_none]
  exact htokens.symm

theorem Program.agree_parse {lexed lexed' : List LexedLine}
    (h : lexed.map LexedLine.plain = lexed'.map LexedLine.plain) :
    Agree (fun e e' => e'.bare = e.bare) (fun p p' => p'.bare id = p.bare id)
      (parse (R := R) lexed) (parse lexed') := by
  have hfollows : List.Forall₂ (LexedLine.Follows fun _ => none) lexed lexed' := by
    rw [← List.forall₂_eq_eq_eq, List.forall₂_map_left_iff, List.forall₂_map_right_iff] at h
    exact h.imp fun _ _ hline => LexedLine.follows_of_plain_eq hline
  have hlines : Agree (Error.Renamed id)
      (fun lines lines' => lines'.map (ProgramLine.bare id) = lines.map (ProgramLine.bare id))
      (parseLines (R := R) lexed) (parseLines lexed') :=
    (agree_parseLines (R := R) (by nofun) hfollows :)
  refine (hlines.imp_error fun e e' he => he.bare_eq).bind fun lines lines' hbare => .ok ?_
  exact congrArg Program.mk hbare

/-- Errors that differ in their columns, of the same stage. -/
def CompileError.Alike (e e' : CompileError) : Prop :=
  e'.stage = e.stage ∧ e'.error.bare = e.error.bare

theorem Agree.run {α : Type} {P : α → α → Prop} {x x' : Except Error α} (stage : Stage)
    (h : Agree (fun e e' => e'.bare = e.bare) P x x') :
    Agree CompileError.Alike P (stage.run x) (stage.run x') := by
  cases h with
  | ok h => exact .ok h
  | error h => exact .error ⟨rfl, h⟩

section Compilation

variable {source source' : String} {lexed lexed' : List LexedLine}

theorem Program.agree_read (registry : Registry) (hlex : LexedLine.lex source = .ok lexed)
    (hlex' : LexedLine.lex source' = .ok lexed')
    (h : lexed.map LexedLine.plain = lexed'.map LexedLine.plain) :
    Agree CompileError.Alike (fun p p' => p'.bare id = p.bare id) (read (R := R) registry source)
      (read registry source') := by
  unfold read
  rw [hlex, hlex']
  refine ((agree_parse h).run .parse).bind fun p p' hbare => ?_
  refine ((agree_check registry hbare).run .semantic).bind fun _ _ _ => ?_
  exact .ok hbare

theorem Program.agree_instructions (registry : Registry) (flags : Flags)
    (hlex : LexedLine.lex source = .ok lexed) (hlex' : LexedLine.lex source' = .ok lexed')
    (h : lexed.map LexedLine.plain = lexed'.map LexedLine.plain) :
    Agree CompileError.Alike Eq (instructions (R := R) registry flags source)
      (instructions registry flags source') := by
  refine (agree_read registry hlex hlex' h).bind fun p p' hbare => ?_
  have hoptimized : (p'.optimize flags).bare id = (p.optimize flags).bare id := by
    rw [← optimize_bare, hbare, optimize_bare]
  exact (agree_code hoptimized).run .codegen

/-- Layout never affects code. Take two texts that have the same line numbers and, line by line, the same tokens, apart from
columns and the texts of remarks. Both are compiled to the same script, or both are refused in the same stage, with the same
error code, line number and text. -/
theorem compile_same_tokens (registry : Registry) (flags : Flags)
    (hlex : LexedLine.lex source = .ok lexed) (hlex' : LexedLine.lex source' = .ok lexed')
    (h : lexed.map LexedLine.plain = lexed'.map LexedLine.plain) :
    (∃ script, compile R registry flags source = .ok script ∧
        compile R registry flags source' = .ok script) ∨
      ∃ e e' : CompileError, compile R registry flags source = .error e ∧
        compile R registry flags source' = .error e' ∧ e'.stage = e.stage ∧
          e'.error.code = e.error.code ∧ e'.error.line = e.error.line ∧
            e'.error.text = e.error.text := by
  have hagree : Agree CompileError.Alike Eq (compile R registry flags source)
      (compile R registry flags source') := by
    refine (Program.agree_instructions registry flags hlex hlex' h).bind fun code code' hcode => ?_
    subst hcode
    cases Script.emit code with
    | ok script => exact .ok rfl
    | error e => exact .error ⟨rfl, rfl⟩
  rcases agree_iff.mp hagree with ⟨script, _, hscript, hscript', rfl⟩ | ⟨e, e', he, he', hstage, herror⟩
  · exact .inl ⟨script, hscript, hscript'⟩
  · right
    have hcode : e'.error.bare.code = e.error.bare.code := congrArg Error.code herror
    have hline : e'.error.bare.line = e.error.bare.line := congrArg Error.line herror
    have htext : e'.error.bare.text = e.error.bare.text := congrArg Error.text herror
    exact ⟨e, e', he, he', hstage, hcode, hline, htext⟩

end Compilation

def printing : String :=
  "10 PRINT A;:GOTO 10:'FOR EVER\n"

/-- The same line with blanks between its tokens, and with another remark. -/
def printingSpaced : String :=
  "10  PRINT  A ; : GOTO   10 : ' AGAIN AND AGAIN\n"

theorem compile_same_tokens_printing :
    ∃ lexed lexed', LexedLine.lex printing = .ok lexed ∧ LexedLine.lex printingSpaced = .ok lexed' ∧
      lexed.map LexedLine.plain = lexed'.map LexedLine.plain ∧
      ((∃ script, compile Float .empty {} printing = .ok script ∧
          compile Float .empty {} printingSpaced = .ok script) ∨
        ∃ e e' : CompileError, compile Float .empty {} printing = .error e ∧
          compile Float .empty {} printingSpaced = .error e' ∧ e'.stage = e.stage ∧
            e'.error.code = e.error.code ∧ e'.error.line = e.error.line ∧
              e'.error.text = e.error.text) := by
  have hlexes : (LexedLine.lex printing).isOk ∧ (LexedLine.lex printingSpaced).isOk ∧
      (LexedLine.lex printing).toOption.map (List.map LexedLine.plain) =
        (LexedLine.lex printingSpaced).toOption.map (List.map LexedLine.plain) := by
    decide +kernel
  obtain ⟨hisOk, hisOk', hplain⟩ := hlexes
  obtain ⟨lexed, hlex⟩ := exists_of_isOk hisOk
  obtain ⟨lexed', hlex'⟩ := exists_of_isOk hisOk'
  rw [hlex, hlex'] at hplain
  have h : lexed.map LexedLine.plain = lexed'.map LexedLine.plain := Option.some.inj hplain
  exact ⟨lexed, lexed', hlex, hlex', h, compile_same_tokens .empty {} hlex hlex' h⟩

end LineBasic
