import LineBasic.Binary64
import LineBasic.Proofs.Labels

namespace LineBasic

variable {R : Type} [NumberSystem R]

theorem exists_of_isOk {ε α : Type} {x : Except ε α} (h : x.isOk) : ∃ a, x = .ok a := by
  cases x with
  | error e => cases h
  | ok a => exact ⟨a, rfl⟩

theorem eq_ok_of_toOption {ε α : Type} {x : Except ε α} {a : α} (h : x.toOption = some a) :
    x = .ok a := by
  cases x with
  | error e => cases h
  | ok b =>
      cases h
      rfl

namespace Stmt

mutual

/-- Tidying drops no IF with a loop in it from a statement. -/
def keepsLoops : Stmt R → Bool
  | .if _ _ thenBody elseBody => keepsLoopsAll false thenBody && keepsLoopsAll false elseBody
  | _ => true

def keepsLoopsAll (dead : Bool) : List (Stmt R) → Bool
  | [] => true
  | s :: ss =>
      if dead then (s.pairs || !s.hasLoop) && keepsLoopsAll true ss
      else s.keepsLoops && keepsLoopsAll (s.tidy.any isTerminal) ss

end

mutual

theorem loopMarksAll_tidy : ∀ s : Stmt R, s.keepsLoops → loopMarksAll s.tidy = s.loopMarks
  | call _ _ _, _ | .end _, _ | gosub _ _, _ | goto _ _, _ | print _ _, _ | .return _, _
  | next _ _, _ | .for _ _ _ _ _, _ => by
      simp [tidy, isSelfAssignment, loopMarksAll]
  | rem _, _ => by simp [tidy, loopMarksAll, loopMarks]
  | .let column v e, _ => by
      rw [tidy_let]
      split <;> simp [loopMarksAll, loopMarks]
  | .if column condition thenBody elseBody, h => by
      rw [keepsLoops, Bool.and_eq_true] at h
      have hthen := loopMarksAll_tidyAll false thenBody h.1
      have helse := loopMarksAll_tidyAll false elseBody h.2
      rcases tidy_if column condition thenBody elseBody with hkept | ⟨hloop, hkept⟩
      · rw [hkept, loopMarksAll, loopMarksAll, loopMarks, hthen, helse, List.append_nil,
          loopMarks]
      · have hnone := (loopMarks_eq_nil_iff _).mpr hloop
        rw [hnone]
        rw [loopMarks, List.append_eq_nil_iff] at hnone
        rcases hkept with hkept | hkept
        · rw [hkept, hthen, hnone.1]
        · rw [hkept, helse, hnone.2]

theorem loopMarksAll_tidyAll (dead : Bool) : ∀ ss : List (Stmt R), keepsLoopsAll dead ss →
    loopMarksAll (tidyAll dead ss) = loopMarksAll ss
  | [], _ => by rw [tidyAll]
  | s :: ss, h => by
      rw [keepsLoopsAll] at h
      rw [tidyAll]
      split at h
      · rename_i hdead
        rw [Bool.and_eq_true, Bool.or_eq_true, Bool.not_eq_true'] at h
        have hss := loopMarksAll_tidyAll true ss h.2
        rw [if_pos hdead]
        split
        · rw [loopMarksAll, loopMarksAll, hss]
        · rename_i hpairs
          have hnone := (loopMarks_eq_nil_iff s).mpr (h.1.resolve_left hpairs)
          rw [loopMarksAll, hnone, hss, List.nil_append]
      · rename_i hlive
        rw [Bool.and_eq_true] at h
        rw [if_neg hlive, loopMarksAll_append, loopMarksAll_tidy s h.1,
          loopMarksAll_tidyAll _ ss h.2, loopMarksAll]

end

end Stmt

namespace Program

def folded (flags : Flags) (p : Program R) : Program R :=
  if flags.ast then p.fold else p

def tidied (flags : Flags) (p : Program R) : Program R :=
  if flags.peephole then (p.folded flags).tidy else p.folded flags

theorem optimize_eq (flags : Flags) (p : Program R) :
    p.optimize flags = (Flow.ofProgram (p.tidied flags)).prune (p.tidied flags) :=
  rfl

/-- No IF with a FOR or a NEXT in it stands behind an END, GOTO or RETURN of the
same list of statements. -/
def KeepsLoops (p : Program R) : Prop :=
  ∀ line ∈ p.lines, Stmt.keepsLoopsAll false line.statements

theorem loopsPair_tidy {p : Program R} (h : p.KeepsLoops) : p.tidy.LoopsPair ↔ p.LoopsPair := by
  refine loopsPair_congr ?_
  rw [loopMarksOf, loopMarksOf, Program.tidy, List.flatMap_map]
  exact List.flatMap_congr fun line hline => Stmt.loopMarksAll_tidyAll false _ (h line hline)

theorem numbers_folded (flags : Flags) (p : Program R) :
    (p.folded flags).numbers = p.numbers := by
  unfold folded
  split
  · simp [numbers, fold, Function.comp_def]
  · rfl

theorem numbers_tidied (flags : Flags) (p : Program R) :
    (p.tidied flags).numbers = p.numbers := by
  rw [← numbers_folded flags p]
  unfold tidied
  split
  · simp [numbers, tidy, Function.comp_def]
  · rfl

theorem Coherent.folded {p : Program R} (h : p.Coherent) (flags : Flags) :
    (p.folded flags).Coherent := by
  unfold Program.folded
  split
  · exact h.fold
  · exact h

theorem Coherent.tidied {p : Program R} (h : p.Coherent) {flags : Flags}
    (hpair : (p.tidied flags).LoopsPair) : (p.tidied flags).Coherent := by
  unfold Program.tidied at hpair ⊢
  split at hpair
  · rename_i hflag
    rw [if_pos hflag]
    exact (h.folded flags).tidy hpair
  · rename_i hflag
    rw [if_neg hflag]
    exact h.folded flags

omit [NumberSystem R] in
/-- Pruning changes nothing about loops. -/
theorem loopsPair_prune (p : Program R) :
    ((Flow.ofProgram p).prune p).LoopsPair ↔ p.LoopsPair :=
  loopsPair_congr (loopMarksOf_filter
    fun _ hmem hloop => Flow.isReachable_of_anyHasLoop hmem hloop)

end Program

/-- A program text is compiled, or its code is too large. -/
def Accepted (result : Except CompileError Script) : Prop :=
  (∃ script, result = .ok script) ∨
    ∃ e : Error, result = .error { stage := .codegen, error := e } ∧ e.IsTooLarge

theorem Script.emit_of_link {code : List (Instruction R String)} {linked : LinkedCode R}
    (h : LinkedCode.link code = .ok linked) :
    Script.emit code = .ok { text := String.join (code.map Script.lineOf) } := by
  rw [Script.emit, h]
  rfl

/-- What compiling a program that was read comes to. -/
theorem compile_of_read {registry : Registry} {source : String} {p : Program R}
    (h : Program.read registry source = .ok p) (flags : Flags) :
    compile R registry flags source =
      (Stage.codegen.run (p.optimize flags).code).bind
        fun code => Stage.codegen.run (Script.emit code) := by
  rw [compile, Program.instructions, h]
  rfl

theorem accepted_iff_code {registry : Registry} {source : String} {p : Program R}
    (h : Program.read registry source = .ok p) (flags : Flags) :
    Accepted (compile R registry flags source) ↔
      (∃ code, (p.optimize flags).code = .ok code) ∨
        ∃ e, (p.optimize flags).code = .error e ∧ e.IsTooLarge := by
  rw [compile_of_read h]
  cases hcode : (p.optimize flags).code with
  | error e =>
      simp only [Stage.run, Except.bind, Accepted]
      simp
  | ok code =>
      obtain ⟨hpair, -, rfl⟩ := Program.code_eq_ok_iff.mp hcode
      rw [Program.optimize_eq, Program.loopsPair_prune] at hpair
      obtain ⟨linked, hlinked⟩ := ((Program.coherent_of_read h).tidied hpair).prune.links
      simp only [Stage.run, Except.bind, Program.optimize_eq, Script.emit_of_link hlinked,
        Accepted]
      simp

/-- Which programs that were read are compiled under given flags, unless their
code is too large: those whose loops pair after tidying. They do if there is no
tidying, or if it drops no IF with a loop in it. A program whose loops do not
pair can only be too large in front of the place where that shows. -/
theorem accepted_iff {registry : Registry} {source : String} {p : Program R}
    (h : Program.read registry source = .ok p) (flags : Flags) :
    (Accepted (compile R registry flags source) ↔
      (p.tidied flags).LoopsPair ∨
        Program.maxCode < Program.plainSize (p.optimize flags).emissions) ∧
    (flags.peephole = false ∨ (p.folded flags).KeepsLoops → (p.tidied flags).LoopsPair) := by
  constructor
  · rw [accepted_iff_code h, Program.code_tooLarge_iff]
    constructor
    · rintro (⟨code, hcode⟩ | hlarge)
      · obtain ⟨hpair, -, -⟩ := Program.code_eq_ok_iff.mp hcode
        exact .inl ((Program.loopsPair_prune _).mp hpair)
      · exact .inr hlarge
    · rintro (hpair | hlarge)
      · have hprune : (p.optimize flags).LoopsPair := (Program.loopsPair_prune _).mpr hpair
        rcases Nat.lt_or_ge Program.maxCode (p.optimize flags).layout.length with hlt | hle
        · rw [← Program.plainSize_of_plain (Program.emissions_of_loopsPair hprune)] at hlt
          exact .inr hlt
        · exact .inl ⟨_, Program.code_eq_ok_iff.mpr ⟨hprune, hle, rfl⟩⟩
      · exact .inr hlarge
  · intro hflag
    have hcoherent := Program.coherent_of_read h
    unfold Program.tidied
    split
    · rename_i hpeephole
      refine (Program.loopsPair_tidy (hflag.resolve_left ?_)).mpr
        (hcoherent.folded flags).loopsPair
      simp [hpeephole]
    · exact (hcoherent.folded flags).loopsPair

/-- The FOR behind the END goes, so the NEXT that it opens a loop for has none. -/
theorem not_accepted_dead_for :
    (Program.read (R := Float) .empty
        "10 END: IF A THEN FOR I=1 TO 2\n20 NEXT I").isOk ∧
      ¬Accepted (compile Float .empty {} "10 END: IF A THEN FOR I=1 TO 2\n20 NEXT I") := by
  have hread : (Program.read (R := Float) .empty
      "10 END: IF A THEN FOR I=1 TO 2\n20 NEXT I").isOk := by
    decide +kernel
  have hcompile : compile Float .empty {} "10 END: IF A THEN FOR I=1 TO 2\n20 NEXT I" =
      .error { stage := .codegen, error := ⟨.nextWithoutFor, some 20, ⟨0, 4⟩, ""⟩ } := by
    decide +kernel
  refine ⟨hread, ?_⟩
  rw [hcompile]
  rintro (⟨script, hscript⟩ | ⟨e, he, hlarge⟩)
  · cases hscript
  · cases he
    exact absurd hlarge.1 (by decide)

theorem accepted_without_tidying :
    ∃ p : Program Float,
      Program.read .empty "10 END: IF A THEN FOR I=1 TO 2\n20 NEXT I" = .ok p ∧
        (p.tidied { peephole := false }).LoopsPair ∧
        Accepted (compile Float .empty { peephole := false }
          "10 END: IF A THEN FOR I=1 TO 2\n20 NEXT I") := by
  have hread : (Program.read (R := Float) .empty
      "10 END: IF A THEN FOR I=1 TO 2\n20 NEXT I").isOk := by
    decide +kernel
  cases hp : Program.read (R := Float) .empty "10 END: IF A THEN FOR I=1 TO 2\n20 NEXT I" with
  | error e =>
      rw [hp] at hread
      cases hread
  | ok p =>
      have h := accepted_iff hp { peephole := false }
      exact ⟨p, rfl, h.2 (.inl rfl), h.1.mpr (.inl (h.2 (.inl rfl)))⟩

end LineBasic
