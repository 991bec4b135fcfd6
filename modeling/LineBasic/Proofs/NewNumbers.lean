import LineBasic.Proofs.Loading
import LineBasic.Proofs.MovedLines
import LineBasic.Proofs.NamedLines
import LineBasic.Proofs.Reparsing

namespace LineBasic

variable {R : Type} [NumberSystem R] {f : LineNumber → LineNumber}

theorem LexedLine.Renumbers.follows {change : LineNumber → Option LineNumber} {line line' : LexedLine}
    (h : Renumbers change line line') : Follows change line line' := by
  refine ⟨h.number, ?_⟩
  rw [← List.map_map, h.tokens, Token.map_plain_renumberTokens, List.map_map]

namespace Program

theorem parseLines_renumber {change : LineNumber → Option LineNumber}
    (hchange : ∀ old new, change old = some new → new ≤ maxLineNumber) {lexed lexed' : List LexedLine}
    (h : List.Forall₂ (LexedLine.Renumbers change) lexed lexed') {lines : List (ProgramLine R)}
    (hparse : parseLines lexed = .ok lines) :
    ∃ lines', parseLines lexed' = .ok lines' ∧
      lines'.map (ProgramLine.bare id) = lines.map (ProgramLine.bare (Line.newNumber change)) := by
  have hword (old new : LineNumber) (hnew : change old = some new) : new ≤ Text.maxWord32 :=
    Nat.le_trans (hchange old new hnew) (by decide)
  have hagree := agree_parseLines (R := R) hword (h.imp fun _ _ hline => hline.follows)
  rw [hparse] at hagree
  obtain ⟨_, lines', heq, hparse', hlines⟩ | ⟨_, _, heq, -⟩ := agree_iff.mp hagree
  · cases heq
    exact ⟨lines', hparse', hlines⟩
  · cases heq

theorem read_of_check {registry : Registry} {source : String} {lexed : List LexedLine}
    {lines : List (ProgramLine R)} (hlex : LexedLine.lex source = .ok lexed)
    (hparse : parseLines lexed = .ok lines)
    (hcheck : (⟨lines⟩ : Program R).check registry = .ok ()) :
    read registry source = .ok ⟨lines⟩ := by
  simp only [read, parse, hlex, hparse, hcheck, Stage.run, bind, Except.bind, pure, Except.pure]

theorem bare_folded (flags : Flags) (p : Program R) :
    (p.folded flags).bare f = (p.bare f).folded flags := by
  unfold folded
  split
  · exact p.bare_fold
  · rfl

theorem bare_tidied (flags : Flags) (p : Program R) :
    (p.tidied flags).bare f = (p.bare f).tidied flags := by
  unfold tidied
  split
  · rw [bare_tidy, bare_folded]
  · exact p.bare_folded flags

theorem loopsPair_tidied_bare (flags : Flags) (p : Program R) :
    ((p.bare f).tidied flags).LoopsPair ↔ (p.tidied flags).LoopsPair := by
  rw [← bare_tidied, loopsPair_bare]

theorem bare_optimize {flags : Flags} {p : Program R} (h : (p.tidied flags).Coherent)
    (hf : p.SetsApart f) : (p.optimize flags).bare f = (p.bare f).optimize flags := by
  have hf' : (p.tidied flags).SetsApart f := by
    unfold SetsApart
    rwa [numbers_tidied]
  rw [optimize_eq, optimize_eq, Flow.bare_prune h hf', bare_tidied]

/-- The same program in other columns, its lines under other numbers. -/
structure Renamed (f : LineNumber → LineNumber) (p p' : Program R) : Prop where
  setsApart : p.SetsApart f
  bare : p'.bare id = p.bare f

variable {p p' : Program R}

theorem contains_of_mem {numbers : List LineNumber} {n : LineNumber} (h : n ∈ numbers) :
    (numbers.map f).contains (f n) = numbers.contains n := by
  rw [List.contains_iff_mem.mpr h, List.contains_iff_mem.mpr (List.mem_map_of_mem h)]

omit [NumberSystem R] in
theorem bare_id_check {registry : Registry} :
    (p.bare id).check registry = .ok () ↔ p.check registry = .ok () :=
  check_bare_iff fun t _ => by rw [List.map_id, id]

omit [NumberSystem R] in
theorem Renamed.check {registry : Registry} (h : Renamed f p p') (hcoherent : p.Coherent)
    (hcheck : p.check registry = .ok ()) : p'.check registry = .ok () := by
  rw [← bare_id_check, h.bare]
  exact (check_bare_iff fun t ht => contains_of_mem (hcoherent.targets_mem t ht)).mpr hcheck

theorem Renamed.loopsPair_tidied {flags : Flags} (h : Renamed f p p')
    (hpair : (p.tidied flags).LoopsPair) : (p'.tidied flags).LoopsPair := by
  rw [← loopsPair_tidied_bare (f := id), h.bare, loopsPair_tidied_bare]
  exact hpair

theorem Renamed.optimize {flags : Flags} (h : Renamed f p p') (hcoherent : p.Coherent)
    (hcoherent' : p'.Coherent) (hpair : (p.tidied flags).LoopsPair) :
    (p'.optimize flags).bare id = (p.optimize flags).bare f := by
  have hsame : p'.SetsApart id := fun n _ m _ heq => heq
  rw [bare_optimize (hcoherent'.tidied (h.loopsPair_tidied hpair)) hsame, h.bare,
    bare_optimize (hcoherent.tidied hpair) h.setsApart]

/-- The layout of the program has other labels and markers for its lines. -/
theorem Renamed.layout {flags : Flags} {g : String → String} (hg : Renames g f) (h : Renamed f p p')
    (hcoherent : p.Coherent) (hcoherent' : p'.Coherent) (hpair : (p.tidied flags).LoopsPair) :
    (p'.optimize flags).layout = (p.optimize flags).layout.map (Instruction.rename g f) := by
  have hid : Renames id id := ⟨fun _ => rfl, rfl, fun _ => rfl, fun _ => rfl, fun _ => rfl⟩
  rw [← layout_bare hg, ← h.optimize hcoherent hcoherent' hpair, layout_bare hid,
    Instruction.rename_id, List.map_id]

end Program

namespace Listing

variable (start increment first : Nat) (listing : Listing)

/-- The name that a label has under the new numbers of the lines. -/
def relabel (name : String) : String :=
  match (listing.moved first).find? fun old => lineLabel old = name with
  | some old => lineLabel (Line.newNumber (listing.change start increment first) old)
  | none => name

/-- The instruction with the new numbers of the lines in its labels and in its marker. -/
def renumberInstruction : Instruction R String → Instruction R String :=
  .rename (listing.relabel start increment first) (Line.newNumber (listing.change start increment first))

theorem relabel_lineLabel (n : LineNumber) :
    listing.relabel start increment first (lineLabel n) =
      lineLabel (Line.newNumber (listing.change start increment first) n) := by
  unfold relabel
  cases hfound : (listing.moved first).find? fun old => lineLabel old = lineLabel n with
  | some old =>
      have hlabel : lineLabel old = lineLabel n := by simpa using List.find?_some hfound
      rw [lineLabel_inj hlabel]
  | none =>
      have hnot : n ∉ listing.moved first := by
        intro hmem
        exact absurd (List.find?_eq_none.mp hfound n hmem) (by simp)
      rw [Line.newNumber, change_of_notMem hnot]
      rfl

theorem relabel_of_head_ne {name : String} (h : name.toList.head? ≠ some 'L') :
    listing.relabel start increment first name = name := by
  have hnone : ((listing.moved first).find? fun old => lineLabel old = name) = none := by
    rw [List.find?_eq_none]
    intro old _ heq
    rw [decide_eq_true_eq] at heq
    exact h (heq ▸ head_lineLabel old)
  rw [relabel, hnone]

theorem renames_relabel : Renames (listing.relabel start increment first)
    (Line.newNumber (listing.change start increment first)) where
  line := listing.relabel_lineLabel start increment first
  entry := listing.relabel_of_head_ne start increment first (by simp)
  otherwise place := listing.relabel_of_head_ne start increment first (by simp)
  exit place := listing.relabel_of_head_ne start increment first (by simp)
  body place := listing.relabel_of_head_ne start increment first (by simp)

end Listing

variable {registry : Registry} {flags : Flags} {listing listing' : Listing}
  {start increment first : Nat} {script : Script}

theorem read_renumber (hbreaks : ∀ l ∈ listing.lines, l.Unbroken)
    (hrenumber : listing.renumber start increment first = .ok listing') {p : Program R}
    (hread : Program.read registry listing.source = .ok p) :
    ∃ p', Program.read registry listing'.source = .ok p' ∧
      Program.Renamed (Line.newNumber (listing.change start increment first)) p p' := by
  obtain ⟨lexed, hlex, hparse, hcheck⟩ := Program.read_eq_ok hread
  obtain ⟨changes, lexed', hchanges, -, hlex', hrenumbers⟩ :=
    Listing.lex_renumber hbreaks hrenumber hlex
  obtain ⟨lines', hparse', hlines'⟩ :=
    Program.parseLines_renumber (Listing.le_of_renumbering hchanges) hrenumbers hparse
  have hnumbers : p.numbers = listing.lines.map Line.number := by
    rw [Program.numbers, Program.numbers_parseLines hparse]
    exact LexedLine.numbers_of_lexesTo ((Listing.lex_source_iff hbreaks).mp hlex)
  rw [← Listing.lookup_of_renumbering hchanges]
  have hrenamed : Program.Renamed (Line.newNumber (changes.lookup ·)) p ⟨lines'⟩ := by
    refine ⟨fun n hn m hm heq => ?_, congrArg Program.mk hlines'⟩
    rw [hnumbers] at hn hm
    exact Listing.newNumber_injective hchanges hn hm heq
  exact ⟨⟨lines'⟩,
    Program.read_of_check hlex' hparse' (hrenamed.check (Program.coherent_of_read hread) hcheck),
    hrenamed⟩

/-- Renumbering does not change a program. If a listing whose lines stay apart in its text is compiled, and renumbered, it
is compiled again; and then its script is the one it had, with the new number of every moved line in its label, in all that
names this label, and in its marker. -/
theorem compile_renumber (hbreaks : ∀ l ∈ listing.lines, l.Unbroken)
    (hcompile : compile R registry flags listing.source = .ok script)
    (hrenumber : listing.renumber start increment first = .ok listing') :
    listing'.lines.map Line.number =
      (listing.lines.map Line.number).map (Line.newNumber (listing.change start increment first)) ∧
    ∃ code, Program.instructions (R := R) registry flags listing.source = .ok code ∧
      script = ⟨String.join (code.map Script.lineOf)⟩ ∧
      compile R registry flags listing'.source = .ok ⟨String.join
        ((code.map (listing.renumberInstruction start increment first)).map Script.lineOf)⟩ := by
  obtain ⟨p, hread, hpair, hroom, -⟩ := exists_of_compile hcompile
  obtain ⟨p', hread', hrenamed⟩ := read_renumber hbreaks hrenumber hread
  obtain ⟨hcode, hscript⟩ := compile_of_loopsPair hread hpair hroom
  have hlayout : (p'.optimize flags).layout =
      (p.optimize flags).layout.map (listing.renumberInstruction start increment first) :=
    hrenamed.layout (listing.renames_relabel start increment first)
      (Program.coherent_of_read hread) (Program.coherent_of_read hread') hpair
  have hroom' : (p'.optimize flags).layout.length ≤ Program.maxCode := by
    rwa [hlayout, List.length_map]
  constructor
  · rw [Listing.lines_renumber hrenumber, List.map_map, List.map_map]
    rfl
  · refine ⟨(p.optimize flags).layout, hcode, Except.ok.inj (hcompile.symm.trans hscript), ?_⟩
    rw [← hlayout]
    exact (compile_of_loopsPair hread' (hrenamed.loopsPair_tidied hpair) hroom').2

/-- A program with a jump in each arm of an IF, and one back. -/
def jumps : Listing where
  lines := [⟨10, "IF A THEN 30 ELSE 20"⟩, ⟨20, "GOTO 10"⟩, ⟨30, "END"⟩]
  ascending := by simp [Line.Before]

theorem compile_renumber_jumps :
    [10, 20, 30].map (jumps.change 100 10 20) = [none, some 100, some 110] ∧
    ∃ listing' script code, jumps.renumber 100 10 20 = .ok listing' ∧
      listing'.lines.map Line.number = [10, 100, 110] ∧
      compile Float .empty {} jumps.source = .ok script ∧
      Program.instructions (R := Float) .empty {} jumps.source = .ok code ∧
      script = ⟨String.join (code.map Script.lineOf)⟩ ∧
      compile Float .empty {} listing'.source =
        .ok ⟨String.join ((code.map (jumps.renumberInstruction 100 10 20)).map Script.lineOf)⟩ := by
  have hchange : [10, 20, 30].map (jumps.change 100 10 20) = [none, some 100, some 110] := by decide
  obtain ⟨listing', hrenumber⟩ := exists_of_isOk (x := jumps.renumber 100 10 20) (by decide)
  obtain ⟨script, hcompile⟩ :=
    exists_of_isOk (x := compile Float .empty {} jumps.source) (by decide +kernel)
  have hbreaks : ∀ l ∈ jumps.lines, l.Unbroken := by
    have hnone : ∀ l ∈ jumps.lines,
        '\n' ∉ l.content.toList ∧ l.content.toList.getLast? ≠ some '\r' := by decide
    exact fun l hl => ⟨(hnone l hl).1, (hnone l hl).2⟩
  obtain ⟨hnumbers, code, hcode, hscript, hrecompile⟩ := compile_renumber hbreaks hcompile hrenumber
  exact ⟨hchange, listing', script, code, hrenumber, hnumbers, hcompile, hcode, hscript, hrecompile⟩

end LineBasic
