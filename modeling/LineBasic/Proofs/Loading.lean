import LineBasic.Proofs.Correctness
import LineBasic.Proofs.ScriptText

namespace LineBasic

open Text

variable {R W : Type}

theorem isNamePart_bounds {c : Char} (h : Token.isNamePart c ∨ c = '$') :
    c.toNat = 36 ∨ 48 ≤ c.toNat ∧ c.toNat ≤ 57 ∨ 65 ≤ c.toNat ∧ c.toNat ≤ 90 ∨
      97 ≤ c.toNat ∧ c.toNat ≤ 122 := by
  rcases h with h | rfl
  · simp only [Token.isNamePart, isLetter, isDigit, Bool.or_eq_true, Bool.and_eq_true,
      decide_eq_true_eq] at h
    rcases h with (⟨hlow, hhigh⟩ | ⟨hlow, hhigh⟩) | ⟨hlow, hhigh⟩
    · exact .inr (.inr (.inr ⟨hlow, hhigh⟩))
    · exact .inr (.inr (.inl ⟨hlow, hhigh⟩))
    · exact .inr (.inl ⟨hlow, hhigh⟩)
  · exact .inl rfl

theorem IsName.isWord {name : String} (h : IsName name) : IsWord name.toList := by
  refine ⟨h.1, fun c hc => ?_⟩
  have hbounds := isNamePart_bounds (h.2 c hc)
  refine ⟨?_, ?_, ?_⟩
  · simp only [isSpace, Bool.or_eq_false_iff, Bool.and_eq_false_iff, beq_eq_false_iff_ne,
      decide_eq_false_iff_not]
    omega
  · rintro rfl
    revert hbounds
    decide
  · rintro rfl
    revert hbounds
    decide

theorem isWord_append {s t : String} (hs : IsWord s.toList) (ht : IsWord t.toList) :
    IsWord (s ++ t).toList := by
  rw [String.toList_append]
  refine ⟨by simp [hs.1], fun c hc => ?_⟩
  rcases List.mem_append.mp hc with hc | hc
  · exact hs.2 c hc
  · exact ht.2 c hc

theorem isWord_numbered {s : String} (hs : IsWord s.toList) (n : Nat) :
    IsWord (s ++ toString n).toList :=
  isWord_append hs (Instruction.isWord_toString n)

theorem isWord_lineLabel (n : LineNumber) : IsWord (lineLabel n).toList :=
  isWord_numbered ⟨by decide, by decide⟩ n

namespace Place

theorem isWord_otherwise (p : Place) : IsWord p.otherwise.toList :=
  isWord_numbered ⟨by decide, by decide⟩ p.k

theorem isWord_exit (p : Place) : IsWord p.exit.toList :=
  isWord_numbered ⟨by decide, by decide⟩ p.k

theorem isWord_body (p : Place) : IsWord p.body.toList :=
  isWord_numbered ⟨by decide, by decide⟩ p.k

theorem isWord_limit (p : Place) : IsWord p.limit.toList :=
  isWord_numbered ⟨by decide, by decide⟩ p.k

theorem isWord_step (p : Place) : IsWord p.step.toList :=
  isWord_numbered ⟨by decide, by decide⟩ p.k

end Place

variable [NumberSystem R]

def AllWritable (code : List (Instruction R String)) : Prop :=
  ∀ i ∈ code, i.Writable

omit [NumberSystem R] in
theorem allWritable_append {code code' : List (Instruction R String)} :
    AllWritable (code ++ code') ↔ AllWritable code ∧ AllWritable code' := by
  simp [AllWritable, or_imp, forall_and]

omit [NumberSystem R] in
theorem allWritable_cons {i : Instruction R String} {code : List (Instruction R String)} :
    AllWritable (i :: code) ↔ i.Writable ∧ AllWritable code :=
  List.forall_mem_cons

omit [NumberSystem R] in
theorem allWritable_nil : AllWritable ([] : List (Instruction R String)) := by
  simp [AllWritable]

namespace Expr

theorem length_le_codeAll (es : List (Expr R)) : es.length ≤ (codeAll es).length := by
  induction es with
  | nil => exact Nat.le_refl _
  | cons e es ih =>
      have hpositive := e.code_length_pos
      rw [codeAll, List.length_append, List.length_cons]
      omega

mutual

theorem allWritable_code : ∀ e : Expr R, (∀ n ∈ e.names, IsName n) →
    e.code.length ≤ maxWord64 → AllWritable e.code
  | number _ _, _, _ | string _ _, _, _ | char _ _, _, _ =>
      allWritable_cons.mpr ⟨trivial, allWritable_nil⟩
  | var _ name, hnames, _ =>
      allWritable_cons.mpr ⟨(hnames name (List.mem_singleton.mpr rfl)).isWord, allWritable_nil⟩
  | unary op _ e, hnames, hlength => by
      rw [code, List.length_append] at hlength
      exact allWritable_append.mpr ⟨allWritable_code e hnames (by omega),
        allWritable_cons.mpr ⟨trivial, allWritable_nil⟩⟩
  | binary op _ l r, hnames, hlength => by
      rw [code, List.length_append, List.length_append] at hlength
      simp only [names, List.mem_append, or_imp, forall_and] at hnames
      exact allWritable_append.mpr ⟨allWritable_append.mpr
        ⟨allWritable_code l hnames.1 (by omega), allWritable_code r hnames.2 (by omega)⟩,
        allWritable_cons.mpr ⟨trivial, allWritable_nil⟩⟩
  | call _ name args, hnames, hlength => by
      rw [code, List.length_append] at hlength
      simp only [names, List.mem_cons, or_imp, forall_and, forall_eq] at hnames
      have hcount := length_le_codeAll args
      exact allWritable_append.mpr ⟨allWritable_codeAll args hnames.2 (by omega),
        allWritable_cons.mpr ⟨⟨hnames.1.isWord, by omega⟩, allWritable_nil⟩⟩

theorem allWritable_codeAll : ∀ es : List (Expr R), (∀ n ∈ namesAll es, IsName n) →
    (codeAll es).length ≤ maxWord64 → AllWritable (codeAll es)
  | [], _, _ => allWritable_nil
  | e :: es, hnames, hlength => by
      rw [codeAll, List.length_append] at hlength
      simp only [namesAll, List.mem_append, or_imp, forall_and] at hnames
      exact allWritable_append.mpr ⟨allWritable_code e hnames.1 (by omega),
        allWritable_codeAll es hnames.2 (by omega)⟩

end

end Expr

namespace Action

variable {lines : List (ActionLine R)}

theorem allWritable_for {loop : Loop} {start limit : Expr R} {step : Option (Expr R)}
    (h : (Action.for loop start limit step).Proper lines)
    (hlength : (Stmt.loopCode ⟨loop.number⟩ ⟨{}, loop.name⟩ start limit step).length ≤
      maxWord64) :
    AllWritable (Stmt.loopCode ⟨loop.number⟩ ⟨{}, loop.name⟩ start limit step) := by
  obtain ⟨hname, hstart, hlimit, hstep⟩ := h
  rw [Stmt.loopCode.eq_def] at hlength ⊢
  simp only [List.length_append, List.length_cons, List.length_nil] at hlength
  simp only [allWritable_append, allWritable_cons]
  refine ⟨⟨⟨⟨⟨?_, hname.isWord, allWritable_nil⟩, ?_⟩, Place.isWord_limit _, allWritable_nil⟩,
    ?_⟩, Place.isWord_step _, Place.isWord_body _, allWritable_nil⟩
  · exact start.allWritable_code hstart (by omega)
  · exact limit.allWritable_code hlimit (by omega)
  · cases step with
    | none => exact allWritable_cons.mpr ⟨trivial, allWritable_nil⟩
    | some e =>
        dsimp only at hlength
        exact e.allWritable_code (hstep e rfl) (by omega)

mutual

theorem allWritable_code (b : Nat) : ∀ a : Action R, a.Proper lines →
    (a.code b).1.length ≤ maxWord64 → AllWritable (a.code b).1
  | .end, _, _ | .return, _, _ => allWritable_cons.mpr ⟨trivial, allWritable_nil⟩
  | rem, _, _ => allWritable_nil
  | gosub line, _, _ | goto line, _, _ =>
      allWritable_cons.mpr ⟨isWord_lineLabel line, allWritable_nil⟩
  | call name args, h, hlength => by
      rw [code, List.length_append] at hlength
      have hcount := Expr.length_le_codeAll args
      exact allWritable_append.mpr ⟨Expr.allWritable_codeAll args h.2 (by omega),
        allWritable_cons.mpr ⟨⟨h.1.isWord, by omega⟩, allWritable_nil⟩⟩
  | .for loop start limit step, h, hlength => allWritable_for h hlength
  | assign name e, h, hlength => by
      rw [code, List.length_append] at hlength
      exact allWritable_append.mpr ⟨e.allWritable_code h.2 (by omega),
        allWritable_cons.mpr ⟨h.1.isWord, allWritable_nil⟩⟩
  | next none, h, _ => h.elim
  | next (some loop), h, _ => by
      rw [code_next]
      exact allWritable_cons.mpr ⟨⟨h.1.isWord, Place.isWord_limit _, Place.isWord_step _,
        Place.isWord_body _⟩, allWritable_nil⟩
  | branch condition thenBody elseBody, h, hlength => by
      obtain ⟨hcondition, hthen, helse⟩ := bodies_length_le b condition thenBody elseBody
      have hwcondition := condition.allWritable_code h.1 (by omega)
      have hwthen := allWritable_codeAll (b + 1) thenBody h.2.1 (by omega)
      have hwelse := allWritable_codeAll (codeAll (b + 1) thenBody).2 elseBody h.2.2 (by omega)
      rw [code]
      dsimp only
      split
      · simp only [allWritable_append, allWritable_cons]
        exact ⟨⟨⟨hwcondition, Place.isWord_otherwise _, allWritable_nil⟩, hwthen⟩,
          Place.isWord_otherwise _, allWritable_nil⟩
      · simp only [allWritable_append, allWritable_cons]
        exact ⟨⟨⟨⟨⟨hwcondition, Place.isWord_otherwise _, allWritable_nil⟩, hwthen⟩,
          Place.isWord_exit _, Place.isWord_otherwise _, allWritable_nil⟩, hwelse⟩,
          Place.isWord_exit _, allWritable_nil⟩

theorem allWritable_codeAll (b : Nat) : ∀ as : List (Action R), AllProper lines as →
    (codeAll b as).1.length ≤ maxWord64 → AllWritable (codeAll b as).1
  | [], _, _ => allWritable_nil
  | a :: as, h, hlength => by
      rw [codeAll, List.length_append] at hlength
      exact allWritable_append.mpr ⟨allWritable_code b a h.1 (by omega),
        allWritable_codeAll (a.code b).2 as h.2 (by omega)⟩

end

theorem allWritable_linesCode {all : List (ActionLine R)} (b : Nat)
    (h : ∀ line ∈ lines, AllProper all line.actions)
    (hnumber : ∀ line ∈ lines, line.number ≤ maxLineNumber)
    (hlength : (linesCode b lines).1.length ≤ maxWord64) :
    AllWritable (linesCode b lines).1 := by
  induction lines generalizing b with
  | nil => exact allWritable_nil
  | cons line lines ih =>
      rw [List.forall_mem_cons] at h hnumber
      simp only [linesCode, List.length_append] at hlength
      simp only [linesCode, allWritable_append, allWritable_cons]
      refine ⟨⟨⟨isWord_lineLabel _, ?_, allWritable_nil⟩, ?_⟩, ?_⟩
      · exact Nat.le_trans hnumber.1 (by decide)
      · exact allWritable_codeAll b line.actions h.1 (by omega)
      · exact ih _ h.2 hnumber.2 (by omega)

end Action

theorem Program.Sound.allWritable_layout {registry : Registry} {p : Program R}
    (h : p.Sound registry) (hroom : p.layout.length ≤ maxCode) : AllWritable p.layout := by
  have hnumber : ∀ line ∈ p.actionLines, line.number ≤ maxLineNumber := by
    intro line hline
    refine h.number_le _ ?_
    rw [numbers, ← map_number_pairLines {} p.lines]
    exact List.mem_map_of_mem hline
  simp only [layout, Action.layout, List.length_append] at hroom
  have hlines := Action.allWritable_linesCode 0 h.proper hnumber
    (Nat.le_trans (by omega) (Nat.le_trans hroom (by decide)))
  simp only [layout, Action.layout, allWritable_append, allWritable_cons]
  exact ⟨⟨⟨⟨by decide, by decide⟩, allWritable_nil⟩, hlines⟩, trivial, allWritable_nil⟩

namespace Instruction

@[simp] theorem label?_reread (i : Instruction R String) : i.reread.label? = i.label? := by
  cases i <;> rfl

@[simp] theorem target?_reread (i : Instruction R String) : i.reread.target? = i.target? := by
  cases i <;> rfl

end Instruction

namespace LinkedCode

theorem labelsOf_map_reread (code : List (Instruction R String)) :
    labelsOf (code.map Instruction.reread) = labelsOf code := by
  simp [labelsOf, List.filterMap_map]

theorem link_map_reread {code : List (Instruction R String)} {linked : LinkedCode R}
    (h : link code = .ok linked) :
    ∃ linked, link (code.map Instruction.reread) = .ok linked := by
  obtain ⟨hnodup, htargets⟩ := link_isOk_iff.mp ⟨linked, h⟩
  refine link_isOk_iff.mpr ⟨labelsOf_map_reread code ▸ hnodup, ?_⟩
  rw [List.forall_mem_map, labelsOf_map_reread]
  intro i hi name hname
  rw [Instruction.target?_reread] at hname
  exact htargets i hi name hname

end LinkedCode

/-- What a program text that was compiled comes to. -/
theorem exists_of_compile {registry : Registry} {flags : Flags} {source : String}
    {script : Script} (h : compile R registry flags source = .ok script) :
    ∃ p, Program.read (R := R) registry source = .ok p ∧ (p.tidied flags).LoopsPair ∧
      (p.optimize flags).layout.length ≤ Program.maxCode ∧
      Script.emit (p.optimize flags).layout = .ok script := by
  cases hread : Program.read (R := R) registry source with
  | error e => simp [compile, Program.instructions, hread, bind, Except.bind] at h
  | ok p =>
      rw [compile_of_read hread] at h
      obtain ⟨code, hcode, hemit⟩ := Stmt.bind_eq_ok h
      have hcode : (p.optimize flags).code = .ok code := by
        cases hcases : (p.optimize flags).code <;> simp_all [Stage.run]
      have hemit : Script.emit code = .ok script := by
        cases hcases : Script.emit code <;> simp_all [Stage.run]
      obtain ⟨hpair, hroom, rfl⟩ := Program.code_eq_ok_iff.mp hcode
      rw [Program.optimize_eq, Program.loopsPair_prune] at hpair
      exact ⟨p, rfl, hpair, hroom, hemit⟩

/-- What a program that was read is compiled to. -/
theorem compile_of_loopsPair {registry : Registry} {source : String} {p : Program R}
    (h : Program.read registry source = .ok p) {flags : Flags} (hpair : (p.tidied flags).LoopsPair)
    (hroom : (p.optimize flags).layout.length ≤ Program.maxCode) :
    Program.instructions registry flags source = .ok (p.optimize flags).layout ∧
      compile R registry flags source =
        .ok ⟨String.join ((p.optimize flags).layout.map Script.lineOf)⟩ := by
  have hoptimized : (p.optimize flags).LoopsPair := (Program.loopsPair_prune _).mpr hpair
  have hcode := Program.code_eq_ok_iff.mpr ⟨hoptimized, hroom, rfl⟩
  obtain ⟨linked, hlinked⟩ := ((Program.coherent_of_read h).tidied hpair).prune.links
  constructor
  · rw [Program.instructions, h]
    show Stage.codegen.run (p.optimize flags).code = _
    rw [hcode]
    rfl
  · rw [compile_of_read h, hcode]
    show Stage.codegen.run (Script.emit (p.optimize flags).layout) = _
    rw [Program.optimize_eq, Script.emit_of_link hlinked]
    rfl

/-- A machine can load what was compiled, and has the code of the program then. -/
theorem load_of_emit {registry : Registry} {p : Program R} (h : p.Sound registry)
    (hroom : p.layout.length ≤ Program.maxCode) {script : Script}
    (hemit : Script.emit p.layout = .ok script) :
    ∃ linked, LinkedCode.link (p.layout.map Instruction.reread) = .ok linked ∧
      ∀ m : Machine R W, m.load script.text = .ok { m with linked } := by
  obtain ⟨linked, hlinked⟩ := h.coherent.links
  obtain ⟨linked, hlinked⟩ := LinkedCode.link_map_reread hlinked
  refine ⟨linked, hlinked, fun m => ?_⟩
  rw [Machine.load, Script.read_of_emit (h.allWritable_layout hroom) hemit]
  simp only [bind, Except.bind, hlinked]
  rfl

end LineBasic
