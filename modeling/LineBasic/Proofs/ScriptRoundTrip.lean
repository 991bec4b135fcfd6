import LineBasic.Proofs.Folding

namespace LineBasic

variable {R : Type} [NumberSystem R]

/-- A number is read from its text as it is. -/
def NumberSystem.ReadsBack (n : R) : Prop :=
  read? (write n) = some n

theorem NumberSystem.readsBack_iff {n : R} : ReadsBack n ↔ reread n = n := by
  rw [ReadsBack, reread, read?_write, Option.getD_some, Option.some.injEq]

/-- The script of a program is read as the code of the program, except that its numbers are as they are read; so if these
read back, it is read as the code itself, and a machine that loads it gets what the code is linked to. -/
theorem compiled_reads_back {registry : Registry} {flags : Flags} {source : String}
    {script : Script} (h : compile R registry flags source = .ok script) :
    ∃ code linked, Program.instructions (R := R) registry flags source = .ok code ∧
      LinkedCode.link code = .ok linked ∧
      Script.read script.text = .ok (code.map Instruction.reread) ∧
      ((∀ n : R, .literal (.number n) ∈ code → NumberSystem.ReadsBack n) →
        Script.read script.text = .ok code ∧
          ∀ (W : Type) (m : Machine R W), m.load script.text = .ok { m with linked }) := by
  obtain ⟨p, hread, hpair, hroom, hemit⟩ := exists_of_compile h
  have hsound := (Program.sound_of_read hread).optimize hpair
  obtain ⟨linked, hlinked⟩ := hsound.coherent.links
  have hscript := Script.read_of_emit (hsound.allWritable_layout hroom) hemit
  refine ⟨(p.optimize flags).layout, linked, (compile_of_loopsPair hread hpair hroom).1, hlinked,
    hscript, fun hreads => ?_⟩
  rw [map_reread_eq_self fun n hn => NumberSystem.readsBack_iff.mp (hreads n hn)] at hscript
  refine ⟨hscript, fun W m => ?_⟩
  rw [Machine.load, hscript]
  simp only [bind, Except.bind, hlinked]
  rfl

/-- The string that an instruction puts on the stack as it is. -/
def Instruction.string? : Instruction Float String → Option String
  | .literal (.string s) => some s
  | _ => none

theorem Instruction.eq_of_string? {i : Instruction Float String} {s : String}
    (h : i.string? = some s) : i = .literal (.string s) := by
  unfold string? at h
  split at h
  · cases h
    rfl
  · cases h

/-- A program with an infinite number and a negative one, and with marks and blanks of all sorts in its strings. -/
def marks : String :=
  "10 PRINT 1E999; \"; a\\n\\:\" + \"\t\r\u2028'\u00a0:\"; -.5"

/-- The strings are folded into one. -/
theorem compiled_reads_back_marks :
    ∃ (script : Script) (code : List (Instruction Float String)) (linked : LinkedCode Float),
      compile Float .standard {} marks = .ok script ∧
      Program.instructions .standard {} marks = .ok code ∧
      .literal (.string "; a\\n\\:\t\r\u2028'\u00a0:") ∈ code ∧
      LinkedCode.link code = .ok linked ∧ Script.read script.text = .ok code ∧
      Machine.standard.load script.text = .ok { Machine.standard with linked } := by
  have hcompiles : ((compile Float .standard {} marks).toOption.bind fun _ =>
      (Program.instructions (R := Float) .standard {} marks).toOption.map fun code =>
        code.any fun i => i.string? = some "; a\\n\\:\t\r\u2028'\u00a0:") = some true := by
    decide +kernel
  simp only [Option.bind_eq_some_iff, Option.map_eq_some_iff] at hcompiles
  obtain ⟨script, hscript, code, hcode, hstring⟩ := hcompiles
  have hscript := eq_ok_of_toOption hscript
  have hcode := eq_ok_of_toOption hcode
  obtain ⟨code', linked, hcode', hlinked, -, hback⟩ := compiled_reads_back hscript
  obtain rfl : code = code' := Except.ok.inj (hcode.symm.trans hcode')
  obtain ⟨hread, hload⟩ := hback fun n _ => Binary64.read?_write n
  refine ⟨script, code, linked, hscript, hcode, ?_, hlinked, hread, hload String Machine.standard⟩
  obtain ⟨i, hi, hfound⟩ := List.any_eq_true.mp hstring
  rw [← Instruction.eq_of_string? (of_decide_eq_true hfound)]
  exact hi

end LineBasic
