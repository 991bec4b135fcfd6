import LineBasic.Proofs.StandardNatives

namespace LineBasic

variable {R W : Type} [NumberSystem R]

/-- A machine that has the code of a sound program has checked code. -/
theorem Program.Sound.checked {registry : Registry} {p : Program R} (h : p.Sound registry)
    (hroom : p.layout.length ≤ maxCode) {m : Machine R W}
    (hm : m.native?.Honour registry)
    (hlink : LinkedCode.link (p.layout.map Instruction.reread) = .ok m.linked) :
    m.Checked registry (p.layout.map Instruction.reread) where
  link_eq := hlink
  typed := by
    rw [typesBehind?_map_reread, h.typesBehind?_layout]
    exact Option.some_ne_none _
  room := by
    rw [List.length_map]
    exact hroom
  honour := hm

omit [NumberSystem R] in
theorem Registers.Typed.items_eq_nil {registry : Registry}
    {code : List (Instruction R String)} {r : Registers R} (hr : r.Typed registry code)
    (h : EmptyAt registry code r.address) : r.stack.items = [] :=
  List.map_eq_nil_iff.mp ((typesAt_nil_iff.mpr h).unique hr.typesAt)

theorem start_of_link_layout {p : Program R} {m : Machine R W}
    (hlink : LinkedCode.link (p.layout.map Instruction.reread) = .ok m.linked) :
    ∃ r, m.start Script.entry = .ok r := by
  have hplaced := LinkedCode.placed_of_link hlink
  rw [Program.layout, Action.layout, List.append_assoc, List.map_append, LinkedCode.placed_append] at hplaced
  have hentry : m.linked.labels[Script.entry]? = some 0 := hplaced.1.1
  exact ⟨{ address := 0, countdown := m.period }, by rw [Machine.start, hentry]⟩

omit [NumberSystem R] in
/-- There is always room for one more value. -/
theorem Registers.Typed.length_lt {registry : Registry} {code : List (Instruction R String)}
    {r : Registers R} (hr : r.Typed registry code)
    (htyped : typesBehind? registry [] code = some []) (hroom : code.length ≤ Stack.capacity) :
    r.stack.items.length < Stack.capacity := by
  obtain ⟨front, back, hsplit, hwidth, htypes⟩ := hr.typesAt
  have hle := length_typesBehind?_le htypes
  rw [List.length_map, List.length_nil] at hle
  cases back with
  | nil =>
      rw [List.append_nil] at hsplit
      subst hsplit
      rw [htyped] at htypes
      rw [List.map_eq_nil_iff.mp (Option.some.inj htypes).symm]
      exact (by decide : 0 < Stack.capacity)
  | cons i back =>
      rw [hsplit, List.length_append, List.length_cons] at hroom
      omega

/-- What a compiled program may come to on a machine, if its statements start at
the given addresses: there is room for one more value, and there are none where a
statement starts; an error is not one of types or of what is missing, and only a
native says that an expression is too complex. -/
def Machine.Sound (m : Machine R W) (starts : List Nat) : Progress R → Prop
  | .running r =>
      r.stack.items.length < Stack.capacity ∧ (r.address ∈ starts → r.stack.items = [])
  | .ended (.failed e) _ =>
      e.code ≠ .typeMismatch ∧ e.code ≠ .internalError ∧ e.code ≠ .undefinedFunction ∧
        (e.text = "EXPRESSION TOO COMPLEX" → m.Raises e)
  | .ended _ _ => True

/-- A machine loads what was compiled, and runs it soundly if its natives honour
what it was compiled against. -/
theorem compiled_sound {registry : Registry} {flags : Flags} {source : String} {script : Script}
    (hcompile : compile R registry flags source = .ok script) (m : Machine R W)
    (hm : m.native?.Honour registry) :
    ∃ (p : Program R) (m' : Machine R W) (r : Registers R),
      Program.read registry source = .ok p ∧ m.load script.text = .ok m' ∧
      m'.start Script.entry = .ok r ∧
      ∀ fuel w, m.Sound (p.optimize flags).statementStarts (m'.advance fuel r w).1 := by
  obtain ⟨p, hread, hpair, hroom, hemit⟩ := exists_of_compile hcompile
  have hsound := (Program.sound_of_read hread).optimize hpair
  obtain ⟨linked, hlink, hload⟩ := load_of_emit (W := W) hsound hroom hemit
  have hchecked : ({ m with linked } : Machine R W).Checked registry _ :=
    hsound.checked hroom hm hlink
  obtain ⟨r, hr⟩ := start_of_link_layout (m := { m with linked }) hlink
  refine ⟨p, { m with linked }, r, hread, hload m, hr, fun fuel w => ?_⟩
  have hsafe := hchecked.safe_advance fuel (hchecked.typed_start hr) w
  generalize (({ m with linked } : Machine R W).advance fuel r w).1 = progress at hsafe
  rcases progress with r' | ⟨_ | e | _, r'⟩
  · refine ⟨hsafe.length_lt ?_ hchecked.room, fun hstart => ?_⟩
    · rw [typesBehind?_map_reread, hsound.typesBehind?_layout]
    · exact hsafe.items_eq_nil (hsound.emptyAt_statementStarts _ hstart).map_reread
  · trivial
  · obtain ⟨hfault, hraises⟩ := hsafe
    refine ⟨?_, ?_, ?_, hraises⟩ <;>
      · intro hcode
        rw [hcode] at hfault
        cases hfault
  · trivial

/-- A program with a function and a loop, on the standard natives. -/
theorem compiled_sound_standard :
    let console : Console String := ⟨fun text w => w ++ text, fun w => (0, w)⟩
    let registry := NativeSet.registry [NativeSet.standard (R := Float) console]
    let m : Machine Float String := (NativeSet.standard console).bindTo {}
    ∃ (script : Script) (p : Program Float) (m' : Machine Float String) (r : Registers Float),
      compile Float registry { ast := true, peephole := true }
        "10 A$=A$+\"X\": PRINT LEN(A$)\n20 IF LEN(A$) THEN 10" = .ok script ∧
      Program.read registry "10 A$=A$+\"X\": PRINT LEN(A$)\n20 IF LEN(A$) THEN 10" = .ok p ∧
      m.load script.text = .ok m' ∧ m'.start Script.entry = .ok r ∧
      ∀ fuel w, m.Sound (p.optimize { ast := true, peephole := true }).statementStarts
        (m'.advance fuel r w).1 := by
  intro console registry m
  have hcompiles : (compile Float registry { ast := true, peephole := true }
      "10 A$=A$+\"X\": PRINT LEN(A$)\n20 IF LEN(A$) THEN 10").isOk := by
    decide +kernel
  cases hcompile : compile Float registry { ast := true, peephole := true }
      "10 A$=A$+\"X\": PRINT LEN(A$)\n20 IF LEN(A$) THEN 10" with
  | error e =>
      rw [hcompile] at hcompiles
      cases hcompiles
  | ok script =>
      obtain ⟨p, m', r, h⟩ := compiled_sound hcompile m (NativeSet.honour_standard console {})
      exact ⟨script, p, m', r, rfl, h⟩

end LineBasic
