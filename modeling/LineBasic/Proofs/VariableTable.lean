import LineBasic.Proofs.FailingLines
import LineBasic.Proofs.LabelPlaces
import LineBasic.Proofs.Soundness
import LineBasic.Proofs.Writes

namespace LineBasic

variable {R W : Type}

/-- Every variable that has a value has one of the type that its name asks for. -/
def Registers.KeepsTypes (r : Registers R) : Prop :=
  ∀ (name : String) (v : Value R), r.memory[name]? = some v → v.type = .ofName name

namespace LinkedCode

/-- Every NEXT of the code counts in a variable of numbers. -/
def CountsNumbers (linked : LinkedCode R) : Prop :=
  ∀ (address : Nat) (var limit step : String) (body : Nat),
    linked.code[address]? = some (.next var limit step body) → namesString var = false

theorem namesString_of_mem_next {registry : Registry} {types : List ValueType}
    {code : List (Instruction R String)} (h : typesBehind? registry types code ≠ none)
    {var limit step name : String} (hmem : .next var limit step name ∈ code) :
    namesString var = false := by
  induction code generalizing types with
  | nil => cases hmem
  | cons i code ih =>
      rw [typesBehind?] at h
      cases htypes : i.types? registry types with
      | none =>
          rw [htypes] at h
          exact absurd rfl h
      | some types' =>
          rw [htypes, Option.bind_some] at h
          rcases List.mem_cons.mp hmem with rfl | hmem
          · exact (Option.ite_none_right_eq_some.mp htypes).1.2.1
          · exact ih h hmem

theorem countsNumbers_of_link {registry : Registry} {code : List (Instruction R String)}
    {linked : LinkedCode R} (hlink : link code = .ok linked)
    (htyped : typesBehind? registry [] code ≠ none) : linked.CountsNumbers := by
  intro address var limit step body hnext
  obtain ⟨i, hi, place, hretarget⟩ := exists_mem_of_link hlink hnext
  cases i with
  | next var' limit' step' name =>
      cases hretarget
      exact namesString_of_mem_next htyped hi
  | _ => cases hretarget

end LinkedCode

variable [NumberSystem R]

theorem countsNumbers_of_compile {registry : Registry} {flags : Flags} {source : String}
    {script : Script} (hcompile : compile R registry flags source = .ok script)
    {m m' : Machine R W} (hload : m.load script.text = .ok m') : m'.linked.CountsNumbers := by
  obtain ⟨p, hread, hpair, hroom, hemit⟩ := exists_of_compile hcompile
  have hsound := (Program.sound_of_read hread).optimize hpair
  obtain ⟨linked, hlink, hloads⟩ := load_of_emit (W := W) hsound hroom hemit
  obtain rfl := Except.ok.inj (hload.symm.trans (hloads m))
  refine LinkedCode.countsNumbers_of_link hlink (?_ : typesBehind? registry _ _ ≠ none)
  rw [typesBehind?_map_reread, hsound.typesBehind?_layout]
  exact Option.some_ne_none _

namespace Machine

variable {m : Machine R W} {r : Registers R} {w : W}

/-- In this step a NEXT counts in a variable of strings that has no value yet. -/
def CountsString (m : Machine R W) (r : Registers R) (w : W) : Prop :=
  ∃ (var limit step : String) (body : Nat) (w' : W) (l s : R),
    m.Executes (.next var limit step body) r w w' ∧ namesString var = true ∧
      r.memory[var]? = none ∧ r.readNumber limit = .ok l ∧ r.readNumber step = .ok s

theorem number_of_sets {name : String} {v : Value R} (h : m.Sets r w name v)
    (hname : namesString name = false) : v.type = .number := by
  obtain ⟨i, w', -, hassigns⟩ := h
  cases hassigns with
  | pop hv htype =>
      rw [htype, ValueType.ofName, hname]
      rfl
  | next => rfl

/-- NEXT finds a number in a variable of strings only if that has no value. -/
theorem type_of_sets {name : String} {v : Value R} (hr : r.KeepsTypes) (h : m.Sets r w name v)
    (hcounts : ¬m.CountsString r w) : v.type = .ofName name := by
  obtain ⟨i, w', hi, hassigns⟩ := h
  cases hassigns with
  | pop hv htype => exact htype
  | @next var limit step body l s n hlimit hstep hvar =>
      rw [ValueType.ofName]
      cases hname : namesString name with
      | false => rfl
      | true =>
          cases hvalue : r.memory[name]? with
          | none => exact absurd ⟨_, _, _, _, _, _, _, hi, hname, hvalue, hlimit, hstep⟩ hcounts
          | some v =>
              have htype := hr name v hvalue
              rw [ValueType.ofName, hname] at htype
              rw [Registers.readNumber, hvalue] at hvar
              cases v with
              | number n => cases htype
              | string s => cases hvar

/-- What NEXT makes of an unassigned variable of strings is a number. -/
theorem not_keepsTypes_step (hcounts : m.CountsString r w) :
    ¬(m.step r w).1.registers.KeepsTypes := by
  obtain ⟨var, limit, step, body, w', l, s, hi, hname, hnone, hlimit, hstep⟩ := hcounts
  have hvar : r.readNumber var = .ok NumberSystem.zero := by rw [Registers.readNumber, hnone]
  intro hkeeps
  have htype := hkeeps var _ (memory_of_executes_next hi hlimit hstep hvar)
  rw [ValueType.ofName, hname] at htype
  cases htype

theorem not_countsString (h : m.linked.CountsNumbers) : ¬m.CountsString r w := by
  rintro ⟨var, limit, step, body, w', l, s, ⟨hi, -⟩, hname, -⟩
  rw [h r.address var limit step body hi] at hname
  cases hname

end Machine

/-- Let a machine run a script from one of its labels. The variables without a dollar sign always hold numbers. Those with one
always hold strings if and only if no NEXT ever counts in one of them that has no value yet. That cannot happen if every NEXT
counts in a variable without a dollar sign, as in every compiled program. -/
theorem variables_keep_types_iff {script : String} {m₀ m : Machine R W}
    (hload : m₀.load script = .ok m) {entry : String} {start : Registers R}
    (hstart : m.start entry = .ok start) (w : W) :
    (∀ (fuel : Nat) (name : String) (v : Value R),
      (m.advance fuel start w).1.registers.memory[name]? = some v → namesString name = false →
        v.type = .number) ∧
    ((∀ fuel, (m.advance fuel start w).1.registers.KeepsTypes) ↔
      ∀ r w', m.Visits start w r w' → ¬m.CountsString r w') ∧
    ((m.linked.CountsNumbers ∨ ∃ registry flags source compiled,
        compile R registry flags source = .ok compiled ∧ compiled.text = script) →
      ∀ fuel, (m.advance fuel start w).1.registers.KeepsTypes) := by
  have hkeeps (h : ∀ r w', m.Visits start w r w' → ¬m.CountsString r w') (fuel : Nat) :
      (m.advance fuel start w).1.registers.KeepsTypes :=
    Machine.memory_of_advance hstart (fun r w' hvisits hr name v hsets =>
      Machine.type_of_sets hr hsets (h r w' hvisits)) fuel
  refine ⟨?_, ⟨fun h r w' hvisits hcounts => ?_, hkeeps⟩, fun h => ?_⟩
  · exact Machine.memory_of_advance hstart fun r w' _ _ name v hsets => Machine.number_of_sets hsets
  · exact Machine.not_keepsTypes_step hcounts (Machine.holds_step h hvisits)
  · have hnumbers : m.linked.CountsNumbers := by
      rcases h with h | ⟨registry, flags, source, compiled, hcompile, rfl⟩
      · exact h
      · exact countsNumbers_of_compile hcompile hload
    exact hkeeps fun r w' _ => Machine.not_countsString hnumbers

/-- A NEXT of strings makes a number of its variable. -/
theorem not_keepsTypes_counting :
    ∃ (m : Machine Float Unit) (start : Registers Float),
      ({} : Machine Float Unit).load "MAIN:\n LIT 1\n POP S\nB:\n NEXT A$ L S B\n" = .ok m ∧
      m.start Script.entry = .ok start ∧
      ¬(m.advance 3 start ()).1.registers.KeepsTypes := by
  have hrun : (({} : Machine Float Unit).valueAfter?
      "MAIN:\n LIT 1\n POP S\nB:\n NEXT A$ L S B\n" 3 () "A$").map Value.type = some .number := by
    decide +kernel
  obtain ⟨v, hvalue, htype⟩ := Option.map_eq_some_iff.mp hrun
  obtain ⟨m, start, hload, hstart, hmemory⟩ := Machine.exists_of_valueAfter? hvalue
  refine ⟨m, start, hload, hstart, fun hkeeps => ?_⟩
  rw [hkeeps "A$" v hmemory] at htype
  exact absurd htype (by decide)

/-- A compiled loop that adds to a string. -/
theorem variables_keep_types_loop :
    ∃ (compiled : Script) (m : Machine Float Unit) (start : Registers Float),
      compile Float .empty {} "10 FOR I=1 TO 3: A$=A$+\"X\": NEXT I" = .ok compiled ∧
      ({} : Machine Float Unit).load compiled.text = .ok m ∧ m.start Script.entry = .ok start ∧
      ∀ fuel, (m.advance fuel start ()).1.registers.KeepsTypes := by
  have hruns : (BareRun.of? "10 FOR I=1 TO 3: A$=A$+\"X\": NEXT I").isSome := by
    decide +kernel
  obtain ⟨run, hrun⟩ := Option.isSome_iff_exists.mp hruns
  obtain ⟨-, compiled, hcompile, hload, hstart⟩ := BareRun.of?_eq_some hrun
  exact ⟨compiled, run.machine, run.start, hcompile, hload, hstart,
    (variables_keep_types_iff hload hstart ()).2.2 (.inr ⟨_, _, _, compiled, hcompile, rfl⟩)⟩

end LineBasic
