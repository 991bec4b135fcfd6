import LineBasic.Proofs.Loading
import LineBasic.Proofs.StackTypes

namespace LineBasic

variable {R : Type} {registry : Registry}

namespace Instruction

theorem label?_eq_none_iff {i : Instruction R String} : i.label? = none ↔ i.width = 1 := by
  cases i <;> simp [label?, width]

theorem label?_eq_some_iff {i : Instruction R String} {name : String} :
    i.label? = some name ↔ i = .label name := by
  cases i <;> simp [label?]

@[simp] theorem width_reread [NumberSystem R] (i : Instruction R String) :
    i.reread.width = i.width := by
  rw [width, width, label?_reread]

@[simp] theorem types?_reread [NumberSystem R] (i : Instruction R String)
    (types : List ValueType) : i.reread.types? registry types = i.types? registry types := by
  cases i with
  | literal v => cases v <;> rfl
  | _ => rfl

theorem types?_label {name : String} {types types' : List ValueType}
    (h : (label name : Instruction R String).types? registry types = some types') :
    types = [] ∧ types' = [] := by
  obtain ⟨htypes, heq⟩ := Option.ite_none_right_eq_some.mp h
  exact ⟨htypes, (Option.some.inj heq).symm⟩

end Instruction

section

variable [NumberSystem R]

theorem typesBehind?_map_reread (code : List (Instruction R String)) (types : List ValueType) :
    typesBehind? registry types (code.map Instruction.reread) =
      typesBehind? registry types code := by
  induction code generalizing types with
  | nil => rfl
  | cons i code ih => simp only [List.map_cons, typesBehind?, Instruction.types?_reread, ih]

theorem LinkedCode.widthOf_map_reread (code : List (Instruction R String)) :
    widthOf (code.map Instruction.reread) = widthOf code := by
  induction code with
  | nil => rfl
  | cons i code ih => simp only [List.map_cons, widthOf, Instruction.width_reread, ih]

theorem EmptyAt.map_reread {code : List (Instruction R String)} {address : Nat}
    (h : EmptyAt registry code address) :
    EmptyAt registry (code.map Instruction.reread) address := by
  obtain ⟨front, back, rfl, hwidth, htypes⟩ := h
  refine ⟨front.map Instruction.reread, back.map Instruction.reread, List.map_append, ?_, ?_⟩
  · rw [LinkedCode.widthOf_map_reread, hwidth]
  · rw [typesBehind?_map_reread, htypes]

end

/-- Some code up to a place in it, and the types on the stack there. -/
structure PlaceIn (registry : Registry) (code : List (Instruction R String)) (address : Nat)
    (types : List ValueType) (front back : List (Instruction R String)) : Prop where
  split_eq : code = front ++ back
  width_eq : LinkedCode.widthOf front = address
  types_eq : typesBehind? registry [] front = some types

/-- The types on the stack in some code at an address. -/
def TypesAt (registry : Registry) (code : List (Instruction R String)) (address : Nat)
    (types : List ValueType) : Prop :=
  ∃ front back, PlaceIn registry code address types front back

variable {code : List (Instruction R String)} {address : Nat} {types types' : List ValueType}

theorem typesAt_nil_iff : TypesAt registry code address [] ↔ EmptyAt registry code address := by
  constructor
  · rintro ⟨front, back, hsplit, hwidth, htypes⟩
    exact ⟨front, back, hsplit, hwidth, htypes⟩
  · rintro ⟨front, back, hsplit, hwidth, htypes⟩
    exact ⟨front, back, hsplit, hwidth, htypes⟩

theorem eq_of_widthOf_eq_zero {between : List (Instruction R String)}
    (hwidth : LinkedCode.widthOf between = 0)
    (h : typesBehind? registry types between = some types') : types' = types := by
  induction between generalizing types with
  | nil => exact (Option.some.inj h).symm
  | cons i between ih =>
      rw [LinkedCode.widthOf] at hwidth
      obtain ⟨middle, hi, hrest⟩ := Option.bind_eq_some_iff.mp h
      have hlabel : i.label? ≠ none := fun hnone => by
        rw [Instruction.label?_eq_none_iff] at hnone
        omega
      obtain ⟨name, hname⟩ := Option.ne_none_iff_exists'.mp hlabel
      rw [Instruction.label?_eq_some_iff] at hname
      subst hname
      obtain ⟨rfl, rfl⟩ := Instruction.types?_label hi
      exact ih (by omega) hrest

private theorem types_eq_of_append {front between : List (Instruction R String)}
    (hwidth : LinkedCode.widthOf (front ++ between) = LinkedCode.widthOf front)
    (h : typesBehind? registry [] front = some types)
    (h' : typesBehind? registry [] (front ++ between) = some types') : types' = types := by
  rw [LinkedCode.widthOf_append] at hwidth
  rw [typesBehind?_append, h, Option.bind_some] at h'
  exact eq_of_widthOf_eq_zero (by omega) h'

/-- The types on the stack depend on the address alone. -/
theorem TypesAt.unique (h : TypesAt registry code address types)
    (h' : TypesAt registry code address types') : types' = types := by
  obtain ⟨front, back, rfl, hwidth, htypes⟩ := h
  obtain ⟨front', back', hsplit, hwidth', htypes'⟩ := h'
  rcases List.append_eq_append_iff.mp hsplit with ⟨between, rfl, -⟩ | ⟨between, rfl, -⟩
  · exact types_eq_of_append (hwidth'.trans hwidth.symm) htypes htypes'
  · exact (types_eq_of_append (hwidth.trans hwidth'.symm) htypes' htypes).symm

/-- An instruction that takes an address, at that address in some code. -/
structure StandsIn (registry : Registry) (code : List (Instruction R String)) (address : Nat)
    (types : List ValueType) (i : Instruction R String)
    (front back : List (Instruction R String)) : Prop where
  place : PlaceIn registry code address types front (i :: back)
  width_eq : i.width = 1

theorem exists_standsIn {front back : List (Instruction R String)}
    (htyped : typesBehind? registry [] code ≠ none)
    (h : PlaceIn registry code address types front back)
    (hbound : address < LinkedCode.widthOf code) :
    ∃ i front back, StandsIn registry code address types i front back := by
  induction back generalizing front with
  | nil =>
      rw [h.split_eq, List.append_nil, h.width_eq] at hbound
      exact absurd hbound (Nat.lt_irrefl _)
  | cons i back ih =>
      cases hlabel : i.label? with
      | none => exact ⟨i, front, back, h, Instruction.label?_eq_none_iff.mp hlabel⟩
      | some name =>
          rw [Instruction.label?_eq_some_iff] at hlabel
          subst hlabel
          have hcode := htyped
          rw [h.split_eq, typesBehind?_append, h.types_eq, Option.bind_some, typesBehind?] at hcode
          obtain ⟨types', htypes'⟩ := Option.ne_none_iff_exists'.mp hcode
          obtain ⟨middle, hmiddle, -⟩ := Option.bind_eq_some_iff.mp htypes'
          obtain ⟨rfl, rfl⟩ := Instruction.types?_label hmiddle
          have hnext : PlaceIn registry code address [] (front ++ [.label name]) back := by
            refine ⟨?_, ?_, typesBehind?_of_append h.types_eq rfl⟩
            · rw [h.split_eq, List.append_assoc]
              rfl
            · rw [LinkedCode.widthOf_append, h.width_eq]
              rfl
          exact ih hnext

namespace StandsIn

variable {i : Instruction R String} {front back : List (Instruction R String)}

/-- No more is on the stack than instructions were executed. -/
theorem length_lt (h : StandsIn registry code address types i front back) :
    types.length < code.length := by
  have hle := length_typesBehind?_le h.place.types_eq
  rw [h.place.split_eq, List.length_append, List.length_cons]
  rw [List.length_nil] at hle
  omega

theorem exists_types? (htyped : typesBehind? registry [] code ≠ none)
    (h : StandsIn registry code address types i front back) :
    ∃ types', i.types? registry types = some types' := by
  rw [h.place.split_eq, typesBehind?_append, h.place.types_eq, Option.bind_some, typesBehind?]
    at htyped
  obtain ⟨last, hlast⟩ := Option.ne_none_iff_exists'.mp htyped
  obtain ⟨types', htypes', -⟩ := Option.bind_eq_some_iff.mp hlast
  exact ⟨types', htypes'⟩

theorem typesAt_next (h : StandsIn registry code address types i front back)
    (htypes : i.types? registry types = some types') :
    TypesAt registry code (address + 1) types' := by
  refine ⟨front ++ [i], back, ?_, ?_, ?_⟩
  · rw [h.place.split_eq, List.append_assoc]
    rfl
  · rw [LinkedCode.widthOf_append, h.place.width_eq, LinkedCode.widthOf, LinkedCode.widthOf,
      h.width_eq]
  · exact typesBehind?_of_append h.place.types_eq ((typesBehind?_singleton _ _).trans htypes)

/-- The code that was linked has the instruction at its address. -/
theorem code_eq {linked : LinkedCode R} (hplaced : linked.Placed 0 code)
    (h : StandsIn registry code address types i front back) :
    ∃ j, i.resolve (LinkedCode.find linked.labels) = .ok j ∧
      linked.code[address]? = some j := by
  rw [h.place.split_eq, LinkedCode.placed_append, h.place.width_eq, Nat.zero_add] at hplaced
  have hholds := hplaced.2.1
  rwa [LinkedCode.Holds, Instruction.label?_eq_none_iff.mpr h.width_eq] at hholds

end StandsIn

namespace LinkedCode

variable {linked : LinkedCode R}

private theorem size_of_resolveFrom {labels : Std.TreeMap String Nat}
    {done done' : Array (Instruction R Nat)} (h : resolveFrom labels done code = .ok done') :
    done'.size = done.size + widthOf code := by
  induction code generalizing done with
  | nil =>
      cases h
      rfl
  | cons i code ih =>
      rw [resolveFrom_cons] at h
      rw [widthOf, Instruction.width]
      split at h
      · rename_i hlabel
        rw [if_pos hlabel, ih h, Nat.zero_add]
      · rename_i hlabel
        rw [if_neg hlabel]
        split at h
        · rw [ih h, Array.size_push, Nat.add_assoc]
        · cases h

theorem size_of_link (h : link code = .ok linked) : linked.code.size = widthOf code := by
  exact (size_of_resolveFrom (stages_of_link h).2).trans (Nat.zero_add _)

theorem mem_labelsOf_of_link (h : link code = .ok linked) {name : String} {target : Nat}
    (hname : linked.labels[name]? = some target) : name ∈ labelsOf code := by
  have hlabels := (stages_of_link h).1
  have hmem : name ∈ linked.labels := Std.TreeMap.mem_iff_isSome_getElem?.mpr (by rw [hname]; rfl)
  exact ((mem_of_collectLabels hlabels).mp hmem).resolve_left Std.TreeMap.not_mem_emptyc

/-- Nothing is on the stack where a label leads to. -/
theorem emptyAt_of_label (htyped : typesBehind? registry [] code ≠ none)
    (hlink : link code = .ok linked) {name : String} {target : Nat}
    (hname : linked.labels[name]? = some target) : EmptyAt registry code target := by
  obtain ⟨label, hmem, hlabel⟩ := List.mem_filterMap.mp (mem_labelsOf_of_link hlink hname)
  obtain rfl := Instruction.label?_eq_some_iff.mp hlabel
  obtain ⟨front, back, rfl⟩ := List.append_of_mem hmem
  have hholds : linked.labels[name]? = some (0 + widthOf front) :=
    (placed_append.mp (placed_of_link hlink)).2.1
  rw [hname, Nat.zero_add] at hholds
  rw [typesBehind?_append] at htyped
  obtain ⟨last, hlast⟩ := Option.ne_none_iff_exists'.mp htyped
  obtain ⟨types, hfront, hrest⟩ := Option.bind_eq_some_iff.mp hlast
  obtain ⟨types', htypes', -⟩ := Option.bind_eq_some_iff.mp hrest
  obtain ⟨rfl, -⟩ := Instruction.types?_label htypes'
  exact ⟨front, _, rfl, (Option.some.inj hholds).symm, hfront⟩

theorem label_of_find {labels : Std.TreeMap String Nat} {name : String} {target : Nat}
    (h : find labels name = .ok target) : labels[name]? = some target := by
  unfold find at h
  split at h
  · rename_i heq
    cases h
    exact heq
  · cases h

end LinkedCode

end LineBasic
