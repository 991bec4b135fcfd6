import Mathlib.Data.List.Nodup
import LineBasic.LinkedCode

namespace LineBasic

variable {R : Type}

namespace Instruction

def label? {T : Type} : Instruction R T → Option String
  | label name => some name
  | _ => none

/-- The number of addresses that an instruction takes in linked code. -/
def width {T : Type} (i : Instruction R T) : Nat :=
  if i.label?.isSome then 0 else 1

theorem resolve_isOk_iff {T U : Type} {f : T → Except Error U} {i : Instruction R T} :
    (∃ j, i.resolve f = .ok j) ↔ ∀ t, i.target? = some t → ∃ u, f t = .ok u := by
  cases i with
  | jump t | ifNot t | gosub t | next _ _ _ t =>
      simp only [resolve, target?, Option.some.injEq, forall_eq']
      cases f t <;> simp [bind, Except.bind, pure, Except.pure]
  | _ => simp [resolve, target?]

end Instruction

namespace LinkedCode

def labelsOf (code : List (Instruction R String)) : List String :=
  code.filterMap Instruction.label?

theorem labelsOf_cons_label {i : Instruction R String} {name : String} (h : i.label? = some name)
    (code : List (Instruction R String)) : labelsOf (i :: code) = name :: labelsOf code :=
  List.filterMap_cons_some h

theorem labelsOf_cons {i : Instruction R String} (h : i.label? = none)
    (code : List (Instruction R String)) : labelsOf (i :: code) = labelsOf code :=
  List.filterMap_cons_none h

/-- The number of addresses that a list of instructions takes. -/
def widthOf : List (Instruction R String) → Nat
  | [] => 0
  | i :: code => i.width + widthOf code

@[simp] theorem widthOf_append (code code' : List (Instruction R String)) :
    widthOf (code ++ code') = widthOf code + widthOf code' := by
  induction code with
  | nil => simp [widthOf]
  | cons i code ih => simp [widthOf, ih, Nat.add_assoc]

/-- An instruction of a labelled list stands in the code at an address: a label
stands there if it leads there. -/
def Holds (linked : LinkedCode R) (address : Nat) (i : Instruction R String) : Prop :=
  match i.label? with
  | some name => linked.labels[name]? = some address
  | none => ∃ j, i.resolve (find linked.labels) = .ok j ∧ linked.code[address]? = some j

/-- The instructions of a labelled list stand in the code from an address on. -/
def Placed (linked : LinkedCode R) (address : Nat) : List (Instruction R String) → Prop
  | [] => True
  | i :: code => linked.Holds address i ∧ Placed linked (address + i.width) code

theorem code_of_holds {linked : LinkedCode R} {address : Nat} {i : Instruction R String}
    {j : Instruction R Nat} (h : linked.Holds address i) (hi : i.label? = none)
    (hj : i.resolve (find linked.labels) = .ok j) : linked.code[address]? = some j := by
  rw [Holds, hi] at h
  obtain ⟨j', hj', hcode⟩ := h
  rw [hj] at hj'
  cases hj'
  exact hcode

section

variable {linked : LinkedCode R} {address target : Nat} {name : String}

theorem find_of_label (h : linked.labels[name]? = some address) :
    find linked.labels name = .ok address := by
  rw [find, h]

theorem jump_of_holds (h : linked.Holds address (.jump name))
    (htarget : linked.labels[name]? = some target) :
    linked.code[address]? = some (.jump target) :=
  code_of_holds h rfl (by rw [Instruction.resolve, find_of_label htarget]; rfl)

theorem ifNot_of_holds (h : linked.Holds address (.ifNot name))
    (htarget : linked.labels[name]? = some target) :
    linked.code[address]? = some (.ifNot target) :=
  code_of_holds h rfl (by rw [Instruction.resolve, find_of_label htarget]; rfl)

theorem gosub_of_holds (h : linked.Holds address (.gosub name))
    (htarget : linked.labels[name]? = some target) :
    linked.code[address]? = some (.gosub target) :=
  code_of_holds h rfl (by rw [Instruction.resolve, find_of_label htarget]; rfl)

theorem next_of_holds {var limit step : String}
    (h : linked.Holds address (.next var limit step name))
    (htarget : linked.labels[name]? = some target) :
    linked.code[address]? = some (.next var limit step target) :=
  code_of_holds h rfl (by rw [Instruction.resolve, find_of_label htarget]; rfl)

end

theorem placed_append {linked : LinkedCode R} {address : Nat}
    {code code' : List (Instruction R String)} :
    linked.Placed address (code ++ code') ↔
      linked.Placed address code ∧ linked.Placed (address + widthOf code) code' := by
  induction code generalizing address with
  | nil => simp [Placed, widthOf]
  | cons i code ih => simp [Placed, widthOf, ih, and_assoc, Nat.add_assoc]

theorem collectLabels_cons (address : Nat) (labels : Std.TreeMap String Nat)
    (i : Instruction R String) (code : List (Instruction R String)) :
    collectLabels address labels (i :: code) =
      match i.label? with
      | some name =>
          if labels.contains name then
            .error (ErrorCode.internalError.error ("DUPLICATE LABEL " ++ name))
          else collectLabels address (labels.insert name address) code
      | none => collectLabels (address + 1) labels code := by
  cases i <;> rfl

theorem getElem?_of_collectLabels {address : Nat} {labels labels' : Std.TreeMap String Nat}
    {code : List (Instruction R String)} (h : collectLabels address labels code = .ok labels')
    {name : String} {b : Nat} (hname : labels[name]? = some b) :
    labels'[name]? = some b := by
  induction code generalizing address labels with
  | nil =>
      cases h
      exact hname
  | cons i code ih =>
      rw [collectLabels_cons] at h
      split at h
      · rename_i new _
        split at h
        · cases h
        · rename_i hnew
          apply ih h
          rw [Std.TreeMap.getElem?_insert]
          split
          · rename_i heq
            rw [Std.LawfulEqCmp.compare_eq_iff_eq] at heq
            subst heq
            rw [Std.TreeMap.contains_eq_isSome_getElem?, hname] at hnew
            exact absurd rfl hnew
          · exact hname
      · exact ih h hname

theorem collectLabels_isOk_iff (address : Nat) (labels : Std.TreeMap String Nat)
    (code : List (Instruction R String)) :
    (∃ labels', collectLabels address labels code = .ok labels') ↔
      (labelsOf code).Nodup ∧ ∀ name ∈ labelsOf code, name ∉ labels := by
  induction code generalizing address labels with
  | nil => simp [collectLabels, labelsOf]
  | cons i code ih =>
      rw [collectLabels_cons]
      cases hi : i.label? with
      | none =>
          rw [labelsOf_cons hi]
          exact ih _ _
      | some name =>
          rw [labelsOf_cons_label hi]
          dsimp only
          by_cases hname : name ∈ labels
          · rw [if_pos (Std.TreeMap.mem_iff_contains.mp hname)]
            simp [hname]
          · rw [if_neg (fun h => hname (Std.TreeMap.mem_iff_contains.mpr h)), ih]
            simp only [List.nodup_cons, List.mem_cons, forall_eq_or_imp,
              Std.TreeMap.mem_insert, Std.LawfulEqCmp.compare_eq_iff_eq, not_or]
            constructor
            · rintro ⟨hnodup, hnew⟩
              exact ⟨⟨fun hmem => (hnew name hmem).1 rfl, hnodup⟩, hname,
                fun other hother => (hnew other hother).2⟩
            · rintro ⟨⟨hfresh, hnodup⟩, -, hnew⟩
              refine ⟨hnodup, fun other hother => ⟨?_, hnew other hother⟩⟩
              rintro rfl
              exact hfresh hother

theorem mem_of_collectLabels {address : Nat} {labels labels' : Std.TreeMap String Nat}
    {code : List (Instruction R String)} (h : collectLabels address labels code = .ok labels')
    {name : String} : name ∈ labels' ↔ name ∈ labels ∨ name ∈ labelsOf code := by
  induction code generalizing address labels with
  | nil =>
      cases h
      simp [labelsOf]
  | cons i code ih =>
      rw [collectLabels_cons] at h
      cases hi : i.label? with
      | none =>
          rw [hi] at h
          rw [ih h, labelsOf_cons hi]
      | some new =>
          rw [hi] at h
          dsimp only at h
          split at h
          · cases h
          · rw [ih h, labelsOf_cons_label hi, Std.TreeMap.mem_insert,
              Std.LawfulEqCmp.compare_eq_iff_eq, List.mem_cons]
            tauto

theorem resolveFrom_cons (labels : Std.TreeMap String Nat) (done : Array (Instruction R Nat))
    (i : Instruction R String) (code : List (Instruction R String)) :
    resolveFrom labels done (i :: code) =
      if i.label?.isSome then resolveFrom labels done code
      else
        match i.resolve (find labels) with
        | .ok j => resolveFrom labels (done.push j) code
        | .error e => .error e := by
  cases i <;> rfl

theorem find_isOk_iff {labels : Std.TreeMap String Nat} {name : String} :
    (∃ address, find labels name = .ok address) ↔ name ∈ labels := by
  rw [Std.TreeMap.mem_iff_isSome_getElem?, find]
  cases labels[name]? <;> simp

theorem resolveFrom_isOk_iff {labels : Std.TreeMap String Nat}
    (done : Array (Instruction R Nat)) {code : List (Instruction R String)} :
    (∃ done', resolveFrom labels done code = .ok done') ↔
      ∀ i ∈ code, ∀ name, i.target? = some name → name ∈ labels := by
  induction code generalizing done with
  | nil => simp [resolveFrom]
  | cons i code ih =>
      rw [resolveFrom_cons, List.forall_mem_cons]
      split
      · rename_i hlabel
        rw [ih]
        refine (and_iff_right ?_).symm
        cases i <;> simp_all [Instruction.label?, Instruction.target?]
      · have hresolve := Instruction.resolve_isOk_iff (f := find labels) (i := i)
        simp only [find_isOk_iff] at hresolve
        rw [← hresolve]
        split
        · rename_i j hj
          rw [ih, hj]
          exact (and_iff_right ⟨j, rfl⟩).symm
        · rename_i e he
          rw [he]
          simp

theorem getElem?_of_resolveFrom {labels : Std.TreeMap String Nat}
    {done done' : Array (Instruction R Nat)} {code : List (Instruction R String)}
    (h : resolveFrom labels done code = .ok done') {a : Nat} (ha : a < done.size) :
    done'[a]? = done[a]? := by
  induction code generalizing done with
  | nil =>
      cases h
      rfl
  | cons i code ih =>
      rw [resolveFrom_cons] at h
      split at h
      · exact ih h ha
      · split at h
        · rw [ih h (by simp; omega), Array.getElem?_push_lt ha,
            Array.getElem?_eq_getElem ha]
        · cases h

/-- A list links if and only if its labels are distinct and its branches name
labels of it. -/
theorem link_isOk_iff {code : List (Instruction R String)} :
    (∃ linked, link code = .ok linked) ↔
      (labelsOf code).Nodup ∧
        ∀ i ∈ code, ∀ name, i.target? = some name → name ∈ labelsOf code := by
  have hcollect := collectLabels_isOk_iff 0 ∅ code
  simp only [Std.TreeMap.not_mem_emptyc, not_false_eq_true, implies_true, and_true]
    at hcollect
  rw [← hcollect, link]
  cases hlabels : collectLabels 0 ∅ code with
  | error e => simp [bind, Except.bind]
  | ok labels =>
      have hmem : ∀ name, name ∈ labels ↔ name ∈ labelsOf code := fun name => by
        rw [mem_of_collectLabels hlabels]
        simp
      simp only [← hmem]
      rw [← resolveFrom_isOk_iff #[]]
      cases hcode : resolveFrom labels #[] code <;>
        simp [hcode, bind, Except.bind, pure, Except.pure]

private theorem placed_of_resolveFrom {linked : LinkedCode R}
    {done : Array (Instruction R Nat)} {code : List (Instruction R String)}
    {address : Nat} {labels : Std.TreeMap String Nat}
    (hlabels : collectLabels address labels code = .ok linked.labels)
    (hcode : resolveFrom linked.labels done code = .ok linked.code)
    (hsize : done.size = address) : linked.Placed address code := by
  induction code generalizing address labels done with
  | nil => trivial
  | cons i code ih =>
      rw [collectLabels_cons] at hlabels
      rw [resolveFrom_cons] at hcode
      rw [Placed, Holds, Instruction.width]
      cases hi : i.label? with
      | some name =>
          rw [hi] at hlabels hcode
          dsimp only at hlabels
          split at hlabels
          · cases hlabels
          · exact ⟨getElem?_of_collectLabels hlabels Std.TreeMap.getElem?_insert_self,
              ih hlabels hcode hsize⟩
      | none =>
          rw [hi] at hlabels hcode
          simp only [Option.isSome_none, Bool.false_eq_true, if_false] at hcode
          cases hj : i.resolve (find linked.labels) with
          | error e =>
              rw [hj] at hcode
              cases hcode
          | ok j =>
              rw [hj] at hcode
              refine ⟨⟨j, rfl, ?_⟩, ih hlabels hcode (by simp [hsize])⟩
              rw [getElem?_of_resolveFrom hcode (by simp [hsize]), ← hsize]
              exact Array.getElem?_push_size

/-- The labels are collected from the whole list, and then the branches are resolved. -/
theorem stages_of_link {code : List (Instruction R String)} {linked : LinkedCode R}
    (h : link code = .ok linked) :
    collectLabels 0 ∅ code = .ok linked.labels ∧
      resolveFrom linked.labels #[] code = .ok linked.code := by
  rw [link] at h
  cases hlabels : collectLabels 0 ∅ code with
  | error e =>
      rw [hlabels] at h
      cases h
  | ok labels =>
      rw [hlabels] at h
      cases hcode : resolveFrom labels #[] code with
      | error e =>
          simp [hcode, bind, Except.bind] at h
      | ok resolved =>
          simp only [hcode, bind, Except.bind, pure, Except.pure, Except.ok.injEq] at h
          subst h
          exact ⟨rfl, hcode⟩

/-- All of a list that links stands in the linked code from address 0 on. -/
theorem placed_of_link {code : List (Instruction R String)} {linked : LinkedCode R}
    (h : link code = .ok linked) : linked.Placed 0 code := by
  obtain ⟨hlabels, hcode⟩ := stages_of_link h
  exact placed_of_resolveFrom hlabels hcode rfl

end LinkedCode

end LineBasic
