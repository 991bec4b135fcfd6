import LineBasic.Proofs.Excerpts
import LineBasic.Proofs.Linking

namespace LineBasic

variable {R : Type}

namespace Instruction

variable {T U : Type}

theorem eq_retarget_of_resolve {f : T → Except Error U} {place : T → U} {i : Instruction R T}
    {j : Instruction R U} (hplace : ∀ t u, f t = .ok u → u = place t) (h : i.resolve f = .ok j) :
    j = i.retarget place := by
  cases i with
  | jump t | ifNot t | gosub t | next _ _ _ t =>
      rw [resolve] at h
      cases hu : f t with
      | error e =>
          rw [hu] at h
          cases h
      | ok u =>
          rw [hu] at h
          cases h
          rw [hplace t u hu]
          rfl
  | _ =>
      cases h
      rfl

end Instruction

namespace LinkedCode

def unlabelled (code : List (Instruction R String)) : List (Instruction R String) :=
  code.filter fun i => i.label?.isNone

/-- The number of instructions that stand in front of a label, other labels not counted. -/
def placeOf (code : List (Instruction R String)) (name : String) : Nat :=
  (unlabelled (code.takeWhile fun i => i.label? != some name)).length

variable {code : List (Instruction R String)} {i : Instruction R String} {name : String}

theorem unlabelled_cons_label (h : i.label? = some name) : unlabelled (i :: code) = unlabelled code :=
  List.filter_cons_of_neg (by simp [h])

theorem unlabelled_cons (h : i.label? = none) : unlabelled (i :: code) = i :: unlabelled code :=
  List.filter_cons_of_pos (by simp [h])

theorem placeOf_le (code : List (Instruction R String)) (name : String) :
    placeOf code name ≤ (unlabelled code).length :=
  ((List.takeWhile_sublist _).filter _).length_le

theorem placeOf_cons_self (h : i.label? = some name) : placeOf (i :: code) name = 0 := by
  rw [placeOf, List.takeWhile_cons_of_neg (by simp [h])]
  rfl

theorem placeOf_cons_of_ne (h : i.label? ≠ some name) :
    placeOf (i :: code) name = i.width + placeOf code name := by
  rw [placeOf, List.takeWhile_cons_of_pos (by simpa using h), Instruction.width, placeOf]
  cases hi : i.label? with
  | none => rw [unlabelled_cons hi, List.length_cons, Nat.add_comm]; rfl
  | some other => rw [unlabelled_cons_label hi]; exact (Nat.zero_add _).symm

theorem getElem?_collectLabels {address : Nat} {labels labels' : Std.TreeMap String Nat}
    (h : collectLabels address labels code = .ok labels') (name : String) :
    labels'[name]? =
      if name ∈ labelsOf code then some (address + placeOf code name) else labels[name]? := by
  induction code generalizing address labels with
  | nil =>
      cases h
      rfl
  | cons i code ih =>
      rw [collectLabels_cons] at h
      cases hi : i.label? with
      | none =>
          rw [hi] at h
          rw [ih h, labelsOf_cons hi, placeOf_cons_of_ne (by simp [hi]), Instruction.width, hi,
            Nat.add_assoc]
          rfl
      | some new =>
          rw [hi] at h
          dsimp only at h
          split at h
          · cases h
          · -- A label that was added does not occur again, so its address stands.
            have hfresh := ((collectLabels_isOk_iff _ _ _).mp ⟨labels', h⟩).2
            rw [ih h, labelsOf_cons_label hi]
            by_cases hname : new = name
            · subst hname
              have hlast : new ∉ labelsOf code := fun hmem => hfresh new hmem (by simp)
              rw [if_neg hlast, if_pos List.mem_cons_self, placeOf_cons_self hi,
                Std.TreeMap.getElem?_insert_self]
              rfl
            · have hne : i.label? ≠ some name := by simpa [hi] using hname
              have hother : (labels.insert new address)[name]? = labels[name]? := by
                rw [Std.TreeMap.getElem?_insert, if_neg]
                simpa using hname
              rw [hother, placeOf_cons_of_ne hne, Instruction.width, hi]
              simp [Ne.symm hname]

theorem toList_resolveFrom {labels : Std.TreeMap String Nat} {done done' : Array (Instruction R Nat)}
    {place : String → Nat} (hplace : ∀ name a, labels[name]? = some a → a = place name)
    (h : resolveFrom labels done code = .ok done') :
    done'.toList = done.toList ++ (unlabelled code).map (Instruction.retarget place) := by
  have hfind : ∀ name a, find labels name = .ok a → a = place name := by
    intro name a ha
    rw [find] at ha
    split at ha
    · rename_i hlabel
      cases ha
      exact hplace name a hlabel
    · cases ha
  induction code generalizing done with
  | nil =>
      cases h
      exact (List.append_nil _).symm
  | cons i code ih =>
      rw [resolveFrom_cons] at h
      cases hi : i.label? with
      | some name =>
          rw [hi] at h
          rw [unlabelled_cons_label hi]
          exact ih h
      | none =>
          rw [hi, Option.isSome_none, if_neg Bool.false_ne_true] at h
          split at h
          · rename_i j hj
            rw [ih h, Instruction.eq_retarget_of_resolve hfind hj, unlabelled_cons hi,
              Array.toList_push, List.map_cons, List.append_assoc, List.singleton_append]
          · cases h

/-- An instruction of linked code stands in the list that was linked, with a label in the place of its address. -/
theorem exists_mem_of_link {linked : LinkedCode R} (h : link code = .ok linked) {address : Nat}
    {j : Instruction R Nat} (hj : linked.code[address]? = some j) :
    ∃ i ∈ code, ∃ place : String → Nat, i.retarget place = j := by
  have hplace (name : String) (a : Nat) (ha : linked.labels[name]? = some a) :
      a = (linked.labels[name]?).getD 0 := by
    rw [ha]
    rfl
  have hlist := toList_resolveFrom hplace (stages_of_link h).2
  rw [List.nil_append] at hlist
  have hmem : j ∈ linked.code.toList := Array.mem_toList_iff.mpr (Array.mem_of_getElem? hj)
  rw [hlist] at hmem
  obtain ⟨i, hi, hretarget⟩ := List.mem_map.mp hmem
  exact ⟨i, (List.mem_filter.mp hi).1, _, hretarget⟩

end LinkedCode

open LinkedCode

/-- A list of instructions links if and only if no label occurs twice in it and every branch names a label of it. Then the code
is the list without its labels, in the same order, with the place of its label in each branch; the labels that are known are those of
the list, each with its place, and none of them leads further than to the end of the code. -/
theorem link_resolves (code : List (Instruction R String)) :
    ((∃ linked, link code = .ok linked) ↔
      (labelsOf code).Nodup ∧ ∀ i ∈ code, ∀ name, i.target? = some name → name ∈ labelsOf code) ∧
    ∀ linked : LinkedCode R, link code = .ok linked →
      linked.code.toList = (unlabelled code).map (Instruction.retarget (placeOf code)) ∧
      (∀ name, linked.labels[name]? =
        if name ∈ labelsOf code then some (placeOf code name) else none) ∧
      ∀ (name : String) (address : Nat), linked.labels[name]? = some address →
        address ≤ linked.code.size := by
  refine ⟨link_isOk_iff, fun linked h => ?_⟩
  obtain ⟨hlabels, hcode⟩ := stages_of_link h
  have hknown (name : String) : linked.labels[name]? =
      if name ∈ labelsOf code then some (placeOf code name) else none := by
    rw [getElem?_collectLabels hlabels, Nat.zero_add, Std.TreeMap.getElem?_emptyc]
  have hplace : ∀ name a, linked.labels[name]? = some a → a = placeOf code name := by
    intro name a ha
    rw [hknown] at ha
    split at ha
    · exact (Option.some.inj ha).symm
    · cases ha
  have hlist := toList_resolveFrom hplace hcode
  rw [List.nil_append] at hlist
  refine ⟨hlist, hknown, fun name address haddress => ?_⟩
  have hsize : linked.code.size = (unlabelled code).length := by
    rw [← Array.length_toList, hlist, List.length_map]
  rw [hplace name address haddress, hsize]
  exact placeOf_le code name

/-- Code with two labels at one place, branches in both directions, and labels at its end. -/
def bothWays : List (Instruction Float String) :=
  [.label "A", .label "B", .jump "C", .push "X", .label "M", .ifNot "A", .gosub "M",
    .next "I" "%L1" "%S1" "C", .label "C", .label "D"]

/-- It does not link with a label that occurs twice, nor with a branch to a label that is missing. -/
theorem link_resolves_bothWays :
    (∃ linked, link bothWays = .ok linked ∧
      linked.code.toList =
        [.jump 5, .push "X", .ifNot 0, .gosub 2, .next "I" "%L1" "%S1" 5] ∧
      linked.labels["B"]? = some 0 ∧ linked.labels["D"]? = some 5 ∧ linked.labels["E"]? = none ∧
      5 ≤ linked.code.size) ∧
    (¬∃ linked, link (.label "D" :: bothWays) = .ok linked) ∧
    ¬∃ linked, link (.jump "E" :: bothWays) = .ok linked := by
  refine ⟨?_, fun h => ?_, fun h => ?_⟩
  · obtain ⟨linked, hlinked⟩ := (link_resolves bothWays).1.mpr ⟨by decide, by decide⟩
    obtain ⟨hcode, hlabels, hsize⟩ := (link_resolves bothWays).2 linked hlinked
    have hend : linked.labels["D"]? = some 5 := hlabels "D"
    exact ⟨linked, hlinked, hcode, hlabels "B", hend, hlabels "E", hsize "D" 5 hend⟩
  · exact absurd ((link_resolves _).1.mp h).1 (by decide)
  · have hnamed := ((link_resolves _).1.mp h).2 (.jump "E") List.mem_cons_self "E" rfl
    exact absurd hnamed (by decide)

end LineBasic
