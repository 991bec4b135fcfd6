import Mathlib.Data.List.Forall2
import LineBasic.Proofs.Excerpts
import LineBasic.Proofs.LineMarks

/-!
Actions that are laid out behind different numbers of branches. Their code is the same but for the names of the labels
around the bodies of IFs, and a branch leads to the same place in both.
-/

namespace LineBasic

variable {R : Type}

namespace Instruction

/-- Two labels, or two instructions that differ at most in the name of their target. -/
inductive SameShape : Instruction R String → Instruction R String → Prop where
  | label (name name' : String) : SameShape (.label name) (.label name')
  | renamed {i : Instruction R String} (f : String → String) (hi : i.label? = none) :
      SameShape i (i.retarget f)

theorem retarget_id {T : Type} (i : Instruction R T) : i.retarget id = i := by
  cases i <;> rfl

@[simp] theorem label?_retarget {T U : Type} (f : T → U) (i : Instruction R T) :
    (i.retarget f).label? = i.label? := by
  cases i <;> rfl

theorem isTerminal_resolve {f : String → Except Error Nat} {i : Instruction R String}
    {j : Instruction R Nat} (h : i.resolve f = .ok j) : j.isTerminal = i.isTerminal := by
  cases i with
  | jump t | ifNot t | gosub t | next _ _ _ t =>
      obtain ⟨_, -, hj⟩ := Stmt.bind_eq_ok h
      cases hj
      rfl
  | _ =>
      cases h
      rfl

theorem SameShape.refl (i : Instruction R String) : SameShape i i := by
  cases hi : i.label? with
  | some name =>
      obtain rfl := label?_eq_some_iff.mp hi
      exact .label name name
  | none =>
      have h := SameShape.renamed id hi
      rwa [retarget_id] at h

namespace SameShape

variable {i i' : Instruction R String}

theorem label?_isSome (h : SameShape i i') : i'.label?.isSome = i.label?.isSome := by
  cases h with
  | label name name' => rfl
  | renamed f hi => rw [label?_retarget]

theorem width_eq (h : SameShape i i') : i'.width = i.width := by
  rw [width, width, h.label?_isSome]

/-- Two instructions of one shape resolve to one instruction and its move, if their targets do. -/
theorem resolve_eq (h : SameShape i i') (hi : i.label? = none)
    {g g' : String → Except Error Nat} {place : Nat → Nat} {j j' : Instruction R Nat}
    (htarget : ∀ t t', i.target? = some t → i'.target? = some t' →
      ∃ a, g t = .ok (place a) ∧ g' t' = .ok a)
    (hj : i.resolve g = .ok j) (hj' : i'.resolve g' = .ok j') : j = j'.retarget place := by
  cases h with
  | label name name' => cases hi
  | renamed f hi =>
      cases i with
      | jump t | ifNot t | gosub t | next _ _ _ t =>
          obtain ⟨a, ha, ha'⟩ := htarget t (f t) rfl rfl
          rw [resolve, ha] at hj
          rw [retarget, resolve, ha'] at hj'
          cases hj
          cases hj'
          rfl
      | _ =>
          cases hj
          cases hj'
          rfl

end SameShape

end Instruction

open LinkedCode

/-- Code that is other code with other names for its labels. Loops of the given numbers have their bodies in both, and a
branch leads to the same place in both or has a pair of the names that are outside. -/
structure Mirrors (bodies : List Nat) (outside : List (String × String))
    (code code' : List (Instruction R String)) : Prop where
  sameShape : List.Forall₂ Instruction.SameShape code code'
  body_mem : ∀ n ∈ bodies,
    (.label (Place.body ⟨n⟩), .label (Place.body ⟨n⟩)) ∈ code.zip code'
  target_mem : ∀ x ∈ code.zip code', ∀ t t', x.1.target? = some t → x.2.target? = some t' →
    (.label t, .label t') ∈ code.zip code' ∨ (t, t') ∈ outside

namespace Mirrors

variable {bodies bodies' : List Nat} {outside outside' : List (String × String)}
  {code code' code₁ code₁' : List (Instruction R String)}

theorem widthOf_eq (h : List.Forall₂ Instruction.SameShape code code') :
    widthOf code' = widthOf code := by
  induction h with
  | nil => rfl
  | cons hi _ ih => rw [widthOf, widthOf, hi.width_eq, ih]

theorem append (h : Mirrors bodies outside code code')
    (h₁ : Mirrors bodies' outside' code₁ code₁') :
    Mirrors (bodies ++ bodies') (outside ++ outside') (code ++ code₁) (code' ++ code₁') where
  sameShape := List.rel_append h.sameShape h₁.sameShape
  body_mem n hn := by
    rw [List.zip_append h.sameShape.length_eq, List.mem_append]
    exact (List.mem_append.mp hn).imp (h.body_mem n) (h₁.body_mem n)
  target_mem x hx t t' ht ht' := by
    rw [List.zip_append h.sameShape.length_eq, List.mem_append] at hx ⊢
    rw [List.mem_append]
    rcases hx with hx | hx
    · exact (h.target_mem x hx t t' ht ht').imp .inl .inl
    · exact (h₁.target_mem x hx t t' ht ht').imp .inr .inr

/-- Branches may lead to labels behind the code. -/
theorem close (h : Mirrors bodies outside code code') (own : List (String × String))
    (hlabels : ∀ x ∈ own, (.label x.1, .label x.2) ∈ code.zip code')
    (hsub : outside ⊆ own ++ outside') (hbodies : bodies' ⊆ bodies) :
    Mirrors bodies' outside' code code' where
  sameShape := h.sameShape
  body_mem n hn := h.body_mem n (hbodies hn)
  target_mem x hx t t' ht ht' := by
    rcases h.target_mem x hx t t' ht ht' with hmem | hmem
    · exact .inl hmem
    · exact (List.mem_append.mp (hsub hmem)).imp_left (hlabels (t, t'))

theorem mono (h : Mirrors bodies outside code code') (hsub : outside ⊆ outside') :
    Mirrors bodies outside' code code' :=
  h.close [] (fun _ hx => absurd hx List.not_mem_nil) hsub (List.Subset.refl _)

/-- Code that branches nowhere mirrors itself. -/
theorem of_plain (h : ∀ i ∈ code, i.target? = none) : Mirrors [] outside code code where
  sameShape := List.forall₂_same.mpr fun i _ => .refl i
  body_mem n hn := absurd hn List.not_mem_nil
  target_mem x hx t t' ht _ := by
    rw [h x.1 (List.of_mem_zip hx).1] at ht
    cases ht

/-- One instruction that branches outside. -/
theorem of_target {i i' : Instruction R String} (hshape : i.SameShape i') (t t' : String)
    (ht : i.target? = some t) (ht' : i'.target? = some t') :
    Mirrors [] [(t, t')] [i] [i'] where
  sameShape := .cons hshape .nil
  body_mem n hn := absurd hn List.not_mem_nil
  target_mem x hx s s' hs hs' := by
    rw [List.zip_cons_cons, List.zip_nil_right, List.mem_singleton] at hx
    subst hx
    rw [ht] at hs
    rw [ht'] at hs'
    cases hs
    cases hs'
    exact .inr (List.mem_singleton.mpr rfl)

theorem of_label (name name' : String) :
    Mirrors [] [] [(.label name : Instruction R String)] [.label name'] where
  sameShape := .cons (.label name name') .nil
  body_mem n hn := absurd hn List.not_mem_nil
  target_mem x hx t t' ht _ := by
    rw [List.zip_cons_cons, List.zip_nil_right, List.mem_singleton] at hx
    subst hx
    cases ht

end Mirrors

namespace LinkedCode

variable {whole part : LinkedCode R} {code code' : List (Instruction R String)}
  {address address' : Nat}

/-- Two instructions in the same place of the code are found equally far behind its addresses. -/
theorem holds_of_mem_zip (h : List.Forall₂ Instruction.SameShape code code')
    (hplaced : whole.Placed address code) (hplaced' : part.Placed address' code')
    {x : Instruction R String × Instruction R String} (hx : x ∈ code.zip code') :
    ∃ k, k + x.1.width ≤ widthOf code ∧ whole.Holds (address + k) x.1 ∧
      part.Holds (address' + k) x.2 := by
  induction h generalizing address address' with
  | nil => cases hx
  | cons hi _ ih =>
      rw [List.zip_cons_cons, List.mem_cons] at hx
      rcases hx with rfl | hx
      · exact ⟨0, by simp [widthOf], hplaced.1, hplaced'.1⟩
      · obtain ⟨k, hk, hholds, hholds'⟩ := ih hplaced.2 hplaced'.2 hx
        rw [hi.width_eq] at hholds'
        refine ⟨_ + k, ?_, by rwa [← Nat.add_assoc], by rwa [← Nat.add_assoc]⟩
        rw [widthOf]
        omega

theorem exists_mem_zip (h : List.Forall₂ Instruction.SameShape code code')
    (hplaced : whole.Placed address code) (hplaced' : part.Placed address' code') {k : Nat}
    (hk : k < widthOf code) :
    ∃ x ∈ code.zip code', x.1.label? = none ∧ x.1.SameShape x.2 ∧
      whole.Holds (address + k) x.1 ∧ part.Holds (address' + k) x.2 := by
  induction h generalizing address address' k with
  | nil =>
      rw [widthOf] at hk
      omega
  | @cons i i' code code' hi _ ih =>
      rw [List.zip_cons_cons]
      rw [widthOf] at hk
      rcases Nat.lt_or_ge k i.width with hlt | hge
      · have hwidth : i.width = 1 := by
          rw [Instruction.width] at hlt ⊢
          split at hlt
          · omega
          · rename_i hlabel
            rw [if_neg hlabel]
        obtain rfl : k = 0 := by omega
        exact ⟨(i, i'), List.mem_cons_self, Instruction.label?_eq_none_iff.mpr hwidth, hi,
          hplaced.1, hplaced'.1⟩
      · have hrest := ih hplaced.2 hplaced'.2 (k := k - i.width) (by omega)
        obtain ⟨x, hmem, hlabel, hshape, hholds, hholds'⟩ := hrest
        rw [Nat.add_assoc, Nat.add_sub_cancel' hge] at hholds
        rw [hi.width_eq, Nat.add_assoc, Nat.add_sub_cancel' hge] at hholds'
        exact ⟨x, List.mem_cons_of_mem _ hmem, hlabel, hshape, hholds, hholds'⟩

end LinkedCode

variable [NumberSystem R]

namespace Action

def shared (names : List String) : List (String × String) :=
  names.map fun name => (name, name)

theorem mem_shared {names : List String} {t t' : String} :
    (t, t') ∈ shared names ↔ t = t' ∧ t ∈ names := by
  simp only [shared, List.mem_map, Prod.mk.injEq]
  constructor
  · rintro ⟨name, hname, rfl, rfl⟩
    exact ⟨rfl, hname⟩
  · rintro ⟨rfl, ht⟩
    exact ⟨t, ht, rfl, rfl⟩

/-- The names outside of actions with these line numbers and loops. -/
def sharedOutside (targets : List LineNumber) (nexts : List Nat) : List (String × String) :=
  shared (outside targets nexts)

omit [NumberSystem R] in
theorem sharedOutside_append_subset (ts ts' : List LineNumber) (ns ns' : List Nat) :
    sharedOutside ts ns ++ sharedOutside ts' ns' ⊆ sharedOutside (ts ++ ts') (ns ++ ns') := by
  rintro ⟨t, t'⟩ h
  rw [List.mem_append] at h
  rcases h with h | h
  · obtain ⟨rfl, ht⟩ := mem_shared.mp h
    exact mem_shared.mpr ⟨rfl, outside_append_subset ts ts' ns ns' (List.mem_append_left _ ht)⟩
  · obtain ⟨rfl, ht⟩ := mem_shared.mp h
    exact mem_shared.mpr ⟨rfl, outside_append_subset ts ts' ns ns' (List.mem_append_right _ ht)⟩

theorem mirrors_loopCode (place : Place) (v : Variable) (start limit : Expr R)
    (step : Option (Expr R)) :
    Mirrors [place.k] [] (Stmt.loopCode place v start limit step)
      (Stmt.loopCode place v start limit step) := by
  refine { Mirrors.of_plain (Stmt.target?_loopCode place v start limit step) with body_mem := ?_ }
  intro n hn
  obtain rfl := List.mem_singleton.mp hn
  simp [Stmt.loopCode, List.zip_append]

mutual

theorem mirrors_code (b b' : Nat) : ∀ a : Action R,
    Mirrors a.fors (sharedOutside a.targets a.nexts) (a.code b).1 (a.code b').1
  | call name args => by
      refine .of_plain ?_
      simpa [code, or_imp, forall_and, Instruction.target?] using Expr.target?_codeAll args
  | .end | .return => .of_plain (by simp [code, Instruction.target?])
  | rem | next none => .of_plain (by simp [code])
  | assign name e => by
      refine .of_plain ?_
      simpa [code, or_imp, forall_and, Instruction.target?] using e.target?_code
  | .for loop start limit step =>
      (mirrors_loopCode ⟨loop.number⟩ ⟨{}, loop.name⟩ start limit step).mono (List.nil_subset _)
  | gosub line | goto line => .of_target (.refl _) _ _ rfl rfl
  | next (some loop) => by
      rw [code_next, code_next]
      exact .of_target (.refl _) _ _ rfl rfl
  | branch condition thenBody elseBody => by
      have hcondition : Mirrors [] [] condition.code condition.code :=
        .of_plain condition.target?_code
      have hthen := mirrors_codeAll (b + 1) (b' + 1) thenBody
      have helse := mirrors_codeAll (codeAll (b + 1) thenBody).2 (codeAll (b' + 1) thenBody).2
        elseBody
      have htest : Mirrors (R := R) [] [(Place.otherwise ⟨b + 1⟩, Place.otherwise ⟨b' + 1⟩)]
          [.ifNot (Place.otherwise ⟨b + 1⟩)] [.ifNot (Place.otherwise ⟨b' + 1⟩)] :=
        .of_target (.renamed (fun _ => Place.otherwise ⟨b' + 1⟩) rfl) _ _ rfl rfl
      have hjump : Mirrors (R := R) [] [(Place.exit ⟨b + 1⟩, Place.exit ⟨b' + 1⟩)]
          [.jump (Place.exit ⟨b + 1⟩)] [.jump (Place.exit ⟨b' + 1⟩)] :=
        .of_target (.renamed (fun _ => Place.exit ⟨b' + 1⟩) rfl) _ _ rfl rfl
      have hfront := (hcondition.append htest).append hthen
      rw [code, code]
      dsimp only
      split
      · rename_i hempty
        rw [List.isEmpty_iff] at hempty
        subst hempty
        refine (hfront.append (.of_label _ _)).close
          [(Place.otherwise ⟨b + 1⟩, Place.otherwise ⟨b' + 1⟩)] ?_ ?_ ?_
        · rw [List.zip_append hfront.sameShape.length_eq]
          simp
        · simp [targets, nexts, targetsAll, nextsAll]
        · simp [fors, forsAll]
      · have hmiddle := hfront.append (hjump.append
          (Mirrors.of_label (Place.otherwise ⟨b + 1⟩) (Place.otherwise ⟨b' + 1⟩)))
        have hall := hmiddle.append helse
        refine (hall.append (.of_label (Place.exit ⟨b + 1⟩) (Place.exit ⟨b' + 1⟩))).close
          [(Place.otherwise ⟨b + 1⟩, Place.otherwise ⟨b' + 1⟩),
            (Place.exit ⟨b + 1⟩, Place.exit ⟨b' + 1⟩)] ?_ ?_ ?_
        · rw [List.zip_append hall.sameShape.length_eq,
            List.zip_append hmiddle.sameShape.length_eq,
            List.zip_append hfront.sameShape.length_eq]
          simp
        · have hsub := sharedOutside_append_subset (targetsAll thenBody) (targetsAll elseBody)
            (nextsAll thenBody) (nextsAll elseBody)
          intro x hx
          have hsub := @hsub x
          simp only [List.mem_append, List.mem_cons, List.not_mem_nil, or_false, false_or] at *
          rw [targets, nexts]
          tauto
        · simp [fors]

theorem mirrors_codeAll (b b' : Nat) : ∀ as : List (Action R),
    Mirrors (forsAll as) (sharedOutside (targetsAll as) (nextsAll as)) (codeAll b as).1
      (codeAll b' as).1
  | [] => .of_plain (by simp [codeAll])
  | a :: as =>
      ((mirrors_code b b' a).append
        (mirrors_codeAll (a.code b).2 (a.code b').2 as)).mono
        (sharedOutside_append_subset _ _ _ _)

end

end Action

end LineBasic
