import Std.Data.String.ToNat
import LineBasic.Proofs.Coherence

namespace LineBasic

variable {R : Type}

namespace Place

theorem otherwise_inj {p q : Place} (h : p.otherwise = q.otherwise) : p = q := by
  rw [otherwise, otherwise, String.append_right_inj] at h
  exact congrArg Place.mk (Nat.repr_inj.mp h)

theorem exit_inj {p q : Place} (h : p.exit = q.exit) : p = q := by
  rw [exit, exit, String.append_right_inj] at h
  exact congrArg Place.mk (Nat.repr_inj.mp h)

theorem body_inj {p q : Place} (h : p.body = q.body) : p = q := by
  rw [body, body, String.append_right_inj] at h
  exact congrArg Place.mk (Nat.repr_inj.mp h)

end Place

theorem lineLabel_inj {n m : LineNumber} (h : lineLabel n = lineLabel m) : n = m := by
  rw [lineLabel, lineLabel, String.append_right_inj] at h
  exact Nat.repr_inj.mp h

theorem ne_of_head_ne {s t : String} (h : s.toList.head? ≠ t.toList.head?) : s ≠ t :=
  fun heq => h (heq ▸ rfl)

@[simp] theorem head_otherwise (p : Place) : p.otherwise.toList.head? = some 'E' := by
  simp [Place.otherwise]

@[simp] theorem head_exit (p : Place) : p.exit.toList.head? = some 'X' := by
  simp [Place.exit]

@[simp] theorem head_body (p : Place) : p.body.toList.head? = some 'F' := by
  simp [Place.body]

@[simp] theorem head_lineLabel (n : LineNumber) :
    (lineLabel n).toList.head? = some 'L' := by
  simp [lineLabel]

@[simp] theorem head_entry : Script.entry.toList.head? = some 'M' := by
  simp [Script.entry]

namespace Action

mutual

def fors : Action R → List Nat
  | .for loop _ _ _ => [loop.number]
  | branch _ thenBody elseBody => forsAll thenBody ++ forsAll elseBody
  | _ => []

def forsAll : List (Action R) → List Nat
  | [] => []
  | action :: actions => action.fors ++ forsAll actions

end

mutual

def nexts : Action R → List Nat
  | next (some loop) => [loop.number]
  | branch _ thenBody elseBody => nextsAll thenBody ++ nextsAll elseBody
  | _ => []

def nextsAll : List (Action R) → List Nat
  | [] => []
  | action :: actions => action.nexts ++ nextsAll actions

end

mutual

def targets : Action R → List LineNumber
  | gosub line | goto line => [line]
  | branch _ thenBody elseBody => targetsAll thenBody ++ targetsAll elseBody
  | _ => []

def targetsAll : List (Action R) → List LineNumber
  | [] => []
  | action :: actions => action.targets ++ targetsAll actions

end

end Action

open LinkedCode

theorem labelsOf_append (code code' : List (Instruction R String)) :
    labelsOf (code ++ code') = labelsOf code ++ labelsOf code' :=
  List.filterMap_append

/-- What is known of the labels of code in which the branches from `b` on up to
`b'` and the loops `fors` are laid out: they are distinct, the bodies of the
loops are among them, and what the code branches to is among them or is one of
`outside`. -/
structure Labelled (b : Nat) (fors : List Nat) (outside : List String)
    (code : List (Instruction R String)) (b' : Nat) : Prop where
  le : b ≤ b'
  of_mem : ∀ l ∈ labelsOf code,
    (∃ k, b < k ∧ k ≤ b' ∧ (l = Place.otherwise ⟨k⟩ ∨ l = Place.exit ⟨k⟩)) ∨
      ∃ n ∈ fors, l = Place.body ⟨n⟩
  nodup : fors.Nodup → (labelsOf code).Nodup
  body_mem : ∀ n ∈ fors, Place.body ⟨n⟩ ∈ labelsOf code
  target_mem : ∀ i ∈ code, ∀ name, i.target? = some name →
    name ∈ labelsOf code ∨ name ∈ outside

namespace Labelled

variable {b b' b'' : Nat} {fors fors' : List Nat} {outside outside' : List String}
  {code code' : List (Instruction R String)}

theorem mono (h : Labelled b fors outside code b') (hsub : outside ⊆ outside') :
    Labelled b fors outside' code b' :=
  { h with
    target_mem := fun i hi name hname =>
      (h.target_mem i hi name hname).imp id fun hmem => hsub hmem }

theorem append (h : Labelled b fors outside code b')
    (h' : Labelled b' fors' outside' code' b'') :
    Labelled b (fors ++ fors') (outside ++ outside') (code ++ code') b'' where
  le := Nat.le_trans h.le h'.le
  of_mem l hl := by
    rw [labelsOf_append, List.mem_append] at hl
    rcases hl with hl | hl
    · rcases h.of_mem l hl with ⟨k, hlt, hle, hk⟩ | ⟨n, hn, hbody⟩
      · exact .inl ⟨k, hlt, Nat.le_trans hle h'.le, hk⟩
      · exact .inr ⟨n, List.mem_append_left _ hn, hbody⟩
    · rcases h'.of_mem l hl with ⟨k, hlt, hle, hk⟩ | ⟨n, hn, hbody⟩
      · exact .inl ⟨k, Nat.lt_of_le_of_lt h.le hlt, hle, hk⟩
      · exact .inr ⟨n, List.mem_append_right _ hn, hbody⟩
  nodup hfors := by
    obtain ⟨hfors, hfors', hdisjoint⟩ := List.nodup_append'.mp hfors
    rw [labelsOf_append, List.nodup_append']
    refine ⟨h.nodup hfors, h'.nodup hfors', ?_⟩
    intro l hl hl'
    rcases h.of_mem l hl with ⟨k, -, hle, hk⟩ | ⟨n, hn, rfl⟩
    · rcases h'.of_mem l hl' with ⟨k', hlt, -, hk'⟩ | ⟨n, -, rfl⟩
      · rcases hk with rfl | rfl <;> rcases hk' with hk' | hk'
        · cases Place.otherwise_inj hk'
          omega
        · exact ne_of_head_ne (by simp) hk'
        · exact ne_of_head_ne (by simp) hk'
        · cases Place.exit_inj hk'
          omega
      · rcases hk with hk | hk <;> exact ne_of_head_ne (by simp) hk
    · rcases h'.of_mem _ hl' with ⟨k', -, -, hk'⟩ | ⟨n', hn', heq⟩
      · rcases hk' with hk' | hk' <;> exact ne_of_head_ne (by simp) hk'
      · cases Place.body_inj heq
        exact hdisjoint hn hn'
  body_mem n hn := by
    rw [labelsOf_append, List.mem_append]
    rcases List.mem_append.mp hn with hn | hn
    · exact .inl (h.body_mem n hn)
    · exact .inr (h'.body_mem n hn)
  target_mem i hi name hname := by
    rw [labelsOf_append, List.mem_append, List.mem_append]
    rcases List.mem_append.mp hi with hi | hi
    · rcases h.target_mem i hi name hname with hmem | hmem
      · exact .inl (.inl hmem)
      · exact .inr (.inl hmem)
    · rcases h'.target_mem i hi name hname with hmem | hmem
      · exact .inl (.inr hmem)
      · exact .inr (.inr hmem)

/-- Code without labels. -/
theorem of_plain (b : Nat) (hlabels : labelsOf code = [])
    (htargets : ∀ i ∈ code, ∀ name, i.target? = some name → name ∈ outside) :
    Labelled b [] outside code b where
  le := Nat.le_refl b
  of_mem l hl := by
    rw [hlabels] at hl
    cases hl
  nodup _ := by
    rw [hlabels]
    exact List.nodup_nil
  body_mem n hn := by cases hn
  target_mem i hi name hname := .inr (htargets i hi name hname)

end Labelled

section

variable [NumberSystem R]

namespace Expr

mutual

theorem labelsOf_code : ∀ e : Expr R, labelsOf e.code = []
  | number _ _ | string _ _ | char _ _ | var _ _ => rfl
  | call _ _ args => by
      rw [code, labelsOf_append, labelsOf_codeAll args]
      rfl
  | unary _ _ e => by
      rw [code, labelsOf_append, labelsOf_code e]
      rfl
  | binary _ _ l r => by
      rw [code, labelsOf_append, labelsOf_append, labelsOf_code l, labelsOf_code r]
      rfl

theorem labelsOf_codeAll : ∀ es : List (Expr R), labelsOf (codeAll es) = []
  | [] => rfl
  | e :: es => by
      rw [codeAll, labelsOf_append, labelsOf_code e, labelsOf_codeAll es]
      rfl

end

mutual

theorem target?_code : ∀ e : Expr R, ∀ i ∈ e.code, i.target? = none
  | number _ _ | string _ _ | char _ _ | var _ _ => by
      simp [code, Instruction.target?]
  | call _ _ args => by
      simpa [code, or_imp, forall_and, Instruction.target?] using target?_codeAll args
  | unary _ _ e => by
      simpa [code, or_imp, forall_and, Instruction.target?] using target?_code e
  | binary _ _ l r => by
      simpa [code, or_imp, forall_and, Instruction.target?] using
        ⟨target?_code l, target?_code r⟩

theorem target?_codeAll : ∀ es : List (Expr R), ∀ i ∈ codeAll es, i.target? = none
  | [] => by simp [codeAll]
  | e :: es => by
      simpa [codeAll, or_imp, forall_and] using ⟨target?_code e, target?_codeAll es⟩

end

end Expr

theorem Stmt.target?_loopCode (place : Place) (v : Variable) (start limit : Expr R)
    (step : Option (Expr R)) : ∀ i ∈ loopCode place v start limit step, i.target? = none := by
  cases step with
  | none =>
      simpa [loopCode, or_imp, forall_and, Instruction.target?] using
        ⟨start.target?_code, limit.target?_code⟩
  | some step =>
      simpa [loopCode, or_imp, forall_and, Instruction.target?] using
        ⟨start.target?_code, limit.target?_code, step.target?_code⟩

omit [NumberSystem R] in
theorem Labelled.of_code (b : Nat) {code : List (Instruction R String)}
    (hlabels : labelsOf code = []) (htargets : ∀ i ∈ code, i.target? = none) :
    Labelled b [] [] code b :=
  Labelled.of_plain b hlabels fun i hi name hname => by
    rw [htargets i hi] at hname
    cases hname

theorem Labelled.of_loopCode (b : Nat) (place : Place) (v : Variable) (start limit : Expr R)
    (step : Option (Expr R)) :
    Labelled b [place.k] [] (Stmt.loopCode place v start limit step) b := by
  have hlabels : labelsOf (Stmt.loopCode place v start limit step) = [place.body] := by
    cases step <;> simp only [Stmt.loopCode, labelsOf_append, Expr.labelsOf_code] <;> rfl
  refine ⟨Nat.le_refl b, ?_, ?_, ?_, ?_⟩
  · intro l hl
    rw [hlabels, List.mem_singleton] at hl
    exact .inr ⟨place.k, List.mem_singleton.mpr rfl, hl⟩
  · intro _
    rw [hlabels]
    exact List.nodup_singleton _
  · intro n hn
    rw [List.mem_singleton.mp hn, hlabels]
    exact List.mem_singleton.mpr rfl
  · intro i hi name hname
    rw [Stmt.target?_loopCode place v start limit step i hi] at hname
    cases hname

private theorem perm_branch (o e : String) (ls ls' : List String) :
    (ls ++ o :: (ls' ++ [e])).Perm (o :: e :: (ls ++ ls')) := by
  refine List.perm_middle.trans (List.Perm.cons o ?_)
  rw [← List.append_assoc]
  exact List.perm_append_singleton e (ls ++ ls')

omit [NumberSystem R] in
theorem Labelled.enclose {b b' : Nat} {fors : List Nat} {outside : List String}
    {code whole : List (Instruction R String)} (h : Labelled (b + 1) fors outside code b')
    (own : List String)
    (hlabels : (labelsOf whole).Perm (own ++ labelsOf code)) (hown : own.Nodup)
    (hplace : ∀ l ∈ own, l = Place.otherwise ⟨b + 1⟩ ∨ l = Place.exit ⟨b + 1⟩)
    (htarget : ∀ i ∈ whole, ∀ name, i.target? = some name → name ∈ own ∨ i ∈ code) :
    Labelled b fors outside whole b' where
  le := Nat.le_of_succ_le h.le
  of_mem l hl := by
    rw [hlabels.mem_iff, List.mem_append] at hl
    rcases hl with hl | hl
    · exact .inl ⟨b + 1, Nat.lt_succ_self b, h.le, hplace l hl⟩
    · exact (h.of_mem l hl).imp (fun ⟨k, hlt, hle, hk⟩ => ⟨k, by omega, hle, hk⟩) id
  nodup hfors := by
    rw [hlabels.nodup_iff, List.nodup_append']
    refine ⟨hown, h.nodup hfors, ?_⟩
    intro l hl hl'
    rcases hplace l hl with rfl | rfl
    · rcases h.of_mem _ hl' with ⟨k, hlt, -, hk | hk⟩ | ⟨n, -, hn⟩
      · cases Place.otherwise_inj hk
        omega
      · exact ne_of_head_ne (by simp) hk
      · exact ne_of_head_ne (by simp) hn
    · rcases h.of_mem _ hl' with ⟨k, hlt, -, hk | hk⟩ | ⟨n, -, hn⟩
      · exact ne_of_head_ne (by simp) hk
      · cases Place.exit_inj hk
        omega
      · exact ne_of_head_ne (by simp) hn
  body_mem n hn := by
    rw [hlabels.mem_iff, List.mem_append]
    exact .inr (h.body_mem n hn)
  target_mem i hi name hname := by
    rw [hlabels.mem_iff, List.mem_append]
    rcases htarget i hi name hname with hmem | hmem
    · exact .inl (.inl hmem)
    · exact (h.target_mem i hmem name hname).imp .inr id

namespace Action

/-- What the code of actions names outside: lines and the bodies of loops. -/
def outside (targets : List LineNumber) (nexts : List Nat) : List String :=
  targets.map lineLabel ++ nexts.map fun n => Place.body ⟨n⟩

theorem code_next (b : Nat) (loop : Loop) :
    (next loop : Action R).code b = ([Stmt.nextCode ⟨loop.number⟩ loop.name], b) := by
  rw [code]

omit [NumberSystem R] in
theorem outside_append_subset (ts ts' : List LineNumber) (ns ns' : List Nat) :
    outside ts ns ++ outside ts' ns' ⊆ outside (ts ++ ts') (ns ++ ns') := by
  intro l
  simp only [outside, List.map_append, List.mem_append]
  tauto

mutual

theorem labelled_code (b : Nat) : ∀ a : Action R,
    Labelled b a.fors (outside a.targets a.nexts) (a.code b).1 (a.code b).2
  | call name args => by
      refine (Labelled.of_code b ?_ ?_).mono (List.nil_subset _)
      · rw [code, labelsOf_append, Expr.labelsOf_codeAll]
        rfl
      · simpa [code, or_imp, forall_and, Instruction.target?] using Expr.target?_codeAll args
  | .end | .return =>
      (Labelled.of_code b rfl (by simp [code, Instruction.target?])).mono (List.nil_subset _)
  | rem | next none =>
      (Labelled.of_code b rfl (by simp [code])).mono (List.nil_subset _)
  | assign name e => by
      refine (Labelled.of_code b ?_ ?_).mono (List.nil_subset _)
      · rw [code, labelsOf_append, Expr.labelsOf_code]
        rfl
      · simpa [code, or_imp, forall_and, Instruction.target?] using e.target?_code
  | .for loop start limit step =>
      (Labelled.of_loopCode b ⟨loop.number⟩ ⟨{}, loop.name⟩ start limit step).mono
        (List.nil_subset _)
  | gosub line | goto line =>
      Labelled.of_plain b rfl
        (by simp [code, Instruction.target?, outside, targets])
  | next (some loop) => by
      rw [code_next]
      exact Labelled.of_plain b rfl
        (by simp [Stmt.nextCode, Instruction.target?, outside, nexts])
  | branch condition thenBody elseBody => by
      have hthen := labelled_codeAll (b + 1) thenBody
      have helse := labelled_codeAll (codeAll (b + 1) thenBody).2 elseBody
      have hboth := (hthen.append helse).mono (outside_append_subset _ _ _ _)
      rw [code]
      dsimp only
      split
      · rename_i hempty
        rw [List.isEmpty_iff] at hempty
        subst hempty
        simp only [codeAll, List.append_nil] at hboth
        refine hboth.enclose [Place.otherwise ⟨b + 1⟩] ?_ (by simp) (by simp) ?_
        · simp only [labelsOf_append, Expr.labelsOf_code]
          exact List.perm_append_comm
        · intro i hi name hname
          simp only [List.mem_append, List.mem_singleton] at hi
          rcases hi with ((hi | rfl) | hi) | rfl
          · rw [condition.target?_code i hi] at hname
            cases hname
          · cases hname
            exact .inl (List.mem_singleton.mpr rfl)
          · exact .inr hi
          · cases hname
      · refine hboth.enclose
          [Place.otherwise ⟨b + 1⟩, Place.exit ⟨b + 1⟩] ?_ ?_ (by simp) ?_
        · simp only [labelsOf_append, Expr.labelsOf_code, List.append_assoc]
          exact perm_branch _ _ _ _
        · simpa using ne_of_head_ne (by simp)
        · intro i hi name hname
          simp only [List.mem_append, List.mem_cons, List.not_mem_nil, or_false] at hi ⊢
          rcases hi with ((((hi | rfl) | hi) | rfl | rfl) | hi) | rfl
          · rw [condition.target?_code i hi] at hname
            cases hname
          · cases hname
            exact .inl (.inl rfl)
          · exact .inr (.inl hi)
          · cases hname
            exact .inl (.inr rfl)
          · cases hname
          · exact .inr (.inr hi)
          · cases hname

theorem labelled_codeAll (b : Nat) : ∀ as : List (Action R),
    Labelled b (forsAll as) (outside (targetsAll as) (nextsAll as)) (codeAll b as).1
      (codeAll b as).2
  | [] => (Labelled.of_code b rfl (by simp [codeAll])).mono (List.nil_subset _)
  | a :: as =>
      ((labelled_code b a).append (labelled_codeAll (a.code b).2 as)).mono
        (outside_append_subset _ _ _ _)

end

end Action

theorem codeAll_append (b : Nat) (as as' : List (Action R)) :
    Action.codeAll b (as ++ as') =
      ((Action.codeAll b as).1 ++ (Action.codeAll (Action.codeAll b as).2 as').1,
        (Action.codeAll (Action.codeAll b as).2 as').2) := by
  induction as generalizing b with
  | nil => rfl
  | cons a as ih => simp [Action.codeAll, ih]

theorem labelsOf_linesCode (b : Nat) (lines : List (ActionLine R)) :
    (labelsOf (Action.linesCode b lines).1).Perm
      (lines.map (fun line => lineLabel line.number) ++
        labelsOf (Action.codeAll b (lines.flatMap ActionLine.actions)).1) := by
  induction lines generalizing b with
  | nil => exact List.Perm.refl _
  | cons line lines ih =>
      simp only [Action.linesCode, List.flatMap_cons, codeAll_append, labelsOf_append,
        List.map_cons]
      refine List.Perm.cons _ ?_
      exact (List.Perm.append_left _ (ih _)).trans (List.perm_append_comm_assoc _ _ _)

theorem mem_linesCode {b : Nat} {lines : List (ActionLine R)} {i : Instruction R String}
    (h : i ∈ (Action.linesCode b lines).1) :
    i.target? = none ∨ i ∈ (Action.codeAll b (lines.flatMap ActionLine.actions)).1 := by
  induction lines generalizing b with
  | nil => cases h
  | cons line lines ih =>
      simp only [Action.linesCode, List.flatMap_cons, codeAll_append, List.mem_append,
        List.mem_cons, List.not_mem_nil, or_false] at h ⊢
      rcases h with ((rfl | rfl) | h) | h
      · exact .inl rfl
      · exact .inl rfl
      · exact .inr (.inl h)
      · exact (ih h).imp id .inr

end

/-- Open loops have numbers that were given out. -/
def Loops.Bounded (loops : Loops) : Prop :=
  ∀ loop ∈ loops.opened, 1 ≤ loop.number ∧ loop.number ≤ loops.count

theorem Loops.bounded_start : ({} : Loops).Bounded := by
  simp [Bounded]

theorem Loops.Bounded.close {loops : Loops} (h : loops.Bounded) : loops.close.Bounded :=
  fun loop hmem => h loop (List.mem_of_mem_tail hmem)

theorem Loops.exists_of_closed {loops : Loops} {v : Option Variable} {loop : Loop}
    (h : loops.closed v = some loop) : ∃ rest, loops.opened = loop :: rest := by
  rw [closed] at h
  split at h
  · cases h
  · rename_i head rest heq
    rw [heq]
    split at h
    · obtain ⟨-, hhead⟩ := Option.ite_none_right_eq_some.mp h
      exact ⟨rest, congrArg (· :: rest) (Option.some.inj hhead)⟩
    · exact ⟨rest, congrArg (· :: rest) (Option.some.inj h)⟩

theorem Loops.mem_of_closed {loops : Loops} {v : Option Variable} {loop : Loop}
    (h : loops.closed v = some loop) : loop ∈ loops.opened := by
  obtain ⟨rest, hopened⟩ := exists_of_closed h
  rw [hopened]
  exact List.mem_cons_self

/-- What pairing makes of loops: FORs get the next numbers in order, and NEXTs
numbers that were given out. -/
structure Numbered (loops : Loops) (fors nexts : List Nat) (loops' : Loops) : Prop where
  fors_eq : ∃ k, loops'.count = loops.count + k ∧ fors = List.range' (loops.count + 1) k
  nexts_le : ∀ n ∈ nexts, 1 ≤ n ∧ n ≤ loops'.count
  bounded : loops'.Bounded

theorem Numbered.append {loops loops' loops'' : Loops} {fors fors' nexts nexts' : List Nat}
    (h : Numbered loops fors nexts loops') (h' : Numbered loops' fors' nexts' loops'') :
    Numbered loops (fors ++ fors') (nexts ++ nexts') loops'' := by
  obtain ⟨k, hcount, hfors⟩ := h.fors_eq
  obtain ⟨k', hcount', hfors'⟩ := h'.fors_eq
  refine ⟨⟨k + k', by omega, ?_⟩, ?_, h'.bounded⟩
  · rw [hfors, hfors', hcount, Nat.add_right_comm, List.range'_append_1]
  · intro n hn
    rcases List.mem_append.mp hn with hn | hn
    · have hle := h.nexts_le n hn
      omega
    · exact h'.nexts_le n hn

theorem Numbered.of_plain {loops : Loops} (h : loops.Bounded) :
    Numbered loops [] [] loops :=
  ⟨⟨0, rfl, rfl⟩, by simp, h⟩

namespace Stmt

mutual

theorem numbered_pair {loops : Loops} (h : loops.Bounded) : ∀ s : Stmt R,
    Numbered loops (s.pair loops).1.fors (s.pair loops).1.nexts (s.pair loops).2
  | call _ _ _ | .end _ | gosub _ _ | goto _ _ | .let _ _ _ | print _ _ | rem _ | .return _ =>
      Numbered.of_plain h
  | .for _ v _ _ _ => by
      refine ⟨⟨1, rfl, rfl⟩, by simp [pair, Action.nexts], ?_⟩
      intro loop hmem
      rcases List.mem_cons.mp hmem with rfl | hmem
      · exact ⟨Nat.le_add_left 1 _, Nat.le_refl _⟩
      · have hle := h loop hmem
        exact ⟨hle.1, Nat.le_succ_of_le hle.2⟩
  | next _ v => by
      refine ⟨⟨0, rfl, rfl⟩, ?_, h.close⟩
      intro n hn
      rw [pair] at hn
      cases hclosed : loops.closed v with
      | none =>
          rw [hclosed] at hn
          cases hn
      | some loop =>
          rw [hclosed] at hn
          rw [List.mem_singleton.mp hn]
          exact h loop (Loops.mem_of_closed hclosed)
  | .if _ _ thenBody elseBody => by
      have hthen := numbered_pairAll h thenBody
      exact hthen.append (numbered_pairAll hthen.bounded elseBody)

theorem numbered_pairAll {loops : Loops} (h : loops.Bounded) : ∀ ss : List (Stmt R),
    Numbered loops (Action.forsAll (pairAll loops ss).1)
      (Action.nextsAll (pairAll loops ss).1) (pairAll loops ss).2
  | [] => Numbered.of_plain h
  | s :: ss => by
      have hs := numbered_pair h s
      exact hs.append (numbered_pairAll hs.bounded ss)

end

mutual

theorem targets_pair (loops : Loops) :
    ∀ s : Stmt R, (s.pair loops).1.targets = s.ownTargets.map Target.line
  | .end _ | gosub _ _ | goto _ _ | rem _ | .return _ => rfl
  | call _ _ _ | .let _ _ _ | print _ _ | .for _ _ _ _ _ => by
      rw [ownTargets_of_plain (by simp) (by simp) (by simp)]
      rfl
  | next _ v => by
      rw [ownTargets_of_plain (by simp) (by simp) (by simp), pair]
      cases loops.closed v <;> rfl
  | .if _ _ thenBody elseBody => by
      rw [ownTargets_if, List.map_append, ← targets_pairAll loops thenBody,
        ← targets_pairAll _ elseBody]
      rfl

theorem targets_pairAll (loops : Loops) : ∀ ss : List (Stmt R),
    Action.targetsAll (pairAll loops ss).1 = (targets ss).map Target.line
  | [] => rfl
  | s :: ss => by
      rw [targets_cons, List.map_append, ← targets_pair loops s, ← targets_pairAll _ ss]
      rfl

end

theorem pairAll_append (loops : Loops) (ss ss' : List (Stmt R)) :
    pairAll loops (ss ++ ss') =
      ((pairAll loops ss).1 ++ (pairAll (pairAll loops ss).2 ss').1,
        (pairAll (pairAll loops ss).2 ss').2) := by
  induction ss generalizing loops with
  | nil => rfl
  | cons s ss ih => simp [pairAll, ih]

end Stmt

namespace Program

theorem flatMap_pairLines (loops : Loops) (lines : List (ProgramLine R)) :
    (pairLines loops lines).1.flatMap ActionLine.actions =
      (Stmt.pairAll loops (lines.flatMap ProgramLine.statements)).1 := by
  induction lines generalizing loops with
  | nil => rfl
  | cons line lines ih =>
      simp only [pairLines, List.flatMap_cons, Stmt.pairAll_append, ih]

theorem map_number_pairLines (loops : Loops) (lines : List (ProgramLine R)) :
    (pairLines loops lines).1.map ActionLine.number = lines.map ProgramLine.number := by
  induction lines generalizing loops with
  | nil => rfl
  | cons line lines ih => simp only [pairLines, List.map_cons, ih]

theorem targets_flatMap (lines : List (ProgramLine R)) :
    Stmt.targets (lines.flatMap ProgramLine.statements) = targetsOf lines := by
  induction lines with
  | nil => rfl
  | cons line lines ih =>
      rw [List.flatMap_cons, Stmt.targets_append, ih]
      rfl

def actions (p : Program R) : List (Action R) :=
  (Stmt.pairAll {} (p.lines.flatMap ProgramLine.statements)).1

theorem flatMap_actionLines (p : Program R) :
    p.actionLines.flatMap ActionLine.actions = p.actions :=
  flatMap_pairLines {} p.lines

/-- A loop that a program has a NEXT of has a FOR in it. -/
theorem mem_forsAll_of_mem_nextsAll (p : Program R) {n : Nat}
    (h : n ∈ Action.nextsAll p.actions) : n ∈ Action.forsAll p.actions := by
  have hnumbered := Stmt.numbered_pairAll Loops.bounded_start
    (p.lines.flatMap ProgramLine.statements)
  obtain ⟨k, hcount, hfors⟩ := hnumbered.fors_eq
  have hzero : ({} : Loops).count = 0 := rfl
  have hle := hnumbered.nexts_le n h
  rw [actions, hfors, List.mem_range'_1]
  omega

variable [NumberSystem R] {p : Program R}

theorem labelsOf_layout (p : Program R) :
    (labelsOf p.layout).Perm (Script.entry ::
      (p.numbers.map lineLabel ++ labelsOf (Action.codeAll 0 p.actions).1)) := by
  have hlabels := labelsOf_linesCode 0 p.actionLines
  have hlines : p.actionLines.map (fun line => lineLabel line.number) =
      p.numbers.map lineLabel := by
    rw [numbers, ← map_number_pairLines {} p.lines, List.map_map]
    rfl
  rw [hlines, flatMap_actionLines] at hlabels
  rw [layout, Action.layout, labelsOf_append, labelsOf_append, List.append_assoc]
  exact List.Perm.cons _ ((List.append_nil _).symm ▸ hlabels)

theorem mem_layout {i : Instruction R String} (h : i ∈ p.layout) :
    i.target? = none ∨ i ∈ (Action.codeAll 0 p.actions).1 := by
  simp only [layout, Action.layout, List.mem_append, List.mem_singleton] at h
  rcases h with (rfl | h) | rfl
  · exact .inl rfl
  · rw [← flatMap_actionLines]
    exact mem_linesCode h
  · exact .inl rfl

/-- The code of a coherent program names only its lines and its loops. -/
theorem Coherent.labelled (h : p.Coherent) :
    ∃ fors b, fors.Nodup ∧
      Labelled 0 fors (Action.outside p.numbers fors) (Action.codeAll 0 p.actions).1 b := by
  have hlabelled := Action.labelled_codeAll 0 p.actions
  obtain ⟨⟨k, hcount, hfors⟩, hnexts, -⟩ := Stmt.numbered_pairAll Loops.bounded_start
    (p.lines.flatMap ProgramLine.statements)
  have hzero : ({} : Loops).count = 0 := rfl
  refine ⟨_, _, hfors ▸ List.nodup_range', hlabelled.mono ?_⟩
  refine List.append_subset.mpr ⟨?_, ?_⟩
  · intro l hl
    obtain ⟨n, hn, rfl⟩ := List.mem_map.mp hl
    rw [actions, Stmt.targets_pairAll, targets_flatMap] at hn
    obtain ⟨t, ht, rfl⟩ := List.mem_map.mp hn
    exact List.mem_append_left _ (List.mem_map_of_mem (h.targets_mem t ht))
  · intro l hl
    obtain ⟨n, hn, rfl⟩ := List.mem_map.mp hl
    refine List.mem_append_right _ (List.mem_map.mpr ⟨n, ?_, rfl⟩)
    have hle := hnexts n hn
    rw [actions, hfors, List.mem_range'_1]
    omega

/-- The layout of a coherent program links. -/
theorem Coherent.links (h : p.Coherent) : ∃ linked, link p.layout = .ok linked := by
  obtain ⟨fors, b, hfors, hlabelled⟩ := h.labelled
  have hlayout := labelsOf_layout p
  rw [link_isOk_iff]
  constructor
  · rw [hlayout.nodup_iff, List.nodup_cons, List.mem_append, not_or, List.nodup_append']
    refine ⟨⟨?_, ?_⟩, h.nodup.map fun _ _ => lineLabel_inj, hlabelled.nodup hfors, ?_⟩
    · intro hmem
      obtain ⟨n, -, hn⟩ := List.mem_map.mp hmem
      exact ne_of_head_ne (by simp) hn
    · intro hmem
      rcases hlabelled.of_mem _ hmem with ⟨j, -, -, hj | hj⟩ | ⟨j, -, hj⟩ <;>
        exact ne_of_head_ne (by simp) hj
    · intro l hl hl'
      obtain ⟨n, -, rfl⟩ := List.mem_map.mp hl
      rcases hlabelled.of_mem _ hl' with ⟨j, -, -, hj | hj⟩ | ⟨j, -, hj⟩ <;>
        exact ne_of_head_ne (by simp) hj
  · intro i hi name hname
    rw [hlayout.mem_iff, List.mem_cons, List.mem_append]
    rcases mem_layout hi with hnone | hmem
    · rw [hnone] at hname
      cases hname
    · rcases hlabelled.target_mem i hmem name hname with hin | hout
      · exact .inr (.inr hin)
      · rcases List.mem_append.mp hout with hline | hloop
        · exact .inr (.inl hline)
        · obtain ⟨n, hn, rfl⟩ := List.mem_map.mp hloop
          exact .inr (.inr (hlabelled.body_mem n hn))

end Program

end LineBasic
