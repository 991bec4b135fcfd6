import LineBasic.Compilation
import LineBasic.Proofs.Pairing
import LineBasic.Proofs.Reachable

/-!
A program is coherent if its lines have different numbers, its targets name lines of it, and its loops pair. Programs that
were read are coherent. Folding and pruning keep a program coherent, and so does tidying as long as the loops still pair.
-/

namespace LineBasic

variable {R : Type}

namespace Expr

mutual

theorem targets_visits : ∀ e : Expr R, e.visits.filterMap Visit.target? = []
  | number _ _ | string _ _ | char _ _ | var _ _ => rfl
  | call _ _ args => by
      simp [visits, targets_visitsAll args, Visit.target?]
  | unary _ _ e => by
      simp [visits, targets_visits e, Visit.target?]
  | binary _ _ l r => by
      simp [visits, targets_visits l, targets_visits r, Visit.target?]

theorem targets_visitsAll :
    ∀ es : List (Expr R), (visitsAll es).filterMap Visit.target? = []
  | [] => rfl
  | e :: es => by
      rw [visitsAll, List.filterMap_append, targets_visits e, targets_visitsAll es,
        List.append_nil]

end

end Expr

namespace Stmt

def ownTargets (s : Stmt R) : List Target :=
  s.visits.filterMap Visit.target?

theorem targets_cons (s : Stmt R) (ss : List (Stmt R)) :
    targets (s :: ss) = s.ownTargets ++ targets ss := by
  rw [targets, visitsAll, List.filterMap_append]
  rfl

theorem targets_append (ss ss' : List (Stmt R)) :
    targets (ss ++ ss') = targets ss ++ targets ss' := by
  induction ss with
  | nil => rfl
  | cons s ss ih => rw [List.cons_append, targets_cons, targets_cons, ih, List.append_assoc]

@[simp] theorem targets_nil : targets ([] : List (Stmt R)) = [] :=
  rfl

@[simp] theorem ownTargets_goto (column : Column) (t : Target) :
    (goto column t : Stmt R).ownTargets = [t] :=
  rfl

@[simp] theorem ownTargets_gosub (column : Column) (t : Target) :
    (gosub column t : Stmt R).ownTargets = [t] :=
  rfl

@[simp] theorem ownTargets_if (column : Column) (condition : Expr R)
    (thenBody elseBody : List (Stmt R)) :
    (Stmt.if column condition thenBody elseBody).ownTargets =
      targets thenBody ++ targets elseBody := by
  simp [ownTargets, visits, Expr.targets_visits, targets, Visit.target?]

/-- Only GOTO, GOSUB and IF have line numbers in them. -/
theorem ownTargets_of_plain {s : Stmt R} (hgoto : ∀ column t, s ≠ goto column t)
    (hgosub : ∀ column t, s ≠ gosub column t)
    (hif : ∀ column condition thenBody elseBody,
      s ≠ .if column condition thenBody elseBody) : s.ownTargets = [] := by
  cases s with
  | goto column t => exact absurd rfl (hgoto column t)
  | gosub column t => exact absurd rfl (hgosub column t)
  | «if» column condition thenBody elseBody => exact absurd rfl (hif _ _ _ _)
  | call _ _ args => simp [ownTargets, visits, Expr.targets_visitsAll, Visit.target?]
  | print _ items => simp [ownTargets, visits, Expr.targets_visitsAll, Visit.target?]
  | «end» _ | rem _ | «return» _ => rfl
  | «let» _ _ e =>
      simp [ownTargets, visits, Expr.targets_visits, Visit.target?, List.filterMap_cons,
        -List.filterMap_eq_nil_iff]
  | next _ v => cases v <;> rfl
  | «for» _ _ start limit step =>
      cases step <;>
        simp [ownTargets, visits, Expr.targets_visits, Visit.target?, List.filterMap_cons,
          -List.filterMap_eq_nil_iff]

end Stmt

namespace Stmt

/-- The loops that are open for the checker and those of the text are the same. -/
def SameOpen (open' : List OpenLoop) (loops : Loops) : Prop :=
  loops.opened.map Loop.name = open'.map OpenLoop.name

/-- What a checked text leads to: its NEXTs close loops, its targets exist, and
both sides know the same open loops behind it. -/
structure Checked (around : Surroundings) (loops : Loops) (marks : List LoopMark)
    (targets : List Target) (open' : List OpenLoop) : Prop where
  accepts : loops.accepts marks
  same : SameOpen open' (loops.marks marks)
  targets_mem : ∀ t ∈ targets, t.line ∈ around.lines

theorem Checked.append {around : Surroundings} {loops : Loops}
    {marks marks' : List LoopMark} {targets targets' : List Target}
    {opened opened' : List OpenLoop} (h : Checked around loops marks targets opened)
    (h' : Checked around (loops.marks marks) marks' targets' opened') :
    Checked around loops (marks ++ marks') (targets ++ targets') opened' where
  accepts := by rw [Loops.accepts_append, h.accepts, h'.accepts, Bool.and_self]
  same := by
    rw [Loops.marks_append]
    exact h'.same
  targets_mem t ht := by
    rcases List.mem_append.mp ht with ht | ht
    · exact h.targets_mem t ht
    · exact h'.targets_mem t ht

/-- A statement without loops and targets. -/
theorem Checked.of_plain {around : Surroundings} {loops : Loops} {opened : List OpenLoop}
    (h : SameOpen opened loops) : Checked around loops [] [] opened where
  accepts := rfl
  same := h
  targets_mem _ ht := by cases ht

theorem Checked.of_target {around : Surroundings} {loops : Loops} {opened : List OpenLoop}
    (h : SameOpen opened loops) {t : Target} (ht : checkTarget around t = .ok ()) :
    Checked around loops [] [t] opened where
  accepts := rfl
  same := h
  targets_mem t' ht' := by
    cases List.mem_singleton.mp ht'
    unfold checkTarget at ht
    split at ht
    · rename_i hmem
      exact List.contains_iff_mem.mp hmem
    · cases ht

theorem bind_eq_ok {ε α β : Type} {x : Except ε α} {f : α → Except ε β} {b : β}
    (h : (x >>= f) = .ok b) : ∃ a, x = .ok a ∧ f a = .ok b := by
  cases x with
  | error e => cases h
  | ok a => exact ⟨a, rfl, h⟩

theorem checked_next {around : Surroundings} {opened opened' : List OpenLoop}
    {loops : Loops} (h : SameOpen opened loops) {column : Column} {v : Option Variable}
    (hcheck : (next column v : Stmt R).check around opened = .ok opened') :
    Checked around loops [.closes v] [] opened' := by
  rw [SameOpen] at h
  cases opened with
  | nil =>
      rw [check] at hcheck
      cases hcheck
  | cons o opened =>
      obtain ⟨loop, rest, hloops⟩ : ∃ loop rest, loops.opened = loop :: rest := by
        cases hl : loops.opened with
        | nil => simp [hl] at h
        | cons loop rest => exact ⟨loop, rest, rfl⟩
      rw [hloops, List.map_cons, List.map_cons, List.cons.injEq] at h
      have hclose : loops.close.opened.map Loop.name = opened.map OpenLoop.name := by
        rw [Loops.close, hloops]
        exact h.2
      cases v with
      | none =>
          rw [check] at hcheck
          cases hcheck
          refine ⟨?_, hclose, fun _ ht => by cases ht⟩
          simp [Loops.accepts, Loops.closed, hloops]
      | some v =>
          rw [check] at hcheck
          split at hcheck
          · rename_i hname
            cases hcheck
            refine ⟨?_, hclose, fun _ ht => by cases ht⟩
            simp [Loops.accepts, Loops.closed, hloops, h.1, hname]
          · cases hcheck

mutual

theorem checked_check {around : Surroundings} {opened opened' : List OpenLoop}
    {loops : Loops} (h : SameOpen opened loops) :
    ∀ s : Stmt R, s.check around opened = .ok opened' →
      Checked around loops s.loopMarks s.ownTargets opened'
  | .end _, hcheck | rem _, hcheck | .return _, hcheck => by
      rw [check] at hcheck
      cases hcheck
      exact Checked.of_plain h
  | goto _ t, hcheck | gosub _ t, hcheck => by
      rw [check] at hcheck
      obtain ⟨_, ht, hrest⟩ := bind_eq_ok hcheck
      cases hrest
      exact Checked.of_target h ht
  | print column items, hcheck => by
      rw [check] at hcheck
      obtain ⟨_, -, hrest⟩ := bind_eq_ok hcheck
      cases hrest
      rw [ownTargets_of_plain (by simp) (by simp) (by simp)]
      exact Checked.of_plain h
  | .let column v e, hcheck => by
      rw [check] at hcheck
      obtain ⟨_, -, hrest⟩ := bind_eq_ok hcheck
      obtain ⟨_, -, hrest⟩ := bind_eq_ok hrest
      cases hrest
      rw [ownTargets_of_plain (by simp) (by simp) (by simp)]
      exact Checked.of_plain h
  | call column name args, hcheck => by
      rw [check] at hcheck
      obtain ⟨_, -, hrest⟩ := bind_eq_ok hcheck
      obtain ⟨_, -, hrest⟩ := bind_eq_ok hrest
      cases hrest
      rw [ownTargets_of_plain (by simp) (by simp) (by simp)]
      exact Checked.of_plain h
  | next column v, hcheck => by
      rw [ownTargets_of_plain (by simp) (by simp) (by simp)]
      exact checked_next h hcheck
  | .for column v start limit step, hcheck => by
      rw [check] at hcheck
      split at hcheck
      · cases hcheck
      · obtain ⟨_, -, hrest⟩ := bind_eq_ok hcheck
        obtain ⟨_, -, hrest⟩ := bind_eq_ok hrest
        have hopened : opened' = ⟨around.line, column, v.name⟩ :: opened := by
          cases step with
          | none =>
              cases hrest
              rfl
          | some step =>
              obtain ⟨_, -, hrest⟩ := bind_eq_ok hrest
              cases hrest
              rfl
        rw [ownTargets_of_plain (by simp) (by simp) (by simp), hopened]
        exact ⟨rfl, congrArg (v.name :: ·) h, fun _ ht => by cases ht⟩
  | .if _ condition thenBody elseBody, hcheck => by
      rw [check] at hcheck
      obtain ⟨_, -, hrest⟩ := bind_eq_ok hcheck
      obtain ⟨opened₁, hthen, helse⟩ := bind_eq_ok hrest
      have hthen := checked_checkAll h thenBody hthen
      rw [ownTargets_if]
      exact hthen.append (checked_checkAll hthen.same elseBody helse)

theorem checked_checkAll {around : Surroundings} {opened opened' : List OpenLoop}
    {loops : Loops} (h : SameOpen opened loops) :
    ∀ ss : List (Stmt R), checkAll around opened ss = .ok opened' →
      Checked around loops (loopMarksAll ss) (targets ss) opened'
  | [], hcheck => by
      rw [checkAll] at hcheck
      cases hcheck
      exact Checked.of_plain h
  | s :: ss, hcheck => by
      rw [checkAll] at hcheck
      obtain ⟨opened₁, hs, hss⟩ := bind_eq_ok hcheck
      have hs := checked_check h s hs
      rw [targets_cons]
      exact hs.append (checked_checkAll hs.same ss hss)

end

end Stmt

namespace Program

def targetsOf (lines : List (ProgramLine R)) : List Target :=
  lines.flatMap fun line => Stmt.targets line.statements

theorem checked_checkLines {registry : Registry} {numbers : List LineNumber}
    {opened opened' : List OpenLoop} {loops : Loops} {lines : List (ProgramLine R)}
    (h : Stmt.SameOpen opened loops)
    (hcheck : checkLines registry numbers opened lines = .ok opened') :
    loops.accepts (loopMarksOf lines) ∧ Stmt.SameOpen opened' (loops.marks (loopMarksOf lines)) ∧
      ∀ t ∈ targetsOf lines, t.line ∈ numbers := by
  induction lines generalizing opened loops with
  | nil =>
      cases hcheck
      exact ⟨rfl, h, by simp [targetsOf]⟩
  | cons line lines ih =>
      rw [checkLines] at hcheck
      split at hcheck
      · cases hcheck
      · rename_i opened₁ hline
        obtain ⟨haccepts, hsame, hmem⟩ := Stmt.checked_checkAll h _ hline
        obtain ⟨haccepts', hsame', hmem'⟩ := ih hsame hcheck
        refine ⟨?_, ?_, ?_⟩
        · rw [loopMarksOf, List.flatMap_cons, Loops.accepts_append, haccepts, Bool.true_and]
          exact haccepts'
        · rw [loopMarksOf, List.flatMap_cons, Loops.marks_append]
          exact hsame'
        · intro t ht
          rw [targetsOf, List.flatMap_cons, List.mem_append] at ht
          rcases ht with ht | ht
          · exact hmem t ht
          · exact hmem' t ht

/-- Lines have different numbers, targets name lines, and loops pair. -/
structure Coherent (p : Program R) : Prop where
  nodup : p.numbers.Nodup
  targets_mem : ∀ t ∈ targetsOf p.lines, t.line ∈ p.numbers
  loopsPair : p.LoopsPair

theorem coherent_of_check {registry : Registry} {p : Program R} (hnodup : p.numbers.Nodup)
    (hcheck : p.check registry = .ok ()) : p.Coherent := by
  rw [check] at hcheck
  cases hlines : checkLines registry p.numbers [] p.lines with
  | error e =>
      rw [hlines] at hcheck
      cases hcheck
  | ok opened =>
      rw [hlines] at hcheck
      have hsame₀ : Stmt.SameOpen [] ({} : Loops) := rfl
      obtain ⟨haccepts, hsame, hmem⟩ := checked_checkLines hsame₀ hlines
      cases opened with
      | nil =>
          exact ⟨hnodup, hmem,
            p.loopsPair_iff.mpr ⟨haccepts, List.map_eq_nil_iff.mp hsame⟩⟩
      | cons o opened => cases hcheck

end Program

namespace LexedLine

theorem ascending_lexAfter {previous : Option LineNumber} {texts : List String}
    {lines : List LexedLine} (h : lexAfter previous texts = .ok lines) :
    (lines.map number).Pairwise (· < ·) ∧
      ∀ n ∈ lines.map number, ∀ m ∈ previous, m < n := by
  induction texts generalizing previous lines with
  | nil =>
      cases h
      simp
  | cons text texts ih =>
      rw [lexAfter] at h
      split at h
      · exact ih h
      · split at h
        · cases h
        · cases h
        · rename_i number content _
          split at h
          · cases h
          · rename_i hprevious
            split at h
            · cases h
            · obtain ⟨rest, hrest, hlines⟩ := Stmt.bind_eq_ok h
              cases hlines
              obtain ⟨hpairwise, hlater⟩ := ih hrest
              have hfirst : ∀ m ∈ previous, m < number := by
                intro m hm
                cases hm
                simpa using hprevious
              simp only [List.map_cons, List.pairwise_cons, List.forall_mem_cons]
              refine ⟨⟨fun n hn => hlater n hn number rfl, hpairwise⟩, hfirst, ?_⟩
              exact fun n hn m hm => Nat.lt_trans (hfirst m hm) (hlater n hn number rfl)

theorem le_of_split {text content : List Char} {n : LineNumber}
    (h : Line.split text = .ok (n, content)) : n ≤ maxLineNumber := by
  unfold Line.split at h
  extract_lets text digits at h
  split at h
  · cases h
  · split at h
    · cases h
      assumption
    · cases h

theorem number_le_lexAfter {previous : Option LineNumber} {texts : List String}
    {lines : List LexedLine} (h : lexAfter previous texts = .ok lines) :
    ∀ n ∈ lines.map number, n ≤ maxLineNumber := by
  induction texts generalizing previous lines with
  | nil =>
      cases h
      simp
  | cons text texts ih =>
      rw [lexAfter] at h
      split at h
      · exact ih h
      · split at h
        · cases h
        · cases h
        · rename_i hsplit
          split at h
          · cases h
          · split at h
            · cases h
            · obtain ⟨rest, hrest, hlines⟩ := Stmt.bind_eq_ok h
              cases hlines
              rw [List.map_cons, List.forall_mem_cons]
              exact ⟨le_of_split hsplit, ih hrest⟩

end LexedLine

namespace Program

variable [NumberSystem R]

theorem numbers_parseLines {lexed : List LexedLine} {lines : List (ProgramLine R)}
    (h : parseLines lexed = .ok lines) :
    lines.map ProgramLine.number = lexed.map LexedLine.number := by
  induction lexed generalizing lines with
  | nil =>
      cases h
      rfl
  | cons line lexed ih =>
      rw [parseLines] at h
      split at h
      · cases h
      · obtain ⟨rest, hrest, hlines⟩ := Stmt.bind_eq_ok h
        cases hlines
        rw [List.map_cons, List.map_cons, ih hrest]

/-- What reading a program comes to. -/
theorem read_eq_ok {registry : Registry} {source : String} {p : Program R}
    (h : read registry source = .ok p) :
    ∃ lexed, LexedLine.lex source = .ok lexed ∧ parseLines lexed = .ok p.lines ∧
      p.check registry = .ok () := by
  rw [read] at h
  obtain ⟨lexed, hlex, h⟩ := Stmt.bind_eq_ok h
  obtain ⟨q, hparse, h⟩ := Stmt.bind_eq_ok h
  obtain ⟨_, hcheck, h⟩ := Stmt.bind_eq_ok h
  cases h
  refine ⟨lexed, ?_, ?_, ?_⟩
  · cases hl : LexedLine.lex source <;> simp_all [Stage.run]
  · cases hl : parse (R := R) lexed with
    | error e => simp_all [Stage.run]
    | ok q' =>
        rw [hl] at hparse
        cases hparse
        rw [parse] at hl
        obtain ⟨lines, hlines, hl⟩ := Stmt.bind_eq_ok hl
        cases hl
        exact hlines
  · cases hl : p.check registry <;> simp_all [Stage.run]

theorem ascending_of_read {registry : Registry} {source : String} {p : Program R}
    (h : read registry source = .ok p) : p.numbers.Pairwise (· < ·) := by
  obtain ⟨lexed, hlex, hparse, -⟩ := read_eq_ok h
  rw [numbers, numbers_parseLines hparse]
  exact (LexedLine.ascending_lexAfter hlex).1

theorem number_le_of_read {registry : Registry} {source : String} {p : Program R}
    (h : read registry source = .ok p) : ∀ n ∈ p.numbers, n ≤ maxLineNumber := by
  obtain ⟨lexed, hlex, hparse, -⟩ := read_eq_ok h
  rw [numbers, numbers_parseLines hparse]
  exact LexedLine.number_le_lexAfter hlex

theorem coherent_of_read {registry : Registry} {source : String} {p : Program R}
    (h : read registry source = .ok p) : p.Coherent := by
  obtain ⟨-, -, -, hcheck⟩ := read_eq_ok h
  exact coherent_of_check ((ascending_of_read h).imp Nat.ne_of_lt) hcheck

end Program

namespace Stmt

variable [NumberSystem R]

theorem tidy_let (column : Column) (v : Variable) (e : Expr R) :
    (Stmt.let column v e).tidy =
      if (Stmt.let column v e).isSelfAssignment then [] else [.let column v e] := by
  rw [tidy] <;> simp

/-- An IF stays an IF, or gives way to one of its bodies, and then there are no
loops in it. -/
theorem tidy_if (column : Column) (condition : Expr R) (thenBody elseBody : List (Stmt R)) :
    (Stmt.if column condition thenBody elseBody).tidy =
        [.if column condition (tidyAll false thenBody) (tidyAll false elseBody)] ∨
      (Stmt.if column condition thenBody elseBody).hasLoop = false ∧
        ((Stmt.if column condition thenBody elseBody).tidy = tidyAll false thenBody ∨
          (Stmt.if column condition thenBody elseBody).tidy = tidyAll false elseBody) := by
  cases condition with
  | number _ n =>
      rw [tidy]
      split
      · exact .inl rfl
      · rename_i hloop
        refine .inr ⟨Bool.not_eq_true _ ▸ hloop, ?_⟩
        split
        · exact .inr rfl
        · exact .inl rfl
  | _ =>
      left
      rw [tidy]
      simp

mutual

theorem loopMarks_fold : ∀ s : Stmt R, s.fold.loopMarks = s.loopMarks
  | call _ _ _ | .end _ | gosub _ _ | goto _ _ | .let _ _ _ | print _ _ | rem _ | .return _ =>
      rfl
  | .for _ _ _ _ _ | next _ _ => rfl
  | .if _ _ thenBody elseBody => by
      rw [fold, loopMarks, loopMarks, loopMarksAll_foldAll thenBody,
        loopMarksAll_foldAll elseBody]

theorem loopMarksAll_foldAll :
    ∀ ss : List (Stmt R), loopMarksAll (foldAll ss) = loopMarksAll ss
  | [] => rfl
  | s :: ss => by
      rw [foldAll, loopMarksAll, loopMarksAll, loopMarks_fold s, loopMarksAll_foldAll ss]

end

mutual

theorem ownTargets_fold : ∀ s : Stmt R, s.fold.ownTargets = s.ownTargets
  | .end _ | gosub _ _ | goto _ _ | rem _ | .return _ | next _ _ => rfl
  | call _ _ _ | .let _ _ _ | print _ _ | .for _ _ _ _ _ => by
      rw [fold, ownTargets_of_plain (by simp) (by simp) (by simp),
        ownTargets_of_plain (by simp) (by simp) (by simp)]
  | .if _ _ thenBody elseBody => by
      rw [fold, ownTargets_if, ownTargets_if, targets_foldAll thenBody,
        targets_foldAll elseBody]

theorem targets_foldAll : ∀ ss : List (Stmt R), targets (foldAll ss) = targets ss
  | [] => rfl
  | s :: ss => by
      rw [foldAll, targets_cons, targets_cons, ownTargets_fold s, targets_foldAll ss]

end

mutual

theorem targets_tidy : ∀ s : Stmt R, targets s.tidy ⊆ s.ownTargets
  | call _ _ _ | .end _ | gosub _ _ | goto _ _ | print _ _ | .return _ | next _ _
  | .for _ _ _ _ _ => by
      simp [tidy, isSelfAssignment, targets_cons]
  | rem _ => List.nil_subset _
  | .let column v e => by
      rw [tidy_let]
      split <;> simp [targets_cons]
  | .if column condition thenBody elseBody => by
      have hthen := targets_tidyAll false thenBody
      have helse := targets_tidyAll false elseBody
      have hwhole : targets [Stmt.if column condition (tidyAll false thenBody)
          (tidyAll false elseBody)] ⊆ targets thenBody ++ targets elseBody := by
        rw [targets_cons, ownTargets_if, targets_nil, List.append_nil]
        exact List.append_subset.mpr ⟨List.subset_append_of_subset_left _ hthen,
          List.subset_append_of_subset_right _ helse⟩
      rw [ownTargets_if]
      rcases tidy_if column condition thenBody elseBody with hkept | ⟨-, hkept | hkept⟩
      · rw [hkept]
        exact hwhole
      · rw [hkept]
        exact List.subset_append_of_subset_left _ hthen
      · rw [hkept]
        exact List.subset_append_of_subset_right _ helse

theorem targets_tidyAll (dead : Bool) :
    ∀ ss : List (Stmt R), targets (tidyAll dead ss) ⊆ targets ss
  | [] => by
      rw [tidyAll]
      exact List.Subset.refl _
  | s :: ss => by
      rw [tidyAll, targets_cons]
      split
      · have hss := targets_tidyAll true ss
        split
        · rw [targets_cons]
          exact List.append_subset.mpr ⟨List.subset_append_left _ _,
            List.subset_append_of_subset_right _ hss⟩
        · exact List.subset_append_of_subset_right _ hss
      · rw [targets_append]
        exact List.append_subset.mpr ⟨List.subset_append_of_subset_left _ (targets_tidy s),
          List.subset_append_of_subset_right _ (targets_tidyAll _ ss)⟩

end

end Stmt

namespace Program

variable {p : Program R}

theorem mem_targetsOf {lines : List (ProgramLine R)} {t : Target} :
    t ∈ targetsOf lines ↔ ∃ line ∈ lines, t ∈ Stmt.targets line.statements :=
  List.mem_flatMap

/-- The loops of lines without those that have none. -/
theorem loopMarksOf_filter {lines : List (ProgramLine R)} {keep : ProgramLine R → Bool}
    (h : ∀ line ∈ lines, Stmt.anyHasLoop line.statements → keep line) :
    loopMarksOf (lines.filter keep) = loopMarksOf lines := by
  induction lines with
  | nil => rfl
  | cons line lines ih =>
      have hrest := ih fun l hl => h l (List.mem_cons_of_mem _ hl)
      rw [List.filter_cons]
      split
      · rw [loopMarksOf, loopMarksOf, List.flatMap_cons, List.flatMap_cons]
        exact congrArg (_ ++ ·) hrest
      · rename_i hdrop
        have hnone : Stmt.loopMarksAll line.statements = [] := by
          rw [Stmt.loopMarksAll_eq_nil_iff, ← Bool.not_eq_true]
          exact fun hloop => hdrop (h line List.mem_cons_self hloop)
        rw [hrest, loopMarksOf, loopMarksOf, List.flatMap_cons, hnone, List.nil_append]

theorem Coherent.prune (h : p.Coherent) : ((Flow.ofProgram p).prune p).Coherent where
  nodup := h.nodup.sublist (List.filter_sublist.map _)
  targets_mem t ht := by
    obtain ⟨line, hline, ht⟩ := mem_targetsOf.mp ht
    obtain ⟨hmem, hkept⟩ := List.mem_filter.mp hline
    have hreach := Flow.isReachable_of_mem_targets h.nodup hmem hkept ht
    obtain ⟨target, htarget, hnumber⟩ :=
      List.mem_map.mp (h.targets_mem t (mem_targetsOf.mpr ⟨line, hmem, ht⟩))
    exact List.mem_map.mpr
      ⟨target, List.mem_filter.mpr ⟨htarget, hnumber ▸ hreach⟩, hnumber⟩
  loopsPair :=
    (loopsPair_congr (loopMarksOf_filter
      fun _ hmem hloop => Flow.isReachable_of_anyHasLoop hmem hloop)).mpr h.loopsPair

variable [NumberSystem R]

theorem Coherent.fold (h : p.Coherent) : p.fold.Coherent where
  nodup := by
    simpa [numbers, Program.fold, Function.comp_def] using h.nodup
  targets_mem t ht := by
    have htargets : targetsOf p.fold.lines = targetsOf p.lines := by
      simp [targetsOf, Program.fold, List.flatMap_map, Stmt.targets_foldAll]
    have hnumbers : p.fold.numbers = p.numbers := by
      simp [numbers, Program.fold, Function.comp_def]
    rw [hnumbers]
    exact h.targets_mem t (htargets ▸ ht)
  loopsPair := by
    refine (loopsPair_congr ?_).mpr h.loopsPair
    simp [loopMarksOf, Program.fold, List.flatMap_map, Stmt.loopMarksAll_foldAll]

theorem Coherent.tidy (h : p.Coherent) (hpair : p.tidy.LoopsPair) : p.tidy.Coherent where
  nodup := by
    simpa [numbers, Program.tidy, Function.comp_def] using h.nodup
  targets_mem t ht := by
    have hnumbers : p.tidy.numbers = p.numbers := by
      simp [numbers, Program.tidy, Function.comp_def]
    obtain ⟨line', hline', ht⟩ := mem_targetsOf.mp ht
    obtain ⟨line, hline, rfl⟩ := List.mem_map.mp hline'
    rw [hnumbers]
    exact h.targets_mem t
      (mem_targetsOf.mpr ⟨line, hline, Stmt.targets_tidyAll false _ ht⟩)
  loopsPair := hpair

end Program

end LineBasic
