import LineBasic.Proofs.Following
import LineBasic.Proofs.Typing

namespace LineBasic

variable {R W : Type}

section

mutual

theorem behind?_isSome_iff {number : Nat} : ∀ (a : Action R) (after : List (Action R)),
    (a.behind? number after).isSome ↔ number ∈ a.fors
  | .for loop _ _ _, after => by
      rw [Action.behind?, Action.fors, List.mem_singleton]
      split
      · simp_all
      · simp_all [eq_comm]
  | .branch _ thenBody elseBody, after => by
      rw [Action.behind?, Action.fors, Option.isSome_or, Bool.or_eq_true, List.mem_append,
        behindAll?_isSome_iff thenBody after, behindAll?_isSome_iff elseBody after]
  | .call _ _, _ | .end, _ | .gosub _, _ | .goto _, _ | .assign _ _, _ | .next _, _
  | .rem, _ | .return, _ => by simp [Action.behind?, Action.fors]

theorem behindAll?_isSome_iff {number : Nat} : ∀ (as after : List (Action R)),
    (behindAll? number after as).isSome ↔ number ∈ Action.forsAll as
  | [], after => by simp [behindAll?, Action.forsAll]
  | a :: as, after => by
      rw [behindAll?, Action.forsAll, Option.isSome_or, Bool.or_eq_true, List.mem_append,
        behind?_isSome_iff a (as ++ after), behindAll?_isSome_iff as after]

end

theorem forsAll_append (as as' : List (Action R)) :
    Action.forsAll (as ++ as') = Action.forsAll as ++ Action.forsAll as' := by
  induction as with
  | nil => rfl
  | cons a as ih => simp [Action.forsAll, ih]

theorem Point.behind?_isSome_iff {number : Nat} {lines : List (ActionLine R)} :
    (behind? number lines).isSome ↔
      number ∈ Action.forsAll (lines.flatMap ActionLine.actions) := by
  induction lines with
  | nil => simp [behind?, Action.forsAll]
  | cons line lines ih =>
      have hline : (behindAll? number [] line.actions).isSome ↔ _ :=
        behindAll?_isSome_iff line.actions []
      rw [behind?, List.flatMap_cons, forsAll_append, List.mem_append, ← hline, ← ih]
      cases behindAll? number [] line.actions <;> simp

theorem Point.at?_isSome_iff {number : LineNumber} {lines : List (ActionLine R)} :
    (at? number lines).isSome ↔ number ∈ lines.map ActionLine.number := by
  induction lines with
  | nil => simp [at?]
  | cons line lines ih =>
      rw [at?, List.map_cons, List.mem_cons]
      split
      · simp_all
      · rename_i hne
        rw [ih, or_iff_right (Ne.symm hne)]

end

/-- Open loops are such as a proper NEXT may close. -/
def Loops.Fine (loops : Loops) : Prop :=
  ∀ loop ∈ loops.opened,
    (IsName loop.name ∧ namesString loop.name = false) ∧
      1 ≤ loop.number ∧ loop.number ≤ loops.count

theorem Loops.count_le_marks (loops : Loops) (ms : List LoopMark) :
    loops.count ≤ (loops.marks ms).count := by
  induction ms generalizing loops with
  | nil => exact Nat.le_refl _
  | cons m ms ih =>
      have hfirst : loops.count ≤ (loops.mark m).count := by
        cases m with
        | opens name => exact Nat.le_succ _
        | closes v => exact Nat.le_refl _
      exact Nat.le_trans hfirst (ih (loops.mark m))

theorem isName_print : IsName "PRINT" :=
  ⟨by decide, by simp [Token.isNamePart, Text.isLetter]⟩

namespace Stmt

variable {registry : Registry} {all : List (ActionLine R)}

mutual

theorem fine_pair {loops : Loops} (h : loops.Fine) : ∀ s : Stmt R, s.Typed registry →
    (∀ n ∈ s.names, IsName n) → (s.pair loops).2.Fine
  | call _ _ _, _, _ | .end _, _, _ | gosub _ _, _, _ | goto _ _, _, _ | .let _ _ _, _, _
  | print _ _, _, _ | rem _, _, _ | .return _, _, _ => h
  | .for _ v _ _ _, htyped, hnames => by
      intro loop hloop
      rcases List.mem_cons.mp hloop with rfl | hloop
      · exact ⟨⟨hnames v.name List.mem_cons_self, htyped.1⟩, Nat.le_add_left 1 _,
          Nat.le_refl _⟩
      · obtain ⟨hname, hpositive, hle⟩ := h loop hloop
        exact ⟨hname, hpositive, Nat.le_succ_of_le hle⟩
  | next _ _, _, _ => fun loop hloop => h loop (List.mem_of_mem_tail hloop)
  | .if _ condition thenBody elseBody, htyped, hnames => by
      simp only [names, List.mem_append, or_imp, forall_and] at hnames
      exact fine_pairAll (fine_pairAll h thenBody htyped.2.1 hnames.1.2) elseBody
        htyped.2.2 hnames.2

theorem fine_pairAll {loops : Loops} (h : loops.Fine) : ∀ ss : List (Stmt R),
    AllTyped registry ss → (∀ n ∈ namesAll ss, IsName n) → (pairAll loops ss).2.Fine
  | [], _, _ => h
  | s :: ss, htyped, hnames => by
      simp only [namesAll, List.mem_append, or_imp, forall_and] at hnames
      exact fine_pairAll (fine_pair h s htyped.1 hnames.1) ss htyped.2 hnames.2

end

theorem count_le_pairAll (loops : Loops) (ss : List (Stmt R)) :
    loops.count ≤ (pairAll loops ss).2.count := by
  rw [pairAll_snd]
  exact loops.count_le_marks _

mutual

theorem proper_pair {loops : Loops} (h : loops.Fine) : ∀ s : Stmt R, s.Typed registry →
    (∀ n ∈ s.names, IsName n) → (∀ t ∈ s.ownTargets, (Point.at? t.line all).isSome) →
    (∀ n, 1 ≤ n → n ≤ (s.pair loops).2.count → (Point.behind? n all).isSome) →
    (s.pair loops).1.isPaired → (s.pair loops).1.Proper all
  | .end _, _, _, _, _, _ | rem _, _, _, _, _, _ | .return _, _, _, _, _, _ => trivial
  | gosub _ t, _, _, htargets, _, _ | goto _ t, _, _, htargets, _, _ =>
      htargets t (List.mem_singleton.mpr rfl)
  | call _ name args, _, hnames, _, _, _ =>
      ⟨hnames name List.mem_cons_self, fun n hn => hnames n (List.mem_cons_of_mem _ hn)⟩
  | print _ items, _, hnames, _, _, _ => ⟨isName_print, hnames⟩
  | .let _ v e, _, hnames, _, _, _ =>
      ⟨hnames v.name List.mem_cons_self, fun n hn => hnames n (List.mem_cons_of_mem _ hn)⟩
  | .for _ v start limit step, _, hnames, _, _, _ => by
      simp only [names, List.mem_cons, List.mem_append, or_imp, forall_and,
        forall_eq] at hnames
      refine ⟨hnames.1, hnames.2.1.1, hnames.2.1.2, ?_⟩
      intro e he
      cases he
      exact hnames.2.2
  | next _ v, _, _, _, hknown, hpaired => by
      rw [pair] at hpaired ⊢
      cases hclosed : loops.closed v with
      | none =>
          rw [hclosed] at hpaired
          cases hpaired
      | some loop =>
          obtain ⟨⟨hname, hnumber⟩, hpositive, hle⟩ := h loop (Loops.mem_of_closed hclosed)
          exact ⟨hname, hnumber, hknown loop.number hpositive hle⟩
  | .if _ condition thenBody elseBody, htyped, hnames, htargets, hknown, hpaired => by
      simp only [names, List.mem_append, or_imp, forall_and] at hnames
      simp only [ownTargets_if, List.mem_append, or_imp, forall_and] at htargets
      rw [pair, Action.isPaired, Bool.and_eq_true] at hpaired
      have hfine := fine_pairAll h thenBody htyped.2.1 hnames.1.2
      refine ⟨hnames.1.1, ?_, ?_⟩
      · refine proper_pairAll h thenBody htyped.2.1 hnames.1.2 htargets.1 ?_ hpaired.1
        exact fun n hpositive hle =>
          hknown n hpositive (Nat.le_trans hle (count_le_pairAll _ elseBody))
      · exact proper_pairAll hfine elseBody htyped.2.2 hnames.2 htargets.2 hknown hpaired.2

theorem proper_pairAll {loops : Loops} (h : loops.Fine) : ∀ ss : List (Stmt R),
    AllTyped registry ss → (∀ n ∈ namesAll ss, IsName n) →
    (∀ t ∈ targets ss, (Point.at? t.line all).isSome) →
    (∀ n, 1 ≤ n → n ≤ (pairAll loops ss).2.count → (Point.behind? n all).isSome) →
    Action.allPaired (pairAll loops ss).1 → Action.AllProper all (pairAll loops ss).1
  | [], _, _, _, _, _ => trivial
  | s :: ss, htyped, hnames, htargets, hknown, hpaired => by
      simp only [namesAll, List.mem_append, or_imp, forall_and] at hnames
      simp only [targets_cons, List.mem_append, or_imp, forall_and] at htargets
      rw [pairAll, Action.allPaired, Bool.and_eq_true] at hpaired
      have hfine := fine_pair h s htyped.1 hnames.1
      refine ⟨?_, ?_⟩
      · refine proper_pair h s htyped.1 hnames.1 htargets.1 ?_ hpaired.1
        exact fun n hpositive hle =>
          hknown n hpositive (Nat.le_trans hle (count_le_pairAll _ ss))
      · exact proper_pairAll hfine ss htyped.2 hnames.2 htargets.2 hknown hpaired.2

end

end Stmt

namespace Program

variable {p : Program R}

theorem allProper_flatMap {all lines : List (ActionLine R)}
    (h : Action.AllProper all (lines.flatMap ActionLine.actions)) :
    ∀ line ∈ lines, Action.AllProper all line.actions := by
  induction lines with
  | nil => simp
  | cons line lines ih =>
      rw [List.flatMap_cons, Action.allProper_append] at h
      rw [List.forall_mem_cons]
      exact ⟨h.1, ih h.2⟩

theorem allPaired_actions (h : p.LoopsPair) : Action.allPaired p.actions := by
  have haccepts := (p.loopsPair_iff.mp h).1
  have hmarks : loopMarksOf p.lines =
      Stmt.loopMarksAll (p.lines.flatMap ProgramLine.statements) := by
    induction p.lines with
    | nil => rfl
    | cons line lines ih =>
        rw [List.flatMap_cons, Stmt.loopMarksAll_append, ← ih]
        rfl
  rw [hmarks] at haccepts
  exact (Stmt.allPaired_pairAll _ _).trans haccepts

theorem Sound.allTyped {registry : Registry} (h : p.Sound registry) :
    Stmt.AllTyped registry (p.lines.flatMap ProgramLine.statements) := by
  rw [Stmt.allTyped_iff]
  intro s hs
  obtain ⟨line, hline, hs⟩ := List.mem_flatMap.mp hs
  exact Stmt.allTyped_iff.mp (h.typed line hline) s hs

theorem Sound.isName_namesAll {registry : Registry} (h : p.Sound registry) :
    ∀ n ∈ Stmt.namesAll (p.lines.flatMap ProgramLine.statements), IsName n := by
  intro n hn
  obtain ⟨s, hs, hn⟩ := Stmt.mem_namesAll.mp hn
  obtain ⟨line, hline, hs⟩ := List.mem_flatMap.mp hs
  exact h.isName n (List.mem_flatMap.mpr
    ⟨line, hline, Stmt.mem_namesAll.mpr ⟨s, hs, hn⟩⟩)

/-- The actions of a sound program are proper. -/
theorem Sound.proper {registry : Registry} (h : p.Sound registry) :
    ∀ line ∈ p.actionLines, Action.AllProper p.actionLines line.actions := by
  have hnumbered := Stmt.numbered_pairAll Loops.bounded_start
    (p.lines.flatMap ProgramLine.statements)
  obtain ⟨k, hcount, hfors⟩ := hnumbered.fors_eq
  have hzero : ({} : Loops).count = 0 := rfl
  refine allProper_flatMap ?_
  rw [flatMap_actionLines]
  refine Stmt.proper_pairAll (by simp [Loops.Fine]) _ h.allTyped h.isName_namesAll ?_ ?_
    (allPaired_actions h.coherent.loopsPair)
  · intro t ht
    rw [targets_flatMap] at ht
    rw [Point.at?_isSome_iff, actionLines, map_number_pairLines]
    exact h.coherent.targets_mem t ht
  · intro n hpositive hle
    rw [Point.behind?_isSome_iff, flatMap_actionLines, actions, hfors, List.mem_range'_1]
    omega

end Program

variable [NumberSystem R]

namespace LinkedCode

variable {lines : List (ActionLine R)} {linked : LinkedCode R}

/-- The parts of a layout where they stand. -/
theorem placed_layout (h : link (Action.layout lines) = .ok linked) :
    linked.labels[Script.entry]? = some 0 ∧
      linked.Placed 0 (Action.linesCode 0 lines).1 ∧
      linked.code[0 + widthOf (Action.linesCode 0 lines).1]? = some .end := by
  have hplaced := placed_of_link h
  have hentryWidth : widthOf [(.label Script.entry : Instruction R String)] = 0 := rfl
  rw [Action.layout, placed_append, placed_append, widthOf_append, hentryWidth,
    Nat.zero_add (widthOf _)] at hplaced
  obtain ⟨⟨⟨hentry, -⟩, hlines⟩, hend, -⟩ := hplaced
  exact ⟨hentry, hlines, code_of_holds hend rfl rfl⟩

omit [NumberSystem R] in
theorem length_linesCode_le [NumberSystem R]
    (hroom : (Action.layout lines).length ≤ Program.maxCode) :
    (Action.linesCode 0 lines).1.length ≤ Stack.capacity := by
  simp only [Action.layout, List.length_append] at hroom
  exact Nat.le_trans (by omega) hroom

theorem labels_layout (h : link (Action.layout lines) = .ok linked)
    (hproper : ∀ line ∈ lines, Action.AllProper lines line.actions)
    (hroom : (Action.layout lines).length ≤ Program.maxCode) : linked.Labels lines := by
  obtain ⟨-, hplaced, hend⟩ := placed_layout h
  have hlength := length_linesCode_le hroom
  exact ⟨fun _ _ hpoint => leadsTo_at? hproper hplaced hlength hend hpoint,
    fun _ _ hpoint => leadsTo_behindLines? hproper hplaced hlength hend hpoint⟩

theorem ahead_layout (h : link (Action.layout lines) = .ok linked)
    (hproper : ∀ line ∈ lines, Action.AllProper lines line.actions)
    (hroom : (Action.layout lines).length ≤ Program.maxCode) :
    linked.Ahead lines 0 ⟨[], lines⟩ := by
  obtain ⟨-, hplaced, hend⟩ := placed_layout h
  exact ahead_linesCode hproper hplaced (length_linesCode_le hroom) hend

end LinkedCode

namespace LinkedCode

variable {linked : LinkedCode R} {lines : List (ActionLine R)}

theorem Ahead.proper {address : Nat} {point : Point R}
    (h : linked.Ahead lines address point) {action : Action R} {rest : List (Action R)}
    (hpoint : point.rest = action :: rest) : action.Proper lines := by
  induction h with
  | stop _ => cases hpoint
  | line _ _ _ => cases hpoint
  | action hproper _ _ _ _ =>
      cases hpoint
      exact hproper
  | jump _ _ ih => exact ih hpoint

end LinkedCode

theorem Moment.next_depth (natives : Natives R W) (lines : List (ActionLine R)) (t : Moment R)
    {depth : Nat} (h : t.returns.length < depth ∨
      ∀ line rest, t.point.rest ≠ .gosub line :: rest) :
    t.next natives none lines = t.next natives (some depth) lines := by
  rcases t with ⟨⟨rest, later⟩, vars, limits, steps, returns⟩
  unfold next
  cases rest with
  | nil => cases later <;> rfl
  | cons action rest =>
      cases action with
      | gosub line =>
          rcases h with hlt | hne
          · have hlt : returns.length < depth := hlt
            simp [Action.perform, remember, hlt]
          · exact absurd rfl (hne line rest)
      | next loop => cases loop <;> rfl
      | _ => rfl

namespace Machine

variable {m : Machine R W} {lines : List (ActionLine R)}

/-- The states of a machine and of a program that belong together. -/
def KeepsUp (m : Machine R W) (lines : List (ActionLine R)) (s : Registers R × W)
    (t : Moment R × W) : Prop :=
  s.2 = t.2 ∧ m.Follows lines t.1 s.1

def leftOfLine (_ : Registers R × W) (t : Moment R × W) : Nat :=
  t.1.point.rest.length

/-- The round that follows when a machine comes up with the next step. -/
abbrev NextRound (m : Machine R W) (depth : Option Nat) (lines : List (ActionLine R)) :=
  Process.Round m.process (interpretation m.native? depth lines) (m.KeepsUp lines) leftOfLine

theorem Runs.round {depth : Option Nat} {t : Moment R} {start : Registers R → Prop}
    (h : m.Runs 1 start (t.next m.native? depth lines) (m.Follows lines)) {r : Registers R}
    (hr : start r) (w : W) : m.NextRound depth lines (r, w) (t, w) := by
  have h := h r w hr
  rcases hnext : t.next m.native? depth lines w with ⟨v | t', w'⟩ <;> rw [hnext] at h
  · refine .close h (.of_step ?_)
    simp only [interpretation, hnext]
  · obtain ⟨n, r', hn, hfollows⟩ := h
    have hkeeps : m.KeepsUp lines (r', w') (t', w') := ⟨rfl, hfollows⟩
    refine .pass ⟨n, hn⟩ (.of_step ?_) hkeeps
    simp only [interpretation, hnext]

theorem NextRound.behind {depth : Option Nat} {r r' : Registers R} {t : Moment R} {w : W}
    (hstep : m.process.step (r, w) = .inl (r', w))
    (h : m.NextRound depth lines (r', w) (t, w)) : m.NextRound depth lines (r, w) (t, w) := by
  have hreach := Process.Reaches.of_step hstep
  cases h with
  | pass hP hQ hrel => exact .pass (hreach.trans_passes hP) hQ hrel
  | stay hP hQ hrel hlt => exact .stay (hreach.trans hP) hQ hrel hlt
  | close hP hQ => exact .close (hreach.endsWith hP) hQ

theorem runs_perform (h : m.hook = none) (hlabels : m.linked.Labels lines)
    {action : Action R} (hproper : action.Proper lines) (hrem : action ≠ .rem)
    {address b : Nat} (hplaced : m.linked.Placed address (action.code b).1)
    (hroom : (action.code b).1.length ≤ Stack.capacity) {t : Moment R}
    (hahead : m.linked.Ahead lines (address + LinkedCode.widthOf (action.code b).1) t.point)
    {memory : Std.TreeMap String (Value R)} {returns : List Nat}
    (hready : m.Ready lines memory returns t) :
    m.Runs 1 (Registers.Stand address [] memory returns)
      (action.perform m.native? (some Stack.capacity) lines t) (m.Follows lines) := by
  cases action with
  | call name args => exact runs_performCall h hproper.2 hplaced hroom hahead hready
  | «end» =>
      refine Runs.of_execute h (LinkedCode.code_of_holds hplaced.1 rfl rfl) fun r w _ => ?_
      exact ⟨rfl, rfl⟩
  | «for» loop start limit step =>
      exact runs_performFor h hproper hplaced hroom hahead hready
  | gosub line => exact runs_performGosub h hlabels hproper hplaced hahead hready
  | goto line => exact runs_performGoto h hlabels hproper hplaced hready
  | branch condition thenBody elseBody =>
      exact runs_performBranch h hproper hplaced hroom hahead hready
  | assign name e =>
      exact runs_performAssign h hproper.1 hproper.2 hplaced hroom hahead hready
  | next loop =>
      cases loop with
      | none => exact hproper.elim
      | some loop => exact runs_performNext h hlabels hproper hplaced hahead hready
  | rem => exact absurd rfl hrem
  | «return» => exact runs_performReturn h hplaced hready

/-- A machine that follows a program comes to follow it again, or ends as it
does. -/
theorem round_of_ahead (h : m.hook = none) (hlabels : m.linked.Labels lines) {address : Nat}
    {point : Point R} (hahead : m.linked.Ahead lines address point) {t : Moment R}
    (hpoint : t.point = point) {depth : Option Nat}
    (hdepth : t.next m.native? depth lines = t.next m.native? (some Stack.capacity) lines)
    {memory : Std.TreeMap String (Value R)} {returns : List Nat}
    (hready : m.Ready lines memory returns t) {r : Registers R}
    (hr : Registers.Stand address [] memory returns r) (w : W) :
    m.NextRound depth lines (r, w) (t, w) := by
  induction hahead generalizing r with
  | stop hend =>
      have hnext : t.next m.native? depth lines = Effect.stop .finished := by
        rw [Moment.next, hpoint]
      refine Runs.round (hnext ▸ ?_) hr w
      exact Runs.of_execute h hend fun _ _ _ => ⟨rfl, rfl⟩
  | @line address line later hline hlater _ =>
      have hnext : t.next m.native? depth lines =
          (pure { t with point := ⟨line.actions, later⟩ } : Effect W (Moment R)) := by
        rw [Moment.next, hpoint]
      refine Runs.round (hnext ▸ ?_) hr w
      refine Runs.of_execute h hline fun r w hr => ⟨rfl, ?_⟩
      exact (hready.goTo ⟨line.actions, later⟩).follows hlater
        ⟨congrArg (· + 1) hr.address_eq, hr.items_eq, hr.memory_eq, hr.returns_eq⟩
  | @action address b action rest later hproper hplaced hroom hrest _ =>
      have hnext : t.next m.native? depth lines =
          action.perform m.native? (some Stack.capacity) lines
            { t with point := ⟨rest, later⟩ } := by
        rw [hdepth, Moment.next, hpoint]
      have hready' := hready.goTo ⟨rest, later⟩
      by_cases hrem : action = .rem
      · -- a comment has no code, so the machine stays where it is
        subst hrem
        have hkeeps : m.KeepsUp lines (r, w) ({ t with point := ⟨rest, later⟩ }, w) :=
          ⟨rfl, hready'.follows hrest hr⟩
        refine .stay (.refl _ _) (.of_step ?_) hkeeps ?_
        · simp only [interpretation, hnext, Action.perform]
          rfl
        · rw [leftOfLine, leftOfLine, hpoint]
          exact Nat.lt_succ_self _
      · exact Runs.round
          (hnext ▸ runs_perform h hlabels hproper hrem hplaced hroom hrest hready') hr w
  | @jump address target point hjump _ ih =>
      have hi : m.linked.code[r.address]? = some (.jump target) := by rwa [hr.address_eq]
      have hstep : m.process.step (r, w) = .inl ({ m.ticked r with address := target }, w) := by
        simp only [process, step_of_no_hook h hi, execute, pollingBack_of_no_hook h,
          Registers.goTo]
      exact .behind hstep (ih hpoint ⟨rfl, hr.items_eq, hr.memory_eq, hr.returns_eq⟩)

theorem KeepsUp.round (h : m.hook = none) (hlabels : m.linked.Labels lines)
    {s : Registers R × W} {t : Moment R × W} (hst : m.KeepsUp lines s t) {depth : Option Nat}
    (hdepth : t.1.next m.native? depth lines =
      t.1.next m.native? (some Stack.capacity) lines) : m.NextRound depth lines s t := by
  obtain ⟨r, w⟩ := s
  obtain ⟨t, w'⟩ := t
  obtain ⟨rfl, hfollows⟩ := hst
  exact round_of_ahead h hlabels hfollows.ahead rfl hdepth
    ⟨hfollows.remembers, hfollows.returns⟩ ⟨rfl, hfollows.items_eq, rfl, rfl⟩ w

end Machine

/-- No run from the start on has more GOSUBs waiting for their RETURN than the
machine can hold. -/
def Moment.NestsWithin (natives : Natives R W) (lines : List (ActionLine R)) (w : W) : Prop :=
  ∀ t w', (interpretation natives none lines).Reaches (Moment.start lines, w) (t, w') →
    t.returns.length ≤ Stack.capacity

theorem Machine.Follows.next_depth {m : Machine R W} {lines : List (ActionLine R)}
    {r : Registers R} {t : Moment R} (h : m.Follows lines t r) {w₀ w : W}
    (hnests : Moment.NestsWithin m.native? lines w₀)
    (hreach : (interpretation m.native? none lines).Reaches (Moment.start lines, w₀) (t, w)) :
    t.next m.native? none lines = t.next m.native? (some Stack.capacity) lines := by
  refine t.next_depth m.native? lines ?_
  by_cases hgosub : ∃ line rest, t.point.rest = .gosub line :: rest
  · obtain ⟨line, rest, hrest⟩ := hgosub
    -- a GOSUB without room would lead to a place that nests too deep
    refine .inl (Nat.lt_of_not_le fun hfull => ?_)
    have hproper : (Point.at? line lines).isSome := h.ahead.proper hrest
    obtain ⟨point, hpoint⟩ := Option.isSome_iff_exists.mp hproper
    have hdeep := hnests
      { t with point, returns := ⟨rest, t.point.lines⟩ :: t.returns } w ?_
    · rw [List.length_cons] at hdeep
      omega
    · refine hreach.trans (.of_step ?_)
      rcases t with ⟨⟨rest', later⟩, vars, limits, steps, returns⟩
      subst hrest
      simp only [interpretation, Moment.next, Action.perform, Moment.remember, Option.all_none,
        if_true, hpoint]
      rfl
  · exact .inr fun line rest hrest => hgosub ⟨line, rest, hrest⟩

/-- The code of proper lines does what the lines say: a machine without a hook
makes the same native calls in the same order and ends in the same way, if at
all, where at most so many GOSUBs wait for their RETURN as the machine can hold,
and without that limit if no more ever wait. -/
theorem same_interpretation {lines : List (ActionLine R)}
    (hproper : ∀ line ∈ lines, Action.AllProper lines line.actions)
    (hroom : (Action.layout lines).length ≤ Program.maxCode) (m : Machine R W) (w : W)
    (hlinked : LinkedCode.link (Action.layout lines) = .ok m.linked) (hhook : m.hook = none) :
    ∃ r, m.start Script.entry = .ok r ∧
      Process.Same m.noting.process notedCalls (r, (w, []))
        (interpretation m.native?.noting (some Stack.capacity) lines) notedCalls
        (Moment.start lines, (w, [])) ∧
      (Moment.NestsWithin m.native?.noting lines (w, []) →
        Process.Same m.noting.process notedCalls (r, (w, []))
          (interpretation m.native?.noting none lines) notedCalls
          (Moment.start lines, (w, []))) := by
  have hlabels := LinkedCode.labels_layout hlinked hproper hroom
  have hstart : m.start Script.entry = .ok { address := 0, countdown := m.period } := by
    rw [Machine.start, (LinkedCode.placed_layout hlinked).1]
  have hnoting : m.noting.hook = none := by rw [Machine.noting, hhook, Option.map_none]
  have hkeeps : m.noting.KeepsUp lines ({ address := 0, countdown := m.period }, (w, []))
      (Moment.start lines, (w, [])) :=
    ⟨rfl, LinkedCode.ahead_layout hlinked hproper hroom, rfl, remembers_start _, .nil⟩
  have hgrows (depth : Option Nat) :
      (interpretation m.noting.native? depth lines).Grows notedCalls := by
    rw [Machine.native?_noting]
    exact interpretation_grows _ _ _
  rw [← Machine.native?_noting]
  refine ⟨_, hstart, ?_, fun hnests => ?_⟩
  · refine Process.Same.of_rounds (m.noting.KeepsUp lines) Machine.leftOfLine
      m.grows_noting (hgrows _) (fun s t hst => ?_) (fun _ => rfl)
      (fun s t hst => hst.round hnoting hlabels rfl) hkeeps
    exact congrArg Prod.snd hst.1
  · refine Process.Same.of_rounds
      (fun s t => m.noting.KeepsUp lines s t ∧
        (interpretation m.noting.native? none lines).Reaches (Moment.start lines, (w, [])) t)
      Machine.leftOfLine m.grows_noting (hgrows _) (fun s t hst => ?_) (fun _ => rfl)
      (fun s t hst => ?_) ⟨hkeeps, .refl _ _⟩
    · exact congrArg Prod.snd hst.1.1
    · exact (hst.1.round hnoting hlabels (hst.1.2.next_depth hnests hst.2)).of_reaches hst.2

/-- The code of a program that was read does what the program says. -/
theorem code_correct {registry : Registry} {source : String} {p : Program R}
    (hread : Program.read registry source = .ok p) {code : List (Instruction R String)}
    (hcode : p.code = .ok code) :
    ∃ linked, LinkedCode.link code = .ok linked ∧
      ∀ (m : Machine R W) (w : W), m.linked = linked → m.hook = none →
        ∃ r, m.start Script.entry = .ok r ∧
          Process.Same m.noting.process notedCalls (r, (w, []))
            (interpretation m.native?.noting (some Stack.capacity) p.actionLines) notedCalls
            (Moment.start p.actionLines, (w, [])) ∧
          (Moment.NestsWithin m.native?.noting p.actionLines (w, []) →
            Process.Same m.noting.process notedCalls (r, (w, []))
              (interpretation m.native?.noting none p.actionLines) notedCalls
              (Moment.start p.actionLines, (w, []))) := by
  have hsound := Program.sound_of_read hread
  obtain ⟨-, hroom, rfl⟩ := Program.code_eq_ok_iff.mp hcode
  obtain ⟨linked, hlinked⟩ := hsound.coherent.links
  refine ⟨linked, hlinked, fun m w hm hhook => ?_⟩
  exact same_interpretation hsound.proper hroom m w (hm ▸ hlinked) hhook

theorem code_correct_gosub :
    ∃ (p : Program Float) (code : List (Instruction Float String))
      (linked : LinkedCode Float) (r : Registers Float),
      Program.read .empty "10 GOSUB 30\n20 END\n30 RETURN" = .ok p ∧ p.code = .ok code ∧
        LinkedCode.link code = .ok linked ∧
        ({ linked } : Machine Float Unit).start Script.entry = .ok r ∧
        Process.Same ({ linked } : Machine Float Unit).noting.process notedCalls (r, ((), []))
          (interpretation ({ linked } : Machine Float Unit).native?.noting
            (some Stack.capacity) p.actionLines) notedCalls
          (Moment.start p.actionLines, ((), [])) := by
  have hread : ((Program.read (R := Float) .empty "10 GOSUB 30\n20 END\n30 RETURN").toOption.map
      fun p => p.code.isOk) = some true := by
    decide +kernel
  cases hp : Program.read (R := Float) .empty "10 GOSUB 30\n20 END\n30 RETURN" with
  | error e =>
      rw [hp] at hread
      cases hread
  | ok p =>
      rw [hp] at hread
      cases hcode : p.code with
      | error e => simp [Except.toOption, hcode, Except.isOk, Except.toBool] at hread
      | ok code =>
          obtain ⟨linked, hlinked, h⟩ := code_correct hp hcode (W := Unit)
          obtain ⟨r, hr, hsame, -⟩ := h { linked } () rfl rfl
          exact ⟨p, code, linked, r, rfl, hcode, hlinked, hr, hsame⟩

end LineBasic
