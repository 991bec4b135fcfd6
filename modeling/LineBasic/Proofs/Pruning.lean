import LineBasic.Proofs.Alike
import LineBasic.Proofs.Correctness

namespace LineBasic

variable {R W : Type}

namespace Action

/-- Control never comes to what stands behind the action. -/
def isTerminal : Action R → Bool
  | .end | goto _ | .return => true
  | _ => false

/-- Control never comes to the end of the actions. -/
def endsElsewhere (as : List (Action R)) : Bool :=
  (as.getLast?.map isTerminal).getD false

theorem targetsAll_append (as as' : List (Action R)) :
    targetsAll (as ++ as') = targetsAll as ++ targetsAll as' := by
  induction as with
  | nil => rfl
  | cons a as ih => rw [List.cons_append, targetsAll, targetsAll, ih, List.append_assoc]

theorem endsElsewhere_append (as : List (Action R)) {as' : List (Action R)} (h : as' ≠ []) :
    endsElsewhere (as ++ as') = endsElsewhere as' := by
  rw [endsElsewhere, endsElsewhere, List.getLast?_append_of_ne_nil _ h]

theorem endsElsewhere_cons (a : Action R) {as : List (Action R)} (h : as ≠ []) :
    endsElsewhere (a :: as) = endsElsewhere as :=
  endsElsewhere_append [a] h

/-- Behind an action that control comes through, the end is reached if it was
before. -/
theorem endsElsewhere_of_behind {a : Action R} (ha : a.isTerminal = false)
    {as : List (Action R)} (h : endsElsewhere as = false) : endsElsewhere (a :: as) = false := by
  by_cases has : as = []
  · subst has
    exact ha
  · rw [endsElsewhere_cons a has, h]

theorem endsElsewhere_of_body {a : Action R} (body : List (Action R))
    (ha : a.isTerminal = false) {as : List (Action R)} (h : endsElsewhere (body ++ as) = false) :
    endsElsewhere (a :: as) = false := by
  by_cases has : as = []
  · subst has
    exact ha
  · rw [endsElsewhere_append body has] at h
    rw [endsElsewhere_cons a has, h]

mutual

theorem behind?_targets {k : Nat} {after rest : List (Action R)} : ∀ {a : Action R},
    a.behind? k after = some rest → targetsAll rest ⊆ a.targets ++ targetsAll after
  | .for loop _ _ _, h => by
      obtain ⟨-, hafter⟩ := Option.ite_none_right_eq_some.mp h
      cases hafter
      exact List.subset_append_right _ _
  | branch _ thenBody elseBody, h => by
      rw [behind?, Option.or_eq_some_iff] at h
      rw [targets]
      rcases h with h | ⟨-, h⟩
      · refine List.Subset.trans (behindAll?_targets h) ?_
        intro n hn
        simp only [List.mem_append] at hn ⊢
        tauto
      · refine List.Subset.trans (behindAll?_targets h) ?_
        intro n hn
        simp only [List.mem_append] at hn ⊢
        tauto
  | call _ _, h | .end, h | gosub _, h | goto _, h | assign _ _, h | next _, h | rem, h
  | .return, h => by cases h

theorem behindAll?_targets {k : Nat} {after rest : List (Action R)} : ∀ {as : List (Action R)},
    behindAll? k after as = some rest → targetsAll rest ⊆ targetsAll as ++ targetsAll after
  | a :: as, h => by
      rw [behindAll?, Option.or_eq_some_iff] at h
      rw [targetsAll]
      rcases h with h | ⟨-, h⟩
      · have hsubset := behind?_targets h
        rw [targetsAll_append] at hsubset
        rw [List.append_assoc]
        exact hsubset
      · rw [List.append_assoc]
        exact List.subset_append_of_subset_right _ (behindAll?_targets h)

end

mutual

theorem behind?_endsElsewhere {k : Nat} {after rest : List (Action R)} : ∀ {a : Action R},
    a.behind? k after = some rest → endsElsewhere rest = false →
    endsElsewhere (a :: after) = false
  | .for _ _ _ _, h, hend => by
      obtain ⟨-, hafter⟩ := Option.ite_none_right_eq_some.mp h
      cases hafter
      exact endsElsewhere_of_behind rfl hend
  | branch condition thenBody elseBody, h, hend => by
      have hbody (body : List (Action R)) (hbody : endsElsewhere (body ++ after) = false) :
          endsElsewhere (branch condition thenBody elseBody :: after) = false :=
        endsElsewhere_of_body body rfl hbody
      rw [behind?, Option.or_eq_some_iff] at h
      rcases h with h | ⟨-, h⟩
      · exact hbody thenBody (behindAll?_endsElsewhere h hend)
      · exact hbody elseBody (behindAll?_endsElsewhere h hend)
  | call _ _, h, _ | .end, h, _ | gosub _, h, _ | goto _, h, _ | assign _ _, h, _
  | next _, h, _ | rem, h, _ | .return, h, _ => by cases h

theorem behindAll?_endsElsewhere {k : Nat} {after rest : List (Action R)} :
    ∀ {as : List (Action R)}, behindAll? k after as = some rest → endsElsewhere rest = false →
    endsElsewhere (as ++ after) = false
  | a :: as, h, hend => by
      rw [behindAll?, Option.or_eq_some_iff] at h
      rcases h with h | ⟨-, h⟩
      · exact behind?_endsElsewhere h hend
      · have hne : as ++ after ≠ [] := by
          rintro hnil
          obtain ⟨rfl, -⟩ := List.append_eq_nil_iff.mp hnil
          cases h
        rw [List.cons_append, endsElsewhere_cons a hne]
        exact behindAll?_endsElsewhere h hend

end

end Action

open LineBasic.Action

variable {keep : LineNumber → Bool} {lines : List (ActionLine R)}

/-- The lines that are kept lead to kept lines only, and the first line and all
lines with loops are among them. -/
structure Prunable (keep : LineNumber → Bool) (lines : List (ActionLine R)) : Prop where
  first : ∀ line ∈ lines.head?, keep line.number
  loops : ∀ line ∈ lines, forsAll line.actions ≠ [] → keep line.number
  targets : ∀ line ∈ lines, keep line.number → ∀ n ∈ targetsAll line.actions, keep n
  next : ∀ front line line' back, lines = front ++ line :: line' :: back → keep line.number →
    endsElsewhere line.actions = false → keep line'.number

def keptLines (keep : LineNumber → Bool) (lines : List (ActionLine R)) : List (ActionLine R) :=
  lines.filter fun line => keep line.number

/-- The place in the program without the lines that are not kept. -/
def Point.prune (keep : LineNumber → Bool) (point : Point R) : Point R :=
  { point with lines := keptLines keep point.lines }

theorem keptLines_cons {line : ActionLine R} (h : keep line.number) (later : List (ActionLine R)) :
    keptLines keep (line :: later) = line :: keptLines keep later :=
  List.filter_cons_of_pos h

theorem keptLines_cons_of_not {line : ActionLine R} (h : ¬keep line.number)
    (later : List (ActionLine R)) : keptLines keep (line :: later) = keptLines keep later :=
  List.filter_cons_of_neg h

namespace Point

theorem at?_keptLines {n : LineNumber} (hn : keep n) (lines : List (ActionLine R)) :
    at? n (keptLines keep lines) = (at? n lines).map (prune keep) := by
  induction lines with
  | nil => rfl
  | cons line lines ih =>
      rw [at?]
      by_cases hline : line.number = n
      · subst hline
        rw [keptLines_cons hn, at?, if_pos rfl, if_pos rfl, Option.map_some, prune,
          keptLines_cons hn]
      · rw [if_neg hline, ← ih]
        by_cases hkeep : keep line.number
        · rw [keptLines_cons hkeep, at?, if_neg hline]
        · rw [keptLines_cons_of_not hkeep]

theorem behind?_keptLines {k : Nat}
    (h : ∀ line ∈ lines, forsAll line.actions ≠ [] → keep line.number) :
    behind? k (keptLines keep lines) = (behind? k lines).map (prune keep) := by
  induction lines with
  | nil => rfl
  | cons line lines ih =>
      rw [List.forall_mem_cons] at h
      rw [behind?]
      by_cases hkeep : keep line.number
      · rw [keptLines_cons hkeep, behind?, ih h.2]
        cases behindAll? k [] line.actions <;> rfl
      · have hnone : behindAll? k [] line.actions = none := by
          have hfors : forsAll line.actions = [] := by
            by_contra hne
            exact hkeep (h.1 hne)
          rw [← Option.not_isSome_iff_eq_none, behindAll?_isSome_iff line.actions [], hfors]
          exact List.not_mem_nil
        rw [keptLines_cons_of_not hkeep, hnone]
        exact ih h.2

theorem at?_eq_some {n : LineNumber} {point : Point R} (h : at? n lines = some point) :
    ∃ front line later, lines = front ++ line :: later ∧ line.number = n ∧
      point = ⟨[], line :: later⟩ := by
  induction lines with
  | nil => cases h
  | cons line lines ih =>
      rw [at?] at h
      split at h
      · cases h
        exact ⟨[], line, lines, rfl, ‹_›, rfl⟩
      · obtain ⟨front, line', later, rfl, hnumber, hpoint⟩ := ih h
        exact ⟨line :: front, line', later, rfl, hnumber, hpoint⟩

theorem behind?_eq_some {k : Nat} {point : Point R} (h : behind? k lines = some point) :
    ∃ front line, lines = front ++ line :: point.lines ∧
      behindAll? k [] line.actions = some point.rest := by
  induction lines with
  | nil => cases h
  | cons line lines ih =>
      rw [behind?] at h
      split at h
      · cases h
        exact ⟨[], line, rfl, ‹_›⟩
      · obtain ⟨front, line', hlines, hrest⟩ := ih h
        exact ⟨line :: front, line', congrArg (line :: ·) hlines, hrest⟩

end Point

/-- A place that control may come to: what it leads to next is kept. -/
structure Pruned (keep : LineNumber → Bool) (lines : List (ActionLine R))
    (point point' : Point R) : Prop where
  eq : point' = point.prune keep
  suffix : ∃ front, lines = front ++ point.lines
  targets : ∀ n ∈ targetsAll point.rest, keep n
  next : ∀ line ∈ point.lines.head?, endsElsewhere point.rest = false → keep line.number

theorem rel_at? {n : LineNumber} (hn : keep n) :
    Option.Rel (Pruned keep lines) (Point.at? n lines)
      (Point.at? n (keptLines keep lines)) := by
  rw [Point.at?_keptLines hn]
  cases hpoint : Point.at? n lines with
  | none => exact .none
  | some point =>
      obtain ⟨front, line, later, hlines, hnumber, rfl⟩ := Point.at?_eq_some hpoint
      refine .some ⟨rfl, ⟨front, hlines⟩, fun _ hn => absurd hn List.not_mem_nil, ?_⟩
      intro line' hline' _
      cases hline'
      rw [hnumber, hn]

namespace Prunable

/-- The place in a line that is kept. -/
theorem pruned (h : Prunable keep lines) {front later : List (ActionLine R)}
    {line : ActionLine R} (hlines : lines = front ++ line :: later) (hkeep : keep line.number)
    {rest : List (Action R)} (htargets : targetsAll rest ⊆ targetsAll line.actions)
    (hend : endsElsewhere rest = false → endsElsewhere line.actions = false) :
    Pruned keep lines ⟨rest, later⟩ (Point.prune keep ⟨rest, later⟩) where
  eq := rfl
  suffix := ⟨front ++ [line], by rw [hlines, List.append_assoc]; rfl⟩
  targets n hn := h.targets line (hlines ▸ List.mem_append_right _ List.mem_cons_self) hkeep n
    (htargets hn)
  next line' hline' hrest := by
    cases later with
    | nil => cases hline'
    | cons _ later =>
        cases hline'
        exact h.next front line line' later hlines hkeep (hend hrest)

theorem rel_behind? (h : Prunable keep lines) (k : Nat) :
    Option.Rel (Pruned keep lines) (Point.behind? k lines)
      (Point.behind? k (keptLines keep lines)) := by
  rw [Point.behind?_keptLines h.loops]
  cases hpoint : Point.behind? k lines with
  | none => exact .none
  | some point =>
      obtain ⟨front, line, hlines, hrest⟩ := Point.behind?_eq_some hpoint
      have hloop : forsAll line.actions ≠ [] := by
        have hmem := (behindAll?_isSome_iff _ _).mp (Option.isSome_of_eq_some hrest)
        exact List.ne_nil_of_mem hmem
      have hkeep := h.loops line (hlines ▸ List.mem_append_right _ List.mem_cons_self) hloop
      have htargets := behindAll?_targets hrest
      rw [targetsAll, List.append_nil] at htargets
      refine .some (h.pruned hlines hkeep htargets fun hend => ?_)
      have hline := behindAll?_endsElsewhere hrest hend
      rwa [List.append_nil] at hline

end Prunable

namespace Pruned

variable {a : Action R} {rest : List (Action R)} {later : List (ActionLine R)}
  {point' : Point R}

/-- The place behind an action that control comes through. -/
theorem behind (h : Pruned keep lines ⟨a :: rest, later⟩ point') (ha : a.isTerminal = false) :
    Pruned keep lines ⟨rest, later⟩ (Point.prune keep ⟨rest, later⟩) where
  eq := rfl
  suffix := h.suffix
  targets n hn := h.targets n (List.mem_append_right _ hn)
  next line hline hend := h.next line hline (endsElsewhere_of_behind ha hend)

/-- The place in the body of an action. -/
theorem body (h : Pruned keep lines ⟨a :: rest, later⟩ point') (ha : a.isTerminal = false)
    {body : List (Action R)} (hbody : targetsAll body ⊆ a.targets) :
    Pruned keep lines ⟨body ++ rest, later⟩ (Point.prune keep ⟨body ++ rest, later⟩) where
  eq := rfl
  suffix := h.suffix
  targets n hn := by
    rw [targetsAll_append, List.mem_append] at hn
    refine h.targets n (List.mem_append.mpr ?_)
    exact hn.imp_left (hbody ·)
  next line hline hend := h.next line hline (endsElsewhere_of_body body ha hend)

variable [NumberSystem R]

theorem corresponds (hlines : Prunable keep lines) {t t' : Moment R}
    (h : Pruned keep lines ⟨a :: t.point.rest, t.point.lines⟩ point')
    (hpoint : t'.point = t.point.prune keep) :
    a.Corresponds id (Pruned keep lines) lines (keptLines keep lines) t t' a := by
  have hbehind (ha : a.isTerminal = false) : Pruned keep lines t.point t'.point :=
    hpoint ▸ h.behind ha
  have hline (n : LineNumber) (hn : n ∈ a.targets) : Option.Rel (Pruned keep lines)
      (Point.at? n lines) (Point.at? n (keptLines keep lines)) :=
    rel_at? (h.targets n (List.mem_append_left _ hn))
  cases a with
  | call name args => exact .call name args (hbehind rfl)
  | «end» => exact .end
  | «for» loop start limit step => exact .for loop start limit step (hbehind rfl)
  | gosub n => exact .gosub n (hbehind rfl) (hline n List.mem_cons_self)
  | goto n => exact .goto n (hline n List.mem_cons_self)
  | branch condition thenBody elseBody =>
      refine .branch condition ?_ ?_ <;> rw [hpoint]
      · exact h.body rfl (List.subset_append_left _ _)
      · exact h.body rfl (List.subset_append_right _ _)
  | assign name e => exact .assign name e (hbehind rfl)
  | next loop =>
      cases loop with
      | none => exact .open
      | some loop => exact .next loop (hbehind rfl) fun _ _ _ => hlines.rel_behind? loop.number
  | rem => exact .rem (hbehind rfl)
  | «return» => exact .return

end Pruned

variable [NumberSystem R]

/-- A program runs in the same way without lines that are never reached. -/
theorem Prunable.same (h : Prunable keep lines) (natives : Natives R W) (depth : Option Nat)
    (w : W) :
    Process.Same (interpretation natives.noting depth lines) notedCalls
      (Moment.start lines, (w, []))
      (interpretation natives.noting depth (keptLines keep lines)) notedCalls
      (Moment.start (keptLines keep lines), (w, [])) := by
  have hstart : Pruned keep lines ⟨[], lines⟩ (Point.prune keep ⟨[], lines⟩) :=
    ⟨rfl, ⟨[], rfl⟩, fun _ hn => absurd hn List.not_mem_nil, fun line hline _ => h.first line hline⟩
  have hrelated : Moment.Related id (Pruned keep lines) (Moment.start lines)
      (Moment.start (keptLines keep lines)) :=
    ⟨hstart, rfl, fun _ => rfl, fun _ => rfl, .nil⟩
  refine same_of_alike hrelated ?_ w
  rintro ⟨⟨rest, later⟩, vars, limits, steps, returns⟩ t' ⟨hpoint, hagrees⟩
  rw [Moment.next, Moment.next, hpoint.eq]
  cases rest with
  | nil =>
      cases later with
      | nil => exact .stop _
      | cons line later =>
          have hkeep := hpoint.next line rfl rfl
          obtain ⟨front, hlines⟩ := hpoint.suffix
          rw [Point.prune, keptLines_cons hkeep]
          exact .pure (hagrees.goTo (h.pruned hlines hkeep (List.Subset.refl _) id))
  | cons a rest =>
      have hcorresponds : a.Corresponds id (Pruned keep lines) lines (keptLines keep lines)
          ⟨⟨rest, later⟩, vars, limits, steps, returns⟩
          { t' with point := Point.prune keep ⟨rest, later⟩ } a :=
        hpoint.corresponds h rfl
      exact hcorresponds.alike _ depth Function.injective_id
        ⟨hagrees.vars_eq, hagrees.limits_eq, hagrees.steps_eq, hagrees.returns⟩

omit [NumberSystem R]

namespace Stmt

theorem isTerminal_pair (loops : Loops) (s : Stmt R) :
    (s.pair loops).1.isTerminal = s.isTerminal := by
  cases s <;> rfl

theorem endsElsewhere_pairAll (loops : Loops) (ss : List (Stmt R)) :
    endsElsewhere (pairAll loops ss).1 = (ss.getLast?.map Stmt.isTerminal).getD false := by
  induction ss generalizing loops with
  | nil => rfl
  | cons s ss ih =>
      cases ss with
      | nil => exact isTerminal_pair loops s
      | cons s' ss =>
          have hne : (pairAll (s.pair loops).2 (s' :: ss)).1 ≠ [] := List.cons_ne_nil _ _
          rw [pairAll, List.getLast?_cons_cons, ← ih (s.pair loops).2]
          exact endsElsewhere_cons _ hne

theorem pairAll_snd_of_anyHasLoop (loops : Loops) {ss : List (Stmt R)}
    (h : anyHasLoop ss = false) : (pairAll loops ss).2 = loops := by
  rw [pairAll_snd, (loopMarksAll_eq_nil_iff ss).mpr h]
  rfl

mutual

theorem fors_pair (loops : Loops) : ∀ s : Stmt R, s.hasLoop = false → (s.pair loops).1.fors = []
  | call _ _ _, _ | .end _, _ | gosub _ _, _ | goto _ _, _ | .let _ _ _, _ | print _ _, _
  | rem _, _ | .return _, _ => rfl
  | .if _ condition thenBody elseBody, h => by
      rw [hasLoop, Bool.or_eq_false_iff] at h
      rw [pair, Action.fors, forsAll_pairAll loops thenBody h.1, forsAll_pairAll _ elseBody h.2]
      rfl

theorem forsAll_pairAll (loops : Loops) : ∀ ss : List (Stmt R), anyHasLoop ss = false →
    forsAll (pairAll loops ss).1 = []
  | [], _ => rfl
  | s :: ss, h => by
      rw [anyHasLoop, Bool.or_eq_false_iff] at h
      rw [pairAll, Action.forsAll, fors_pair loops s h.1, forsAll_pairAll _ ss h.2]
      rfl

end

end Stmt

namespace Program

theorem exists_of_mem_pairLines {loops : Loops} {lines : List (ProgramLine R)}
    {line : ActionLine R} (h : line ∈ (pairLines loops lines).1) :
    ∃ l ∈ lines, ∃ loops', line = ⟨l.number, (Stmt.pairAll loops' l.statements).1⟩ := by
  induction lines generalizing loops with
  | nil => cases h
  | cons l lines ih =>
      rcases List.mem_cons.mp h with rfl | h
      · exact ⟨l, List.mem_cons_self, loops, rfl⟩
      · obtain ⟨l', hmem, hline⟩ := ih h
        exact ⟨l', List.mem_cons_of_mem _ hmem, hline⟩

theorem exists_of_pairLines_eq {loops : Loops} {lines : List (ProgramLine R)}
    {front back : List (ActionLine R)} (h : (pairLines loops lines).1 = front ++ back) :
    ∃ f b loops', lines = f ++ b ∧ (pairLines loops' b).1 = back := by
  induction front generalizing loops lines with
  | nil => exact ⟨[], lines, loops, rfl, h⟩
  | cons line front ih =>
      cases lines with
      | nil => cases h
      | cons l lines =>
          rw [pairLines, List.cons_append, List.cons.injEq] at h
          obtain ⟨f, b, loops', rfl, hback⟩ := ih h.2
          exact ⟨l :: f, b, loops', rfl, hback⟩

theorem pairLines_filter {keep : LineNumber → Bool} (loops : Loops)
    {lines : List (ProgramLine R)}
    (h : ∀ line ∈ lines, Stmt.anyHasLoop line.statements → keep line.number) :
    (pairLines loops (lines.filter fun line => keep line.number)).1 =
      keptLines keep (pairLines loops lines).1 := by
  induction lines generalizing loops with
  | nil => rfl
  | cons line lines ih =>
      rw [List.forall_mem_cons] at h
      by_cases hkeep : keep line.number
      · rw [List.filter_cons, if_pos hkeep]
        simp only [pairLines]
        rw [keptLines_cons hkeep, ih _ h.2]
      · have hnone : Stmt.anyHasLoop line.statements = false := by
          rw [← Bool.not_eq_true]
          exact fun hloop => hkeep (h.1 hloop)
        have hloops := Stmt.pairAll_snd_of_anyHasLoop loops hnone
        rw [List.filter_cons, if_neg hkeep]
        simp only [pairLines]
        rw [keptLines_cons_of_not hkeep, hloops, ih _ h.2]

theorem actionLines_prune (p : Program R) :
    ((Flow.ofProgram p).prune p).actionLines =
      keptLines (Flow.ofProgram p).isReachable p.actionLines :=
  pairLines_filter {} fun _ hmem hloop => Flow.isReachable_of_anyHasLoop hmem hloop

/-- Pruning drops only lines that are never reached. -/
theorem prunable {p : Program R} (h : p.numbers.Nodup) :
    Prunable (Flow.ofProgram p).isReachable p.actionLines where
  first line hline := by
    cases hlines : p.lines with
    | nil =>
        rw [actionLines, hlines] at hline
        cases hline
    | cons l lines =>
        rw [actionLines, hlines] at hline
        cases hline
        exact Flow.isReachable_first hlines
  loops line hline hfors := by
    obtain ⟨l, hmem, loops', rfl⟩ := exists_of_mem_pairLines hline
    refine Flow.isReachable_of_anyHasLoop hmem ?_
    by_contra hnone
    exact hfors (Stmt.forsAll_pairAll loops' _ (Bool.not_eq_true _ ▸ hnone))
  targets line hline hkeep n hn := by
    obtain ⟨l, hmem, loops', rfl⟩ := exists_of_mem_pairLines hline
    rw [Stmt.targets_pairAll] at hn
    obtain ⟨t, ht, rfl⟩ := List.mem_map.mp hn
    exact Flow.isReachable_of_mem_targets h hmem hkeep ht
  next front line line' back hlines hkeep hend := by
    obtain ⟨f, b, loops', hsplit, hback⟩ := exists_of_pairLines_eq hlines
    rcases b with _ | ⟨l, _ | ⟨l', b⟩⟩
    · cases hback
    · cases hback
    · cases hback
      rw [Stmt.endsElsewhere_pairAll] at hend
      exact Flow.isReachable_next h hsplit hkeep (by rw [hend]; exact Bool.false_ne_true)

end Program

end LineBasic
