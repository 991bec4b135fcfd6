import LineBasic.Proofs.StandardNatives
import LineBasic.Proofs.WrittenNumbers

namespace LineBasic

variable {R W : Type} [NumberSystem R]

namespace Expr

variable {natives : Natives R W} {vars : Vars R}

theorem value_of_literal? {e : Expr R} {v : Value R} (h : e.literal? = some v) :
    e.value natives vars = pure v := by
  cases e with
  | number column n =>
      cases h
      rfl
  | string column s =>
      cases h
      rfl
  | _ => cases h

theorem value_orLiteral {e : Expr R} {result : Except Error (Value R)}
    (h : e.value natives vars = Effect.ofExcept result) :
    (e.orLiteral result).value natives vars = e.value natives vars := by
  cases result with
  | error error => rfl
  | ok v =>
      cases v with
      | number n =>
          rw [orLiteral]
          split
          · rw [h]
            rfl
          · rfl
      | string s =>
          rw [h]
          rfl

mutual

theorem value_fold (natives : Natives R W) (vars : Vars R) : ∀ e : Expr R,
    e.fold.value natives vars = e.value natives vars
  | number _ _ | string _ _ | char _ _ | var _ _ => rfl
  | call _ name args => by
      rw [fold, value, value, valueAll_foldAll natives vars args]
  | unary op column e => by
      have he := value_fold natives vars e
      have hoperand : (unary op column e.fold).value natives vars =
          (unary op column e).value natives vars := by
        rw [value, value, he]
      rw [fold]
      split
      · rename_i v hv
        rw [← hoperand]
        apply value_orLiteral
        rw [value, value_of_literal? hv]
        rfl
      · exact hoperand
  | binary op column l r => by
      have hl := value_fold natives vars l
      have hr := value_fold natives vars r
      have hoperands : (binary op column l.fold r.fold).value natives vars =
          (binary op column l r).value natives vars := by
        rw [value, value, hl, hr]
      rw [fold]
      split
      · rename_i v w hv hw
        rw [← hoperands]
        apply value_orLiteral
        rw [value, value_of_literal? hv, value_of_literal? hw]
        rfl
      · exact hoperands

theorem valueAll_foldAll (natives : Natives R W) (vars : Vars R) : ∀ es : List (Expr R),
    valueAll natives vars (foldAll es) = valueAll natives vars es
  | [] => rfl
  | e :: es => by
      rw [foldAll, valueAll, valueAll, value_fold natives vars e,
        valueAll_foldAll natives vars es]

end

theorem mem_code_orLiteral {e : Expr R} {result : Except Error (Value R)} {n : R}
    (hn : NumberSystem.isFinite n = false)
    (h : .literal (.number n) ∈ (e.orLiteral result).code) :
    .literal (.number n) ∈ e.code := by
  cases result with
  | error error => exact h
  | ok v =>
      cases v with
      | number m =>
          rw [orLiteral] at h
          split at h
          · rename_i hm
            rw [code, List.mem_singleton] at h
            cases h
            rw [hn] at hm
            cases hm
          · exact h
      | string s =>
          rw [orLiteral, code, List.mem_singleton] at h
          cases h

mutual

theorem mem_code_fold {n : R} (hn : NumberSystem.isFinite n = false) : ∀ e : Expr R,
    .literal (.number n) ∈ e.fold.code → .literal (.number n) ∈ e.code
  | number _ _, h | string _ _, h | char _ _, h | var _ _, h => h
  | call _ name args, h => by
      rw [fold, code, List.mem_append, List.mem_singleton] at h
      rw [code, List.mem_append]
      rcases h with h | h
      · exact .inl (mem_codeAll_foldAll hn args h)
      · cases h
  | unary op column e, h => by
      have hkept : .literal (.number n) ∈ (unary op column e.fold).code := by
        rw [fold] at h
        split at h
        · exact mem_code_orLiteral hn h
        · exact h
      rw [code, List.mem_append, List.mem_singleton] at hkept
      rw [code, List.mem_append]
      rcases hkept with hkept | hkept
      · exact .inl (mem_code_fold hn e hkept)
      · cases hkept
  | binary op column l r, h => by
      have hkept : .literal (.number n) ∈ (binary op column l.fold r.fold).code := by
        rw [fold] at h
        split at h
        · exact mem_code_orLiteral hn h
        · exact h
      rw [code, List.mem_append, List.mem_append, List.mem_singleton] at hkept
      rw [code, List.mem_append, List.mem_append]
      rcases hkept with (hkept | hkept) | hkept
      · exact .inl (.inl (mem_code_fold hn l hkept))
      · exact .inl (.inr (mem_code_fold hn r hkept))
      · cases hkept

theorem mem_codeAll_foldAll {n : R} (hn : NumberSystem.isFinite n = false) :
    ∀ es : List (Expr R), .literal (.number n) ∈ codeAll (foldAll es) →
      .literal (.number n) ∈ codeAll es
  | [], h => h
  | e :: es, h => by
      rw [foldAll, codeAll, List.mem_append] at h
      rw [codeAll, List.mem_append]
      exact h.imp (mem_code_fold hn e) (mem_codeAll_foldAll hn es)

end

end Expr

namespace Action

mutual

def fold : Action R → Action R
  | call name args => call name (Expr.foldAll args)
  | .for loop start limit step => .for loop start.fold limit.fold (step.map Expr.fold)
  | branch condition thenBody elseBody =>
      branch condition.fold (foldAll thenBody) (foldAll elseBody)
  | assign name e => assign name e.fold
  | a => a

def foldAll : List (Action R) → List (Action R)
  | [] => []
  | a :: as => a.fold :: foldAll as

end

theorem foldAll_append (as as' : List (Action R)) :
    foldAll (as ++ as') = foldAll as ++ foldAll as' := by
  induction as with
  | nil => rfl
  | cons a as ih => rw [List.cons_append, foldAll, foldAll, ih, List.cons_append]

theorem isEmpty_foldAll (as : List (Action R)) : (foldAll as).isEmpty = as.isEmpty := by
  cases as <;> rfl

mutual

theorem branches_fold (b : Nat) : ∀ a : Action R, (a.fold.code b).2 = (a.code b).2
  | branch _ thenBody elseBody => by
      rw [fold, code, code, isEmpty_foldAll]
      dsimp only
      rw [branches_foldAll (b + 1) thenBody]
      split
      · rfl
      · exact branches_foldAll _ elseBody
  | .for _ _ _ _ | call _ _ | assign _ _ => rfl
  | .end | gosub _ | goto _ | next _ | rem | .return => rfl

theorem branches_foldAll (b : Nat) : ∀ as : List (Action R),
    (codeAll b (foldAll as)).2 = (codeAll b as).2
  | [] => rfl
  | a :: as => by
      rw [foldAll, codeAll, codeAll]
      dsimp only
      rw [branches_fold b a]
      exact branches_foldAll _ as

end

mutual

theorem mem_code_fold {n : R} (hn : NumberSystem.isFinite n = false) (b : Nat) :
    ∀ a : Action R, .literal (.number n) ∈ (a.fold.code b).1 →
      .literal (.number n) ∈ (a.code b).1
  | call name args, h => by
      simp only [fold, code, List.mem_append, List.mem_singleton, reduceCtorEq, or_false] at h ⊢
      exact Expr.mem_codeAll_foldAll hn args h
  | .for loop start limit step, h => by
      have hstart := Expr.mem_code_fold hn start
      have hlimit := Expr.mem_code_fold hn limit
      cases step with
      | none =>
          simp only [fold, code, Stmt.loopCode, List.mem_append, List.mem_cons, reduceCtorEq,
            Option.map_none] at h ⊢
          tauto
      | some step =>
          have hstep := Expr.mem_code_fold hn step
          simp only [fold, code, Stmt.loopCode, List.mem_append, List.mem_cons, reduceCtorEq,
            Option.map_some] at h ⊢
          tauto
  | branch condition thenBody elseBody, h => by
      have hcondition := Expr.mem_code_fold hn condition
      have hthen := mem_codeAll_foldAll hn (b + 1) thenBody
      have helse := mem_codeAll_foldAll hn (codeAll (b + 1) thenBody).2 elseBody
      rw [fold, code, isEmpty_foldAll] at h
      rw [code]
      dsimp only at h ⊢
      rw [branches_foldAll (b + 1) thenBody] at h
      split at h
      · rename_i hempty
        rw [if_pos hempty]
        simp only [List.mem_append, List.mem_cons, reduceCtorEq] at h ⊢
        tauto
      · rename_i hempty
        rw [if_neg hempty]
        simp only [List.mem_append, List.mem_cons, reduceCtorEq] at h ⊢
        tauto
  | assign name e, h => by
      simp only [fold, code, List.mem_append, List.mem_singleton, reduceCtorEq, or_false] at h ⊢
      exact Expr.mem_code_fold hn e h
  | .end, h | gosub _, h | goto _, h | next _, h | rem, h | .return, h => h

theorem mem_codeAll_foldAll {n : R} (hn : NumberSystem.isFinite n = false) (b : Nat) :
    ∀ as : List (Action R), .literal (.number n) ∈ (codeAll b (foldAll as)).1 →
      .literal (.number n) ∈ (codeAll b as).1
  | [], h => h
  | a :: as, h => by
      rw [foldAll, codeAll] at h
      rw [codeAll]
      dsimp only at h ⊢
      rw [branches_fold b a] at h
      rw [List.mem_append] at h ⊢
      exact h.imp (mem_code_fold hn b a) (mem_codeAll_foldAll hn _ as)

end

end Action

open LineBasic.Action

def ActionLine.fold (line : ActionLine R) : ActionLine R :=
  { line with actions := foldAll line.actions }

theorem mem_linesCode_fold {n : R} (hn : NumberSystem.isFinite n = false) (b : Nat)
    (lines : List (ActionLine R))
    (h : .literal (.number n) ∈ (linesCode b (lines.map ActionLine.fold)).1) :
    .literal (.number n) ∈ (linesCode b lines).1 := by
  induction lines generalizing b with
  | nil => exact h
  | cons line lines ih =>
      have hline := mem_codeAll_foldAll hn b line.actions
      rw [List.map_cons, linesCode, ActionLine.fold] at h
      rw [linesCode]
      dsimp only at h ⊢
      rw [branches_foldAll b line.actions] at h
      have hlines := ih (codeAll b line.actions).2
      simp only [List.mem_append, List.mem_cons, reduceCtorEq] at h ⊢
      tauto

def Point.fold (point : Point R) : Point R where
  rest := foldAll point.rest
  lines := point.lines.map ActionLine.fold

mutual

theorem behind?_fold (k : Nat) (after : List (Action R)) : ∀ a : Action R,
    a.fold.behind? k (foldAll after) = (a.behind? k after).map foldAll
  | .for loop _ _ _ => by
      rw [fold, behind?, behind?]
      split <;> rfl
  | branch _ thenBody elseBody => by
      rw [fold, behind?, behind?, behindAll?_foldAll k after thenBody,
        behindAll?_foldAll k after elseBody, Option.map_or]
  | call _ _ | .end | gosub _ | goto _ | assign _ _ | next _ | rem | .return => rfl

theorem behindAll?_foldAll (k : Nat) (after : List (Action R)) : ∀ as : List (Action R),
    behindAll? k (foldAll after) (foldAll as) = (behindAll? k after as).map foldAll
  | [] => rfl
  | a :: as => by
      rw [foldAll, behindAll?, behindAll?, ← foldAll_append, behind?_fold k (as ++ after) a,
        behindAll?_foldAll k after as, Option.map_or]

end

namespace Point

theorem behind?_fold (k : Nat) (lines : List (ActionLine R)) :
    behind? k (lines.map ActionLine.fold) = (behind? k lines).map fold := by
  induction lines with
  | nil => rfl
  | cons line lines ih =>
      have hline : behindAll? k [] line.fold.actions =
          (behindAll? k [] line.actions).map foldAll :=
        behindAll?_foldAll k [] line.actions
      rw [List.map_cons, behind?, behind?, hline, ih]
      cases behindAll? k [] line.actions <;> rfl

theorem at?_fold (n : LineNumber) (lines : List (ActionLine R)) :
    at? n (lines.map ActionLine.fold) = (at? n lines).map fold := by
  induction lines with
  | nil => rfl
  | cons line lines ih =>
      have hnumber : line.fold.number = line.number := rfl
      rw [List.map_cons, at?, at?, ih, hnumber]
      by_cases h : line.number = n
      · rw [if_pos h, if_pos h]
        rfl
      · rw [if_neg h, if_neg h]

end Point

def Folds (point point' : Point R) : Prop :=
  point' = point.fold

theorem rel_fold (point : Option (Point R)) : Option.Rel Folds point (point.map Point.fold) := by
  cases point with
  | none => exact .none
  | some point => exact .some rfl

namespace Action

/-- The action with its bodies folded, but not its own expressions. -/
def foldBodies : Action R → Action R
  | branch condition thenBody elseBody => branch condition (foldAll thenBody) (foldAll elseBody)
  | a => a

theorem perform_fold (natives : Natives R W) (depth : Option Nat)
    (lines : List (ActionLine R)) (t : Moment R) (a : Action R) :
    a.fold.perform natives depth lines t = a.foldBodies.perform natives depth lines t := by
  cases a with
  | call name args => simp only [fold, foldBodies, perform, Expr.valueAll_foldAll]
  | «for» loop start limit step =>
      cases step <;>
        simp only [fold, foldBodies, perform, Expr.value_fold, Option.map_none, Option.map_some,
          stepValue]
  | branch condition thenBody elseBody => simp only [fold, foldBodies, perform, Expr.value_fold]
  | assign name e => simp only [fold, foldBodies, perform, Expr.value_fold]
  | _ => rfl

theorem corresponds_foldBodies (lines : List (ActionLine R)) {t t' : Moment R}
    (h : Folds t.point t'.point) (a : Action R) :
    a.Corresponds id Folds lines (lines.map ActionLine.fold) t t' a.foldBodies := by
  have hline (n : LineNumber) : Option.Rel Folds (Point.at? n lines)
      (Point.at? n (lines.map ActionLine.fold)) := by
    rw [Point.at?_fold]
    exact rel_fold _
  have hbody (body : List (Action R)) : Folds ⟨body ++ t.point.rest, t.point.lines⟩
      ⟨foldAll body ++ t'.point.rest, t'.point.lines⟩ := by
    rw [Folds, h, Point.fold, Point.fold, foldAll_append]
  cases a with
  | call name args => exact .call name args h
  | «end» => exact .end
  | «for» loop start limit step => exact .for loop start limit step h
  | gosub line => exact .gosub line h (hline line)
  | goto line => exact .goto line (hline line)
  | branch condition thenBody elseBody => exact .branch condition (hbody _) (hbody _)
  | assign name e => exact .assign name e h
  | next loop =>
      cases loop with
      | none => exact .open
      | some loop =>
          refine .next loop h fun _ _ _ => ?_
          rw [id, Point.behind?_fold]
          exact rel_fold _
  | rem => exact .rem h
  | «return» => exact .return

end Action

theorem same_fold (natives : Natives R W) (depth : Option Nat) (lines : List (ActionLine R))
    (w : W) :
    Process.Same (interpretation natives.noting depth lines) notedCalls
      (Moment.start lines, (w, []))
      (interpretation natives.noting depth (lines.map ActionLine.fold)) notedCalls
      (Moment.start (lines.map ActionLine.fold), (w, [])) := by
  have hrelated : Moment.Related id Folds (Moment.start lines)
      (Moment.start (lines.map ActionLine.fold)) :=
    ⟨rfl, rfl, fun _ => rfl, fun _ => rfl, .nil⟩
  refine same_of_alike hrelated ?_ w
  rintro ⟨⟨rest, later⟩, vars, limits, steps, returns⟩ t' ⟨hpoint, hagrees⟩
  rw [Moment.next, Moment.next, hpoint]
  cases rest with
  | nil =>
      cases later with
      | nil => exact .stop _
      | cons line later => exact .pure (hagrees.goTo rfl)
  | cons a rest =>
      have hbehind := hagrees.goTo (rfl : Folds ⟨rest, later⟩ (Point.fold ⟨rest, later⟩))
      simp only [Point.fold, foldAll, perform_fold]
      exact (a.corresponds_foldBodies lines hbehind.1).alike _ depth Function.injective_id
        hbehind.2

namespace Stmt

mutual

theorem pair_fold (loops : Loops) : ∀ s : Stmt R,
    s.fold.pair loops = ((s.pair loops).1.fold, (s.pair loops).2)
  | .if _ _ thenBody elseBody => by
      simp only [fold, pair, pairAll_foldAll loops thenBody, pairAll_foldAll _ elseBody,
        Action.fold]
  | call _ _ _ | .end _ | gosub _ _ | goto _ _ | .let _ _ _ | print _ _ | rem _ | .return _
  | .for _ _ _ _ _ | next _ _ => rfl

theorem pairAll_foldAll (loops : Loops) : ∀ ss : List (Stmt R),
    pairAll loops (foldAll ss) = (Action.foldAll (pairAll loops ss).1, (pairAll loops ss).2)
  | [] => rfl
  | s :: ss => by
      simp only [foldAll, pairAll, pair_fold loops s, pairAll_foldAll _ ss, Action.foldAll]

end

end Stmt

namespace Program

theorem pairLines_fold (loops : Loops) (lines : List (ProgramLine R)) :
    (pairLines loops (lines.map fun line =>
      { line with statements := Stmt.foldAll line.statements })).1 =
        (pairLines loops lines).1.map ActionLine.fold := by
  induction lines generalizing loops with
  | nil => rfl
  | cons line lines ih =>
      simp only [List.map_cons, pairLines, Stmt.pairAll_foldAll, ih, ActionLine.fold]

theorem actionLines_fold (p : Program R) : p.fold.actionLines = p.actionLines.map ActionLine.fold :=
  pairLines_fold {} p.lines

theorem mem_layout_fold {p : Program R} {n : R} (hn : NumberSystem.isFinite n = false)
    (h : .literal (.number n) ∈ p.fold.layout) : .literal (.number n) ∈ p.layout := by
  have hlines := mem_linesCode_fold hn 0 p.actionLines
  simp only [layout, Action.layout, actionLines_fold, List.mem_append, List.mem_cons,
    reduceCtorEq] at h ⊢
  tauto

end Program

theorem load_of_readsBack {registry : Registry} {p : Program R} (h : p.Sound registry)
    (hroom : p.layout.length ≤ Program.maxCode) {linked : LinkedCode R}
    (hlinked : LinkedCode.link p.layout = .ok linked)
    (hreads : ∀ n : R, .literal (.number n) ∈ p.layout → NumberSystem.reread n = n) :
    ∃ script, Script.emit p.layout = .ok script ∧
      ∀ m : Machine R W, m.load script.text = .ok { m with linked } := by
  obtain ⟨script, hemit⟩ : ∃ script, Script.emit p.layout = .ok script := by
    rw [Script.emit, hlinked]
    exact ⟨_, rfl⟩
  obtain ⟨linked', hlinked', hload⟩ := load_of_emit (W := W) h hroom hemit
  rw [map_reread_eq_self hreads, hlinked] at hlinked'
  cases hlinked'
  exact ⟨script, hemit, hload⟩

/-- The code of a program and the code of the folded program run alike. If the numbers of both read back, these are the
codes that a machine has when it loads the scripts; all but the infinite numbers of the program itself are finite. -/
theorem folded_runs_alike {registry : Registry} {source : String} {p : Program R}
    (hread : Program.read registry source = .ok p) {code folded : List (Instruction R String)}
    (hcode : p.code = .ok code) (hfolded : p.fold.code = .ok folded) :
    ∃ linked linkedFolded, LinkedCode.link code = .ok linked ∧
      LinkedCode.link folded = .ok linkedFolded ∧
      (∀ (m : Machine R W) (w : W), m.hook = none →
        { m with linked }.RunAlike { m with linked := linkedFolded } w) ∧
      ((∀ n : R, .literal (.number n) ∈ code ++ folded → NumberSystem.isFinite n →
          NumberSystem.reread n = n) →
        (∀ n : R, .literal (.number n) ∈ code → NumberSystem.isFinite n = false →
          NumberSystem.reread n = n) →
        ∃ script scriptFolded, Script.emit code = .ok script ∧
          Script.emit folded = .ok scriptFolded ∧
          ∀ m : Machine R W, m.load script.text = .ok { m with linked } ∧
            m.load scriptFolded.text = .ok { m with linked := linkedFolded }) := by
  have hsound := Program.sound_of_read hread
  have hsoundFolded : p.fold.Sound registry := hsound.folded { ast := true }
  obtain ⟨-, hroom, rfl⟩ := Program.code_eq_ok_iff.mp hcode
  obtain ⟨-, hroomFolded, rfl⟩ := Program.code_eq_ok_iff.mp hfolded
  obtain ⟨linked, hlinked⟩ := hsound.coherent.links
  obtain ⟨linkedFolded, hlinkedFolded⟩ := hsoundFolded.coherent.links
  refine ⟨linked, linkedFolded, hlinked, hlinkedFolded, ?_, ?_⟩
  · intro m w hhook
    obtain ⟨r, hr, hsame, -⟩ :=
      same_interpretation hsound.proper hroom { m with linked } w hlinked hhook
    obtain ⟨r', hr', hsame', -⟩ := same_interpretation hsoundFolded.proper hroomFolded
      { m with linked := linkedFolded } w hlinkedFolded hhook
    rw [Program.actionLines_fold] at hsame'
    exact ⟨r, r', hr, hr', hsame.trans ((same_fold _ _ _ w).trans hsame'.symm)⟩
  · intro hfinite hinfinite
    have hreads : ∀ n : R, .literal (.number n) ∈ p.layout → NumberSystem.reread n = n := by
      intro n hn
      cases hcases : NumberSystem.isFinite n with
      | true => exact hfinite n (List.mem_append_left _ hn) hcases
      | false => exact hinfinite n hn hcases
    have hreadsFolded : ∀ n : R, .literal (.number n) ∈ p.fold.layout →
        NumberSystem.reread n = n := by
      intro n hn
      cases hcases : NumberSystem.isFinite n with
      | true => exact hfinite n (List.mem_append_right _ hn) hcases
      | false => exact hinfinite n (Program.mem_layout_fold hcases hn) hcases
    obtain ⟨script, hemit, hload⟩ := load_of_readsBack hsound hroom hlinked hreads
    obtain ⟨scriptFolded, hemitFolded, hloadFolded⟩ :=
      load_of_readsBack hsoundFolded hroomFolded hlinkedFolded hreadsFolded
    exact ⟨script, scriptFolded, hemit, hemitFolded, fun m => ⟨hload m, hloadFolded m⟩⟩

/-- A NEXT goes back, and a quotient fails. Neither an infinite number nor what depends on a variable is folded. -/
theorem folded_runs_alike_loop :
    ∃ (p : Program Float) (code folded : List (Instruction Float String))
      (linked linkedFolded : LinkedCode Float) (script scriptFolded : Script),
      Program.read .standard
        "10 FOR I=1 TO 2*1: PRINT 1E999*(2+3*I)\n20 NEXT I\n30 PRINT 1/(2-2)" = .ok p ∧
      p.code = .ok code ∧ p.fold.code = .ok folded ∧ folded.length < code.length ∧
      LinkedCode.link code = .ok linked ∧ LinkedCode.link folded = .ok linkedFolded ∧
      { Machine.standard with linked }.RunAlike
        { Machine.standard with linked := linkedFolded } "" ∧
      Script.emit code = .ok script ∧ Script.emit folded = .ok scriptFolded ∧
      Machine.standard.load script.text = .ok { Machine.standard with linked } ∧
      Machine.standard.load scriptFolded.text =
        .ok { Machine.standard with linked := linkedFolded } := by
  have hread : ((Program.read (R := Float) .standard
      "10 FOR I=1 TO 2*1: PRINT 1E999*(2+3*I)\n20 NEXT I\n30 PRINT 1/(2-2)").toOption.bind
      fun p => p.code.toOption.bind fun code => p.fold.code.toOption.map fun folded =>
        decide (folded.length < code.length)) = some true := by
    decide +kernel
  have hhook : Machine.standard.hook = none := by
    decide +kernel
  simp only [Option.bind_eq_some_iff, Option.map_eq_some_iff, decide_eq_true_eq] at hread
  obtain ⟨p, hp, code, hcode, folded, hfolded, hshorter⟩ := hread
  have hread := eq_ok_of_toOption hp
  have hcode := eq_ok_of_toOption hcode
  have hfolded := eq_ok_of_toOption hfolded
  obtain ⟨linked, linkedFolded, hlinked, hlinkedFolded, halike, hscripts⟩ :=
    folded_runs_alike (W := String) hread hcode hfolded
  obtain ⟨script, scriptFolded, hemit, hemitFolded, hload⟩ := hscripts
    (fun n _ _ => Binary64.reread_eq n) (fun n _ _ => Binary64.reread_eq n)
  obtain ⟨hload, hloadFolded⟩ := hload Machine.standard
  exact ⟨p, code, folded, linked, linkedFolded, script, scriptFolded, hread, hcode, hfolded,
    hshorter, hlinked, hlinkedFolded, halike _ "" hhook, hemit, hemitFolded, hload, hloadFolded⟩

end LineBasic
