import LineBasic.Proofs.Loading
import LineBasic.Proofs.Pruning

namespace LineBasic

variable {R W : Type} [NumberSystem R]

/-- A number as it is read from its text. -/
def NumberSystem.reread (n : R) : R :=
  (read? (write n)).getD n

/-- Code whose numbers read back is read as it is. -/
theorem map_reread_eq_self {code : List (Instruction R String)}
    (h : ∀ n : R, .literal (.number n) ∈ code → NumberSystem.reread n = n) :
    code.map Instruction.reread = code := by
  conv_rhs => rw [← List.map_id code]
  apply List.map_congr_left
  intro i hi
  cases i with
  | literal v =>
      cases v with
      | number n => exact congrArg (Instruction.literal ∘ Value.number) (h n hi)
      | string s => rfl
  | _ => rfl

namespace Expr

mutual

def reread : Expr R → Expr R
  | number column n => number column (NumberSystem.reread n)
  | call column name args => call column name (rereadAll args)
  | unary op column e => unary op column e.reread
  | binary op column l r => binary op column l.reread r.reread
  | e => e

def rereadAll : List (Expr R) → List (Expr R)
  | [] => []
  | e :: es => e.reread :: rereadAll es

end

theorem length_rereadAll (es : List (Expr R)) : (rereadAll es).length = es.length := by
  induction es with
  | nil => rfl
  | cons e es ih => rw [rereadAll, List.length_cons, List.length_cons, ih]

mutual

theorem code_reread : ∀ e : Expr R, e.reread.code = e.code.map Instruction.reread
  | number _ _ | string _ _ | char _ _ | var _ _ => rfl
  | call _ name args => by
      rw [reread, code, code, codeAll_reread args, length_rereadAll, List.map_append]
      rfl
  | unary op _ e => by
      rw [reread, code, code, code_reread e, List.map_append]
      rfl
  | binary op _ l r => by
      rw [reread, code, code, code_reread l, code_reread r, List.map_append, List.map_append]
      rfl

theorem codeAll_reread : ∀ es : List (Expr R),
    codeAll (rereadAll es) = (codeAll es).map Instruction.reread
  | [] => rfl
  | e :: es => by
      rw [rereadAll, codeAll, codeAll, code_reread e, codeAll_reread es, List.map_append]

end

mutual

theorem names_reread : ∀ e : Expr R, e.reread.names = e.names
  | number _ _ | string _ _ | char _ _ | var _ _ => rfl
  | call _ name args => by rw [reread, names, names, namesAll_reread args]
  | unary _ _ e => by rw [reread, names, names, names_reread e]
  | binary _ _ l r => by rw [reread, names, names, names_reread l, names_reread r]

theorem namesAll_reread : ∀ es : List (Expr R), namesAll (rereadAll es) = namesAll es
  | [] => rfl
  | e :: es => by rw [rereadAll, namesAll, namesAll, names_reread e, namesAll_reread es]

end

end Expr

namespace Action

mutual

/-- The action with its numbers as they are read; the step of a FOR that does
not say one is a number too. -/
def reread : Action R → Action R
  | call name args => call name (Expr.rereadAll args)
  | .for loop start limit step =>
      .for loop start.reread limit.reread
        (some ((step.map Expr.reread).getD (.number {} (NumberSystem.reread NumberSystem.one))))
  | branch condition thenBody elseBody =>
      branch condition.reread (rereadAll thenBody) (rereadAll elseBody)
  | assign name e => assign name e.reread
  | a => a

def rereadAll : List (Action R) → List (Action R)
  | [] => []
  | a :: as => a.reread :: rereadAll as

end

theorem rereadAll_eq_map (as : List (Action R)) : rereadAll as = as.map reread := by
  induction as with
  | nil => rfl
  | cons a as ih => rw [rereadAll, List.map_cons, ih]

theorem rereadAll_append (as as' : List (Action R)) :
    rereadAll (as ++ as') = rereadAll as ++ rereadAll as' := by
  simp only [rereadAll_eq_map, List.map_append]

theorem loopCode_reread (place : Place) (v : Variable) (start limit : Expr R)
    (step : Option (Expr R)) :
    Stmt.loopCode place v start.reread limit.reread
        (some ((step.map Expr.reread).getD (.number {} (NumberSystem.reread NumberSystem.one)))) =
      (Stmt.loopCode place v start limit step).map Instruction.reread := by
  cases step <;>
    simp [Stmt.loopCode, Expr.code_reread, Instruction.reread, Expr.code, Value.reread,
      NumberSystem.reread]

mutual

theorem code_reread (b : Nat) : ∀ a : Action R,
    a.reread.code b = ((a.code b).1.map Instruction.reread, (a.code b).2)
  | call name args => by
      simp [reread, code, Expr.codeAll_reread, Expr.length_rereadAll, Instruction.reread]
  | .for loop start limit step => by rw [reread, code, code, loopCode_reread]
  | branch condition thenBody elseBody => by
      have hempty : (rereadAll elseBody).isEmpty = elseBody.isEmpty := by
        cases elseBody <;> rfl
      simp only [reread, code, codeAll_reread _ thenBody, codeAll_reread _ elseBody, hempty,
        Expr.code_reread]
      split <;> simp [Instruction.reread]
  | assign name e => by simp [reread, code, Expr.code_reread, Instruction.reread]
  | next none => rfl
  | next (some _) => rfl
  | .end | gosub _ | goto _ | rem | .return => rfl

theorem codeAll_reread (b : Nat) : ∀ as : List (Action R),
    codeAll b (rereadAll as) = ((codeAll b as).1.map Instruction.reread, (codeAll b as).2)
  | [] => rfl
  | a :: as => by
      simp only [rereadAll, codeAll, code_reread b a, codeAll_reread _ as, List.map_append]

end

mutual

theorem fors_reread : ∀ a : Action R, a.reread.fors = a.fors
  | branch _ thenBody elseBody => by
      rw [reread, fors, fors, forsAll_reread thenBody, forsAll_reread elseBody]
  | .for _ _ _ _ => rfl
  | call _ _ | .end | gosub _ | goto _ | assign _ _ | next _ | rem | .return => rfl

theorem forsAll_reread : ∀ as : List (Action R), forsAll (rereadAll as) = forsAll as
  | [] => rfl
  | a :: as => by rw [rereadAll, forsAll, forsAll, fors_reread a, forsAll_reread as]

end

mutual

theorem targets_reread : ∀ a : Action R, a.reread.targets = a.targets
  | branch _ thenBody elseBody => by
      rw [reread, targets, targets, targetsAll_reread thenBody, targetsAll_reread elseBody]
  | .for _ _ _ _ => rfl
  | call _ _ | .end | gosub _ | goto _ | assign _ _ | next _ | rem | .return => rfl

theorem targetsAll_reread : ∀ as : List (Action R), targetsAll (rereadAll as) = targetsAll as
  | [] => rfl
  | a :: as => by rw [rereadAll, targetsAll, targetsAll, targets_reread a, targetsAll_reread as]

end

theorem isTerminal_reread (a : Action R) : a.reread.isTerminal = a.isTerminal := by
  cases a <;> rfl

theorem endsElsewhere_reread (as : List (Action R)) :
    endsElsewhere (rereadAll as) = endsElsewhere as := by
  rw [endsElsewhere, endsElsewhere, rereadAll_eq_map, List.getLast?_map, Option.map_map]
  congr 2
  funext a
  exact isTerminal_reread a

end Action

open LineBasic.Action

def ActionLine.reread (line : ActionLine R) : ActionLine R :=
  { line with actions := rereadAll line.actions }

def rereadLines (lines : List (ActionLine R)) : List (ActionLine R) :=
  lines.map ActionLine.reread

theorem linesCode_reread (b : Nat) (lines : List (ActionLine R)) :
    linesCode b (rereadLines lines) =
      ((linesCode b lines).1.map Instruction.reread, (linesCode b lines).2) := by
  induction lines generalizing b with
  | nil => rfl
  | cons line lines ih =>
      rw [rereadLines] at ih ⊢
      simp only [List.map_cons, linesCode, ActionLine.reread, codeAll_reread, ih,
        List.map_append, List.map_nil]
      rfl

theorem layout_reread (lines : List (ActionLine R)) :
    layout (rereadLines lines) = (layout lines).map Instruction.reread := by
  simp [layout, linesCode_reread, Instruction.reread]

section

variable {lines : List (ActionLine R)}

theorem flatMap_rereadLines :
    (rereadLines lines).flatMap ActionLine.actions = rereadAll (lines.flatMap ActionLine.actions) := by
  rw [rereadLines, List.flatMap_map, rereadAll_eq_map, List.map_flatMap]
  exact List.flatMap_congr fun line _ => rereadAll_eq_map line.actions

theorem isSome_at?_reread {n : LineNumber} (h : (Point.at? n lines).isSome) :
    (Point.at? n (rereadLines lines)).isSome := by
  rw [Point.at?_isSome_iff] at h ⊢
  rwa [rereadLines, List.map_map]

theorem isSome_behind?_reread {k : Nat} (h : (Point.behind? k lines).isSome) :
    (Point.behind? k (rereadLines lines)).isSome := by
  rw [Point.behind?_isSome_iff] at h ⊢
  rwa [flatMap_rereadLines, forsAll_reread]

mutual

theorem proper_reread : ∀ a : Action R, a.Proper lines → a.reread.Proper (rereadLines lines)
  | call _ _, h => by rwa [reread, Proper, Expr.namesAll_reread]
  | .end, _ | rem, _ | .return, _ => trivial
  | .for _ _ _ step, h => by
      obtain ⟨hname, hstart, hlimit, hstep⟩ := h
      rw [reread, Proper, Expr.names_reread, Expr.names_reread]
      refine ⟨hname, hstart, hlimit, ?_⟩
      intro e he n hn
      cases he
      cases step with
      | none => cases hn
      | some e =>
          rw [Option.map_some, Option.getD_some, Expr.names_reread] at hn
          exact hstep e rfl n hn
  | gosub _, h | goto _, h => isSome_at?_reread h
  | branch _ thenBody elseBody, h => by
      rw [reread, Proper, Expr.names_reread]
      exact ⟨h.1, allProper_reread thenBody h.2.1, allProper_reread elseBody h.2.2⟩
  | assign _ _, h => by rwa [reread, Proper, Expr.names_reread]
  | next none, h => h
  | next (some _), h => ⟨h.1, h.2.1, isSome_behind?_reread h.2.2⟩

theorem allProper_reread : ∀ as : List (Action R), AllProper lines as →
    AllProper (rereadLines lines) (rereadAll as)
  | [], _ => trivial
  | a :: as, h => ⟨proper_reread a h.1, allProper_reread as h.2⟩

end

/-- Lines that are never reached are not reached either when their numbers are
reread. -/
theorem Prunable.reread {keep : LineNumber → Bool} (h : Prunable keep lines) :
    Prunable keep (rereadLines lines) where
  first line hline := by
    rw [rereadLines, List.head?_map, Option.mem_map] at hline
    obtain ⟨line, hmem, rfl⟩ := hline
    exact h.first line hmem
  loops line hline hfors := by
    obtain ⟨line, hmem, rfl⟩ := List.mem_map.mp hline
    rw [ActionLine.reread, forsAll_reread] at hfors
    exact h.loops line hmem hfors
  targets line hline hkeep n hn := by
    obtain ⟨line, hmem, rfl⟩ := List.mem_map.mp hline
    rw [ActionLine.reread, targetsAll_reread] at hn
    exact h.targets line hmem hkeep n hn
  next front line line' back hlines hkeep hend := by
    obtain ⟨front, back, rfl, rfl, hback⟩ := List.map_eq_append_iff.mp hlines
    obtain ⟨line, later, rfl, rfl, hlater⟩ := List.map_eq_cons_iff.mp hback
    obtain ⟨line', back, rfl, rfl, rfl⟩ := List.map_eq_cons_iff.mp hlater
    rw [ActionLine.reread, endsElsewhere_reread] at hend
    exact h.next front line line' back rfl hkeep hend

theorem keptLines_reread (keep : LineNumber → Bool) (lines : List (ActionLine R)) :
    keptLines keep (rereadLines lines) = rereadLines (keptLines keep lines) := by
  rw [keptLines, keptLines, rereadLines, List.filter_map]
  rfl

end

/-- A machine that loads what was compiled runs as the tidied program says, with
its numbers as they are read. -/
theorem runs_of_compile {registry : Registry} {flags : Flags} {source : String} {p : Program R}
    (hread : Program.read registry source = .ok p) {script : Script}
    (h : compile R registry flags source = .ok script) (m : Machine R W) (hhook : m.hook = none) :
    ∃ m', m.load script.text = .ok m' ∧ ∀ w, ∃ r, m'.start Script.entry = .ok r ∧
      Process.Same m'.noting.process notedCalls (r, (w, []))
        (interpretation m.native?.noting (some Stack.capacity)
          (rereadLines (p.tidied flags).actionLines)) notedCalls
        (Moment.start (rereadLines (p.tidied flags).actionLines), (w, [])) := by
  obtain ⟨p', hread', hpair, hroom, hemit⟩ := exists_of_compile h
  obtain rfl : p = p' := Except.ok.inj (hread.symm.trans hread')
  have hsound := Program.sound_of_read hread
  have hoptimize := hsound.optimize hpair
  obtain ⟨linked, hlink, hload⟩ := load_of_emit (W := W) hoptimize hroom hemit
  have hlines : rereadLines (p.optimize flags).actionLines =
      keptLines (Flow.ofProgram (p.tidied flags)).isReachable
        (rereadLines (p.tidied flags).actionLines) := by
    rw [keptLines_reread, ← Program.actionLines_prune, Program.optimize_eq]
  have hlayout : layout (rereadLines (p.optimize flags).actionLines) =
      (p.optimize flags).layout.map Instruction.reread :=
    layout_reread _
  have hproper : ∀ line ∈ rereadLines (p.optimize flags).actionLines,
      AllProper (rereadLines (p.optimize flags).actionLines) line.actions := by
    rintro line hline
    obtain ⟨line, hmem, rfl⟩ := List.mem_map.mp hline
    exact allProper_reread line.actions (hoptimize.proper line hmem)
  have hprunable := (Program.prunable (p := p.tidied flags)
    (Program.numbers_tidied flags p ▸ hsound.coherent.nodup)).reread
  refine ⟨{ m with linked }, hload m, fun w => ?_⟩
  obtain ⟨r, hr, hsame, -⟩ := same_interpretation hproper
    (by rwa [hlayout, List.length_map]) { m with linked } w (by rwa [hlayout]) hhook
  refine ⟨r, hr, hsame.trans ?_⟩
  rw [hlines]
  exact (hprunable.same _ _ w).symm

end LineBasic
