import LineBasic.Proofs.Names

namespace LineBasic

variable {R : Type}

namespace Expr

mutual

/-- An expression without its columns. -/
def bare : Expr R → Expr R
  | number _ n => number {} n
  | string _ s => string {} s
  | char _ c => char {} c
  | var _ name => var {} name
  | call _ name args => call {} name (bareAll args)
  | unary op _ e => unary op {} e.bare
  | binary op _ l r => binary op {} l.bare r.bare

def bareAll : List (Expr R) → List (Expr R)
  | [] => []
  | e :: es => e.bare :: bareAll es

end

end Expr

def Variable.bare (v : Variable) : Variable :=
  { column := {}, name := v.name }

/-- A target without its column, under another name. -/
def Target.bare (f : LineNumber → LineNumber) (t : Target) : Target :=
  { column := {}, line := f t.line }

namespace Stmt

mutual

/-- A statement without its columns, its lines under other names. -/
def bare (f : LineNumber → LineNumber) : Stmt R → Stmt R
  | call _ name args => call {} name (Expr.bareAll args)
  | .end _ => .end {}
  | .for _ v start limit step => .for {} v.bare start.bare limit.bare (step.map Expr.bare)
  | gosub _ t => gosub {} (t.bare f)
  | goto _ t => goto {} (t.bare f)
  | .if _ condition thenBody elseBody =>
      .if {} condition.bare (bareAll f thenBody) (bareAll f elseBody)
  | .let _ v e => .let {} v.bare e.bare
  | next _ v => next {} (v.map Variable.bare)
  | print _ items => print {} (Expr.bareAll items)
  | rem _ => rem {}
  | .return _ => .return {}

def bareAll (f : LineNumber → LineNumber) : List (Stmt R) → List (Stmt R)
  | [] => []
  | s :: ss => s.bare f :: bareAll f ss

end

end Stmt

/-- A line without its columns, all lines under other names. -/
def ProgramLine.bare (f : LineNumber → LineNumber) (line : ProgramLine R) : ProgramLine R :=
  { number := f line.number, statements := Stmt.bareAll f line.statements }

/-- A program without its columns, its lines under other names. -/
def Program.bare (f : LineNumber → LineNumber) (p : Program R) : Program R :=
  { lines := p.lines.map (ProgramLine.bare f) }

variable {f : LineNumber → LineNumber}

section Folding

variable [NumberSystem R]

namespace Expr

omit [NumberSystem R] in
theorem bare_column (e : Expr R) : e.bare.column = {} := by
  cases e <;> rfl

omit [NumberSystem R] in
theorem literal?_bare (e : Expr R) : e.bare.literal? = e.literal? := by
  cases e <;> rfl

theorem bare_orLiteral (e : Expr R) (result : Except Error (Value R)) :
    (e.orLiteral result).bare = e.bare.orLiteral result := by
  cases result with
  | error _ => rfl
  | ok v =>
      cases v with
      | number n =>
          unfold orLiteral
          rw [bare_column]
          dsimp only
          split <;> rfl
      | string s =>
          unfold orLiteral
          rw [bare_column]
          rfl

mutual

theorem bare_fold : ∀ e : Expr R, e.fold.bare = e.bare.fold
  | number _ _ | string _ _ | char _ _ | var _ _ => rfl
  | call _ name args => by rw [fold, bare, bareAll_foldAll args, bare, fold]
  | unary op column e => by
      rw [fold, bare, fold, ← bare_fold e, literal?_bare]
      split
      · exact bare_orLiteral _ _
      · rfl
  | binary op column l r => by
      rw [fold, bare, fold, ← bare_fold l, ← bare_fold r, literal?_bare, literal?_bare]
      split
      · exact bare_orLiteral _ _
      · rfl

theorem bareAll_foldAll : ∀ es : List (Expr R), bareAll (foldAll es) = foldAll (bareAll es)
  | [] => rfl
  | e :: es => by
      rw [foldAll, bareAll, bareAll, foldAll, bare_fold e, bareAll_foldAll es]

end

end Expr

namespace Stmt

mutual

theorem bare_fold : ∀ s : Stmt R, s.fold.bare f = (s.bare f).fold
  | .end _ | gosub _ _ | goto _ _ | rem _ | .return _ | next _ _ => rfl
  | call _ name args => by rw [fold, bare, bare, fold, Expr.bareAll_foldAll]
  | print _ items => by rw [fold, bare, bare, fold, Expr.bareAll_foldAll]
  | .let _ v e => by rw [fold, bare, bare, fold, Expr.bare_fold]
  | .for _ v start limit step => by
      rw [fold, bare, bare, fold, Expr.bare_fold, Expr.bare_fold, Option.map_map, Option.map_map]
      congr 2
      funext e
      exact e.bare_fold
  | .if _ condition thenBody elseBody => by
      rw [fold, bare, bare, fold, Expr.bare_fold, bareAll_foldAll thenBody, bareAll_foldAll elseBody]

theorem bareAll_foldAll : ∀ ss : List (Stmt R), bareAll f (foldAll ss) = foldAll (bareAll f ss)
  | [] => rfl
  | s :: ss => by rw [foldAll, bareAll, bareAll, foldAll, bare_fold s, bareAll_foldAll ss]

end

end Stmt

theorem Program.bare_fold (p : Program R) : p.fold.bare f = (p.bare f).fold := by
  simp only [Program.bare, Program.fold, List.map_map]
  congr 2
  funext line
  exact congrArg (ProgramLine.mk _) (Stmt.bareAll_foldAll line.statements)

end Folding

namespace Stmt

theorem bareAll_append (ss ss' : List (Stmt R)) :
    bareAll f (ss ++ ss') = bareAll f ss ++ bareAll f ss' := by
  induction ss with
  | nil => rfl
  | cons s ss ih => rw [List.cons_append, bareAll, bareAll, ih, List.cons_append]

theorem pairs_bare (s : Stmt R) : (s.bare f).pairs = s.pairs := by
  cases s <;> rfl

theorem isTerminal_bare (s : Stmt R) : (s.bare f).isTerminal = s.isTerminal := by
  cases s <;> rfl

theorem map_isTerminal_bareAll (ss : List (Stmt R)) :
    (bareAll f ss).map isTerminal = ss.map isTerminal := by
  induction ss with
  | nil => rfl
  | cons s ss ih => rw [bareAll, List.map_cons, List.map_cons, isTerminal_bare, ih]

theorem any_isTerminal_bareAll (ss : List (Stmt R)) :
    (bareAll f ss).any isTerminal = ss.any isTerminal := by
  have hmap := congrArg (List.any · id) (map_isTerminal_bareAll (f := f) ss)
  rwa [List.any_map, List.any_map] at hmap

theorem isSelfAssignment_bare (s : Stmt R) : (s.bare f).isSelfAssignment = s.isSelfAssignment := by
  cases s with
  | «let» _ v e => cases e <;> rfl
  | _ => rfl

mutual

theorem hasLoop_bare : ∀ s : Stmt R, (s.bare f).hasLoop = s.hasLoop
  | call _ _ _ | .end _ | gosub _ _ | goto _ _ | .let _ _ _ | print _ _ | rem _ | .return _ => rfl
  | .for _ _ _ _ _ | next _ _ => rfl
  | .if _ _ thenBody elseBody => by
      rw [bare, hasLoop, hasLoop, anyHasLoop_bareAll thenBody, anyHasLoop_bareAll elseBody]

theorem anyHasLoop_bareAll : ∀ ss : List (Stmt R), anyHasLoop (bareAll f ss) = anyHasLoop ss
  | [] => rfl
  | s :: ss => by
      rw [bareAll, anyHasLoop, anyHasLoop, hasLoop_bare s, anyHasLoop_bareAll ss]

end

variable [NumberSystem R]

mutual

theorem bareAll_tidy : ∀ s : Stmt R, bareAll f s.tidy = (s.bare f).tidy
  | call _ _ _ | .end _ | gosub _ _ | goto _ _ | print _ _ | rem _ | .return _ | next _ _
  | .for _ _ _ _ _ => rfl
  | .let column v e => by
      have hself : (Stmt.let {} v.bare e.bare).isSelfAssignment = _ :=
        isSelfAssignment_bare (f := f) (.let column v e)
      rw [tidy_let, bare, tidy_let, hself]
      split <;> rfl
  | .if column condition thenBody elseBody => by
      have hthen := bareAll_tidyAll false thenBody
      have helse := bareAll_tidyAll false elseBody
      have hkept : bareAll f [Stmt.if column condition (tidyAll false thenBody)
          (tidyAll false elseBody)] = [.if {} condition.bare (tidyAll false (bareAll f thenBody))
          (tidyAll false (bareAll f elseBody))] := by
        rw [bareAll, bareAll, bare, hthen, helse]
      cases condition with
      | number column n =>
          rw [tidy, bare, Expr.bare, tidy, anyHasLoop_bareAll, anyHasLoop_bareAll]
          split
          · exact hkept
          · split
            · exact helse
            · exact hthen
      | _ =>
          rw [tidy, bare, Expr.bare, tidy]
          · exact hkept
          all_goals simp

theorem bareAll_tidyAll (dead : Bool) : ∀ ss : List (Stmt R),
    bareAll f (tidyAll dead ss) = tidyAll dead (bareAll f ss)
  | [] => by rw [tidyAll, bareAll, tidyAll]
  | s :: ss => by
      rw [tidyAll, bareAll, tidyAll, pairs_bare]
      split
      · split
        · rw [bareAll, bareAll_tidyAll true ss]
        · exact bareAll_tidyAll true ss
      · dsimp only
        rw [bareAll_append, bareAll_tidyAll _ ss, ← bareAll_tidy s, any_isTerminal_bareAll]

end

end Stmt

theorem Program.bare_tidy [NumberSystem R] (p : Program R) : p.tidy.bare f = (p.bare f).tidy := by
  simp only [Program.bare, Program.tidy, List.map_map]
  congr 2
  funext line
  exact congrArg (ProgramLine.mk _) (Stmt.bareAll_tidyAll false line.statements)

def Instruction.rename (label : String → String) (number : LineNumber → LineNumber) :
    Instruction R String → Instruction R String
  | .label name => .label (label name)
  | line n => line (number n)
  | jump t => jump (label t)
  | ifNot t => ifNot (label t)
  | gosub t => gosub (label t)
  | next v limit step t => next v limit step (label t)
  | i => i

theorem Instruction.rename_id : rename (R := R) id id = id := by
  funext i
  cases i <;> rfl

/-- Names for labels that give the labels of lines other names, and no other label. -/
structure Renames (label : String → String) (f : LineNumber → LineNumber) : Prop where
  line : ∀ n, label (lineLabel n) = lineLabel (f n)
  entry : label Script.entry = Script.entry
  otherwise : ∀ place : Place, label place.otherwise = place.otherwise
  exit : ∀ place : Place, label place.exit = place.exit
  body : ∀ place : Place, label place.body = place.body

namespace Action

mutual

/-- An action without its columns, its lines under other names. -/
def bare (f : LineNumber → LineNumber) : Action R → Action R
  | call name args => call name (Expr.bareAll args)
  | .for loop start limit step => .for loop start.bare limit.bare (step.map Expr.bare)
  | gosub line => gosub (f line)
  | goto line => goto (f line)
  | branch condition thenBody elseBody =>
      branch condition.bare (bareAll f thenBody) (bareAll f elseBody)
  | assign name e => assign name e.bare
  | a => a

def bareAll (f : LineNumber → LineNumber) : List (Action R) → List (Action R)
  | [] => []
  | a :: as => a.bare f :: bareAll f as

end

mutual

theorem isPaired_bare : ∀ a : Action R, (a.bare f).isPaired = a.isPaired
  | branch _ thenBody elseBody => by
      rw [bare, isPaired, isPaired, allPaired_bareAll thenBody, allPaired_bareAll elseBody]
  | next none | next (some _) => rfl
  | call _ _ | .end | .for _ _ _ _ | gosub _ | goto _ | assign _ _ | rem | .return => rfl

theorem allPaired_bareAll : ∀ as : List (Action R), allPaired (bareAll f as) = allPaired as
  | [] => rfl
  | a :: as => by rw [bareAll, allPaired, allPaired, isPaired_bare a, allPaired_bareAll as]

end

end Action

namespace Stmt

theorem closed_bare (loops : Loops) (v : Option Variable) :
    loops.closed (v.map Variable.bare) = loops.closed v := by
  cases v <;> rfl

mutual

theorem pair_bare (loops : Loops) : ∀ s : Stmt R,
    (s.bare f).pair loops = ((s.pair loops).1.bare f, (s.pair loops).2)
  | call _ _ _ | .end _ | gosub _ _ | goto _ _ | .let _ _ _ | print _ _ | rem _ | .return _
  | .for _ _ _ _ _ => rfl
  | next _ v => by
      rw [bare, pair, pair, closed_bare]
      rfl
  | .if _ _ thenBody elseBody => by
      simp only [bare, pair, Action.bare, pairAll_bare _ thenBody, pairAll_bare _ elseBody]

theorem pairAll_bare (loops : Loops) : ∀ ss : List (Stmt R),
    pairAll loops (bareAll f ss) = (Action.bareAll f (pairAll loops ss).1, (pairAll loops ss).2)
  | [] => rfl
  | s :: ss => by
      simp only [bareAll, pairAll, Action.bareAll, pair_bare _ s, pairAll_bare _ ss]

end

end Stmt

/-- A line without its columns, all lines under other names. -/
def ActionLine.bare (f : LineNumber → LineNumber) (line : ActionLine R) : ActionLine R :=
  { number := f line.number, actions := Action.bareAll f line.actions }

namespace Program

theorem pairLines_bare (loops : Loops) (lines : List (ProgramLine R)) :
    pairLines loops (lines.map (ProgramLine.bare f)) =
      ((pairLines loops lines).1.map (ActionLine.bare f), (pairLines loops lines).2) := by
  induction lines generalizing loops with
  | nil => rfl
  | cons line lines ih =>
      simp only [List.map_cons, pairLines, ProgramLine.bare, Stmt.pairAll_bare, ih, ActionLine.bare]

theorem loopsPair_bare (p : Program R) : (p.bare f).LoopsPair ↔ p.LoopsPair := by
  unfold LoopsPair actionLines Program.bare
  rw [pairLines_bare, List.forall_mem_map]
  simp only [ActionLine.bare, Action.allPaired_bareAll]

end Program

section Code

variable [NumberSystem R] {g : String → String}

namespace Expr

omit [NumberSystem R] in
theorem length_bareAll (es : List (Expr R)) : (bareAll es).length = es.length := by
  induction es with
  | nil => rfl
  | cons e es ih => rw [bareAll, List.length_cons, List.length_cons, ih]

mutual

theorem code_bare : ∀ e : Expr R, e.bare.code = e.code.map (Instruction.rename g f)
  | number _ _ | string _ _ | char _ _ | var _ _ => rfl
  | call _ name args => by
      rw [bare, code, code, codeAll_bareAll args, length_bareAll, List.map_append]
      rfl
  | unary op _ e => by
      rw [bare, code, code, code_bare e, List.map_append]
      rfl
  | binary op _ l r => by
      rw [bare, code, code, code_bare l, code_bare r, List.map_append, List.map_append]
      rfl

theorem codeAll_bareAll : ∀ es : List (Expr R),
    codeAll (bareAll es) = (codeAll es).map (Instruction.rename g f)
  | [] => rfl
  | e :: es => by rw [bareAll, codeAll, codeAll, code_bare e, codeAll_bareAll es, List.map_append]

end

end Expr

namespace Action

theorem loopCode_bare (hg : Renames g f) (loop : Loop) (start limit : Expr R) (step : Option (Expr R)) :
    Stmt.loopCode ⟨loop.number⟩ ⟨{}, loop.name⟩ start.bare limit.bare (step.map Expr.bare) =
      (Stmt.loopCode ⟨loop.number⟩ ⟨{}, loop.name⟩ start limit step).map
        (Instruction.rename g f) := by
  cases step <;>
    simp [Stmt.loopCode, Expr.code_bare (g := g) (f := f), Instruction.rename, hg.body]

mutual

theorem code_bare (hg : Renames g f) (b : Nat) : ∀ a : Action R,
    (a.bare f).code b = ((a.code b).1.map (Instruction.rename g f), (a.code b).2)
  | call name args => by
      rw [bare, code, code, Expr.codeAll_bareAll (g := g) (f := f), Expr.length_bareAll,
        List.map_append]
      rfl
  | .for loop start limit step => by rw [bare, code, code, loopCode_bare hg]
  | gosub line => by
      rw [bare, code, code, ← hg.line]
      rfl
  | goto line => by
      rw [bare, code, code, ← hg.line]
      rfl
  | branch condition thenBody elseBody => by
      have hempty : (bareAll f elseBody).isEmpty = elseBody.isEmpty := by
        cases elseBody <;> rfl
      simp only [bare, code, codeAll_bareAll hg _ thenBody, codeAll_bareAll hg _ elseBody, hempty,
        Expr.code_bare (g := g) (f := f)]
      split <;> simp [Instruction.rename, hg.otherwise, hg.exit]
  | assign name e => by
      rw [bare, code, code, Expr.code_bare (g := g) (f := f), List.map_append]
      rfl
  | next none => rfl
  | next (some loop) => by
      show ([Stmt.nextCode ⟨loop.number⟩ loop.name], b) =
        ([(Stmt.nextCode ⟨loop.number⟩ loop.name).rename g f], b)
      rw [Stmt.nextCode, Instruction.rename, hg.body]
  | .end | rem | .return => rfl

theorem codeAll_bareAll (hg : Renames g f) (b : Nat) : ∀ as : List (Action R),
    codeAll b (bareAll f as) = ((codeAll b as).1.map (Instruction.rename g f), (codeAll b as).2)
  | [] => rfl
  | a :: as => by
      simp only [bareAll, codeAll, code_bare hg b a, codeAll_bareAll hg _ as, List.map_append]

end

theorem linesCode_bare (hg : Renames g f) (b : Nat) (lines : List (ActionLine R)) :
    linesCode b (lines.map (ActionLine.bare f)) =
      ((linesCode b lines).1.map (Instruction.rename g f), (linesCode b lines).2) := by
  induction lines generalizing b with
  | nil => rfl
  | cons line lines ih =>
      simp only [List.map_cons, linesCode, ActionLine.bare, codeAll_bareAll hg, ih,
        List.map_append, List.map_nil, Instruction.rename, hg.line]

end Action

/-- The layout of a program under other line numbers is its layout with their labels and markers. -/
theorem Program.layout_bare (hg : Renames g f) (p : Program R) :
    (p.bare f).layout = p.layout.map (Instruction.rename g f) := by
  have hlines : (p.bare f).actionLines = p.actionLines.map (ActionLine.bare f) := by
    rw [actionLines, Program.bare, pairLines_bare]
    rfl
  rw [layout, layout, hlines, Action.layout, Action.layout, Action.linesCode_bare hg]
  simp [Instruction.rename, hg.entry]

end Code

end LineBasic
