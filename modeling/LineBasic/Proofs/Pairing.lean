import LineBasic.Compilation
import LineBasic.Proofs.Layout
import LineBasic.Proofs.Reachable

/-!
How the loops of a program pair is settled by the FORs and NEXTs of its text in order. Checking accepts only programs
whose loops pair and whose targets exist; folding and pruning keep both, and so does tidying if it drops no IF with a loop
in it.
-/

namespace LineBasic

variable {R : Type}

/-- A FOR or a NEXT, as far as pairing looks at it. -/
inductive LoopMark where
  | opens (name : String)
  | closes (v : Option Variable)
deriving DecidableEq, Repr

namespace Loops

def mark (loops : Loops) : LoopMark → Loops
  | .opens name => loops.open name
  | .closes _ => loops.close

def marks (loops : Loops) (ms : List LoopMark) : Loops :=
  ms.foldl mark loops

/-- Every NEXT closes a loop. -/
def accepts (loops : Loops) : List LoopMark → Bool
  | [] => true
  | .opens name :: ms => (loops.open name).accepts ms
  | .closes v :: ms => (loops.closed v).isSome && loops.close.accepts ms

theorem marks_append (loops : Loops) (ms ms' : List LoopMark) :
    loops.marks (ms ++ ms') = (loops.marks ms).marks ms' :=
  List.foldl_append

theorem accepts_append (loops : Loops) (ms ms' : List LoopMark) :
    loops.accepts (ms ++ ms') = (loops.accepts ms && (loops.marks ms).accepts ms') := by
  induction ms generalizing loops with
  | nil => rfl
  | cons m ms ih =>
      cases m with
      | opens name => exact ih _
      | closes v =>
          simp only [List.cons_append, accepts, ih, Bool.and_assoc]
          rfl

end Loops

namespace Stmt

mutual

/-- The FORs and NEXTs in a statement, in the order they are written. -/
def loopMarks : Stmt R → List LoopMark
  | .for _ v _ _ _ => [.opens v.name]
  | next _ v => [.closes v]
  | .if _ _ thenBody elseBody => loopMarksAll thenBody ++ loopMarksAll elseBody
  | _ => []

def loopMarksAll : List (Stmt R) → List LoopMark
  | [] => []
  | s :: ss => s.loopMarks ++ loopMarksAll ss

end

theorem loopMarksAll_append (ss ss' : List (Stmt R)) :
    loopMarksAll (ss ++ ss') = loopMarksAll ss ++ loopMarksAll ss' := by
  induction ss with
  | nil => rfl
  | cons s ss ih => simp [loopMarksAll, ih]

mutual

theorem loopMarks_eq_nil_iff : ∀ s : Stmt R, s.loopMarks = [] ↔ s.hasLoop = false
  | call _ _ _ | .end _ | gosub _ _ | goto _ _ | .let _ _ _ | print _ _ | rem _ | .return _ => by
      simp [loopMarks, hasLoop]
  | .for _ _ _ _ _ | next _ _ => by simp [loopMarks, hasLoop]
  | .if _ _ thenBody elseBody => by
      simp [loopMarks, hasLoop, loopMarksAll_eq_nil_iff thenBody,
        loopMarksAll_eq_nil_iff elseBody]

theorem loopMarksAll_eq_nil_iff :
    ∀ ss : List (Stmt R), loopMarksAll ss = [] ↔ anyHasLoop ss = false
  | [] => by simp [loopMarksAll, anyHasLoop]
  | s :: ss => by
      simp [loopMarksAll, anyHasLoop, loopMarks_eq_nil_iff s, loopMarksAll_eq_nil_iff ss]

end

mutual

theorem pair_snd (loops : Loops) : ∀ s : Stmt R, (s.pair loops).2 = loops.marks s.loopMarks
  | call _ _ _ | .end _ | gosub _ _ | goto _ _ | .let _ _ _ | print _ _ | rem _ | .return _ =>
      rfl
  | .for _ _ _ _ _ | next _ _ => rfl
  | .if _ _ thenBody elseBody => by
      simp only [pair, loopMarks, Loops.marks_append]
      rw [← pairAll_snd loops thenBody, ← pairAll_snd _ elseBody]

theorem pairAll_snd (loops : Loops) :
    ∀ ss : List (Stmt R), (pairAll loops ss).2 = loops.marks (loopMarksAll ss)
  | [] => rfl
  | s :: ss => by
      simp only [pairAll, loopMarksAll, Loops.marks_append]
      rw [← pair_snd loops s, ← pairAll_snd _ ss]

end

mutual

theorem isPaired_pair (loops : Loops) :
    ∀ s : Stmt R, (s.pair loops).1.isPaired = loops.accepts s.loopMarks
  | call _ _ _ | .end _ | gosub _ _ | goto _ _ | .let _ _ _ | print _ _ | rem _ | .return _ =>
      rfl
  | .for _ _ _ _ _ => rfl
  | next _ v => by
      simp only [pair, loopMarks, Loops.accepts, Bool.and_true]
      cases loops.closed v <;> rfl
  | .if _ _ thenBody elseBody => by
      simp only [pair, loopMarks, Action.isPaired, Loops.accepts_append]
      rw [allPaired_pairAll loops thenBody, allPaired_pairAll _ elseBody,
        pairAll_snd loops thenBody]

theorem allPaired_pairAll (loops : Loops) :
    ∀ ss : List (Stmt R),
      Action.allPaired (pairAll loops ss).1 = loops.accepts (loopMarksAll ss)
  | [] => rfl
  | s :: ss => by
      simp only [pairAll, loopMarksAll, Action.allPaired, Loops.accepts_append]
      rw [isPaired_pair loops s, allPaired_pairAll _ ss, pair_snd loops s]

end

end Stmt

namespace Program

/-- The FORs and NEXTs of lines, in the order they are written. -/
def loopMarksOf (lines : List (ProgramLine R)) : List LoopMark :=
  lines.flatMap fun line => Stmt.loopMarksAll line.statements

theorem pairLines_snd (loops : Loops) (lines : List (ProgramLine R)) :
    (pairLines loops lines).2 = loops.marks (loopMarksOf lines) := by
  induction lines generalizing loops with
  | nil => rfl
  | cons line lines ih =>
      simp only [pairLines, loopMarksOf, List.flatMap_cons, Loops.marks_append]
      rw [ih, Stmt.pairAll_snd]
      rfl

theorem allPaired_pairLines (loops : Loops) (lines : List (ProgramLine R)) :
    (∀ line ∈ (pairLines loops lines).1, Action.allPaired line.actions) ↔
      loops.accepts (loopMarksOf lines) := by
  induction lines generalizing loops with
  | nil => simp [pairLines, loopMarksOf, Loops.accepts]
  | cons line lines ih =>
      simp only [pairLines, loopMarksOf, List.flatMap_cons, Loops.accepts_append,
        List.forall_mem_cons, Bool.and_eq_true]
      rw [ih, Stmt.pairAll_snd, Stmt.allPaired_pairAll]
      rfl

/-- Whether loops pair depends on the FORs and NEXTs in order, and on nothing
else. -/
theorem loopsPair_iff (p : Program R) :
    p.LoopsPair ↔ ({} : Loops).accepts (loopMarksOf p.lines) ∧
      (({} : Loops).marks (loopMarksOf p.lines)).opened = [] := by
  rw [LoopsPair, actionLines, allPaired_pairLines, pairLines_snd]

theorem loopsPair_congr {p q : Program R} (h : loopMarksOf p.lines = loopMarksOf q.lines) :
    p.LoopsPair ↔ q.LoopsPair := by
  rw [loopsPair_iff, loopsPair_iff, h]

end Program

end LineBasic
