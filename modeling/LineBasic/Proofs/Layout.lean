import LineBasic.Proofs.Linking
import LineBasic.Proofs.Meaning

namespace LineBasic

variable {R : Type}

section

variable [NumberSystem R]

namespace Action

mutual

/-- The code of an action, and the number of branches behind it. -/
def code (branches : Nat) : Action R → List (Instruction R String) × Nat
  | call name args => (Expr.codeAll args ++ [.exec name args.length], branches)
  | .end => ([.end], branches)
  | .for loop start limit step =>
      (Stmt.loopCode ⟨loop.number⟩ ⟨{}, loop.name⟩ start limit step, branches)
  | gosub line => ([.gosub (lineLabel line)], branches)
  | goto line => ([.jump (lineLabel line)], branches)
  | branch condition thenBody elseBody =>
      let place : Place := ⟨branches + 1⟩
      let (thenCode, branches) := codeAll (branches + 1) thenBody
      let front := condition.code ++ [.ifNot place.otherwise] ++ thenCode
      if elseBody.isEmpty then (front ++ [.label place.otherwise], branches)
      else
        let (elseCode, branches) := codeAll branches elseBody
        (front ++ [.jump place.exit, .label place.otherwise] ++ elseCode ++
          [.label place.exit], branches)
  | assign name e => (e.code ++ [.pop name], branches)
  | next (some loop) => ([Stmt.nextCode ⟨loop.number⟩ loop.name], branches)
  | next none => ([], branches)
  | rem => ([], branches)
  | .return => ([.return], branches)

def codeAll (branches : Nat) : List (Action R) → List (Instruction R String) × Nat
  | [] => ([], branches)
  | action :: actions =>
      let (code, branches) := action.code branches
      let (rest, branches) := codeAll branches actions
      (code ++ rest, branches)

end

mutual

def isPaired : Action R → Bool
  | next none => false
  | branch _ thenBody elseBody => allPaired thenBody && allPaired elseBody
  | _ => true

def allPaired : List (Action R) → Bool
  | [] => true
  | action :: actions => action.isPaired && allPaired actions

end

/-- The code of lines, each after its label and its marker. -/
def linesCode (branches : Nat) : List (ActionLine R) → List (Instruction R String) × Nat
  | [] => ([], branches)
  | line :: lines =>
      let (code, branches) := codeAll branches line.actions
      let (rest, branches) := linesCode branches lines
      ([.label (lineLabel line.number), .line line.number] ++ code ++ rest, branches)

/-- The code of lines from the entry label to the END behind them. -/
def layout (lines : List (ActionLine R)) : List (Instruction R String) :=
  [.label Script.entry] ++ (linesCode 0 lines).1 ++ [.end]

end Action

namespace Program

/-- The code of a program whose loops pair. -/
def layout (p : Program R) : List (Instruction R String) :=
  Action.layout p.actionLines

/-- Every NEXT closes the latest open FOR, by its name if it says one, and no
FOR stays open. -/
def LoopsPair (p : Program R) : Prop :=
  (∀ line ∈ p.actionLines, Action.allPaired line.actions) ∧
    (pairLines {} p.lines).2.opened = []

instance (p : Program R) : Decidable p.LoopsPair :=
  inferInstanceAs (Decidable (_ ∧ _))

end Program

end

/-- The tally of the code and the loops of the text count the same. -/
def Tally.Matches (tally : Tally) (loops : Loops) : Prop :=
  tally.loops = loops.count ∧
    tally.openLoops = loops.opened.map fun loop => (⟨loop.number⟩, loop.name)

/-- Code with possible errors is the code of actions if these are paired, and
else has an error. -/
structure Agrees (emitted : List (Except Error (Instruction R String)) × Tally)
    (code : List (Instruction R String) × Nat) (paired : Bool) (loops : Loops) : Prop where
  matches_loops : emitted.2.Matches loops
  branches : emitted.2.branches = code.2
  plain_of_paired : paired → emitted.1 = Stmt.plain code.1
  error_of_not_paired : paired = false → ∃ e, .error e ∈ emitted.1
  code_of_error : ∀ e, .error e ∈ emitted.1 → e.code = .nextWithoutFor

theorem Tally.Matches.start : ({} : Tally).Matches {} :=
  ⟨rfl, rfl⟩

theorem Stmt.plain_append (code code' : List (Instruction R String)) :
    plain (code ++ code') = plain code ++ plain code' :=
  List.map_append

theorem Agrees.append {is is' : List (Except Error (Instruction R String))}
    {tally tally' : Tally} {code code' : List (Instruction R String)} {b b' : Nat}
    {paired paired' : Bool} {loops loops' : Loops}
    (h : Agrees (is, tally) (code, b) paired loops)
    (h' : Agrees (is', tally') (code', b') paired' loops') :
    Agrees (is ++ is', tally') (code ++ code', b') (paired && paired') loops' where
  matches_loops := h'.matches_loops
  branches := h'.branches
  plain_of_paired hpaired := by
    rw [Bool.and_eq_true] at hpaired
    rw [Stmt.plain_append, ← h.plain_of_paired hpaired.1, ← h'.plain_of_paired hpaired.2]
  error_of_not_paired hpaired := by
    rcases Bool.and_eq_false_iff.mp hpaired with hfalse | hfalse
    · obtain ⟨e, he⟩ := h.error_of_not_paired hfalse
      exact ⟨e, List.mem_append_left _ he⟩
    · obtain ⟨e, he⟩ := h'.error_of_not_paired hfalse
      exact ⟨e, List.mem_append_right _ he⟩
  code_of_error e he := by
    rcases List.mem_append.mp he with he | he
    · exact h.code_of_error e he
    · exact h'.code_of_error e he

theorem Stmt.not_error_mem_plain (code : List (Instruction R String)) (e : Error) :
    .error e ∉ plain code := by
  simp [plain]

/-- Plain code that changes no loops agrees with itself. -/
theorem Agrees.of_plain {tally : Tally} {loops : Loops} (h : tally.Matches loops)
    (code : List (Instruction R String)) :
    Agrees (Stmt.plain code, tally) (code, tally.branches) true loops where
  matches_loops := h
  branches := rfl
  plain_of_paired _ := rfl
  error_of_not_paired h := by cases h
  code_of_error e he := absurd he (Stmt.not_error_mem_plain code e)

theorem Agrees.of_error {tally : Tally} {loops : Loops} (h : tally.Matches loops)
    {e : Error} (he : e.code = .nextWithoutFor) :
    Agrees (R := R) ([.error e], tally) ([], tally.branches) false loops where
  matches_loops := h
  branches := rfl
  plain_of_paired h := by cases h
  error_of_not_paired _ := ⟨e, List.mem_singleton.mpr rfl⟩
  code_of_error e' he' := by
    cases List.mem_singleton.mp he'
    exact he

variable [NumberSystem R]

theorem Tally.Matches.opened {tally : Tally} {loops : Loops} (h : tally.Matches loops)
    (name : String) :
    Tally.Matches { tally with
      loops := tally.loops + 1
      openLoops := (⟨tally.loops + 1⟩, name) :: tally.openLoops } (loops.open name) := by
  obtain ⟨hcount, hopened⟩ := h
  exact ⟨congrArg (· + 1) hcount, by simp [Loops.open, hcount, hopened]⟩

theorem Stmt.code_next (tally : Tally) (column : Column) (v : Option Variable) :
    (next column v : Stmt R).code tally =
      match tally.openLoops with
      | [] => ([.error { code := .nextWithoutFor, column }], tally)
      | (place, name) :: openLoops =>
          match v with
          | some v =>
              if v.name = name then (plain [nextCode place name], { tally with openLoops })
              else
                ([.error (ErrorCode.nextWithoutFor.errorAt v.column v.name)],
                  { tally with openLoops })
          | none => (plain [nextCode place name], { tally with openLoops }) := by
  unfold code
  rfl

theorem Stmt.agrees_next {tally : Tally} {loops : Loops} (h : tally.Matches loops)
    (column : Column) (v : Option Variable) :
    Agrees ((next column v : Stmt R).code tally)
      ((Action.next (loops.closed v)).code tally.branches)
      (Action.next (R := R) (loops.closed v)).isPaired loops.close := by
  obtain ⟨hcount, hopened⟩ := h
  rw [code_next, hopened]
  cases hloops : loops.opened with
  | nil =>
      have hclosed : loops.closed v = none := by rw [Loops.closed, hloops]
      rw [hclosed]
      have hclose : tally.Matches loops.close := ⟨hcount, by
        simp [Loops.close, hloops, hopened]⟩
      exact Agrees.of_error hclose rfl
  | cons loop opened =>
      have hclose : Tally.Matches { tally with
          openLoops := opened.map fun loop => (⟨loop.number⟩, loop.name) } loops.close :=
        ⟨hcount, by simp [Loops.close, hloops]⟩
      rw [List.map_cons]
      dsimp only
      cases v with
      | none =>
          have hclosed : loops.closed none = some loop := by rw [Loops.closed, hloops]
          rw [hclosed]
          exact Agrees.of_plain hclose _
      | some v =>
          dsimp only
          split
          · rename_i hname
            have hclosed : loops.closed (some v) = some loop := by
              rw [Loops.closed, hloops]
              exact if_pos hname.symm
            rw [hclosed]
            exact Agrees.of_plain hclose _
          · rename_i hname
            have hclosed : loops.closed (some v) = none := by
              rw [Loops.closed, hloops]
              exact if_neg (Ne.symm hname)
            rw [hclosed]
            exact Agrees.of_error hclose rfl

omit [NumberSystem R] in
theorem Stmt.pairAll_isEmpty (loops : Loops) (ss : List (Stmt R)) :
    (pairAll loops ss).1.isEmpty = ss.isEmpty := by
  cases ss <;> rfl

namespace Stmt

mutual

theorem agrees_code {tally : Tally} {loops : Loops} (h : tally.Matches loops) :
    ∀ s : Stmt R, Agrees (s.code tally) ((s.pair loops).1.code tally.branches)
      (s.pair loops).1.isPaired (s.pair loops).2
  | call _ _ _ | .end _ | gosub _ _ | goto _ _ | .let _ _ _ | print _ _ | .return _ =>
      Agrees.of_plain h _
  | rem _ => Agrees.of_plain h []
  | .for _ v start limit step => by
      obtain ⟨hcount, hopened⟩ := h
      simp only [code, pair, Action.code, ← hcount]
      exact ⟨Tally.Matches.opened ⟨hcount, hopened⟩ v.name, rfl, fun _ => rfl,
        fun h => by simp [Action.isPaired] at h,
        fun e he => absurd he (not_error_mem_plain _ e)⟩
  | next column v => agrees_next h column v
  | .if _ condition thenBody elseBody => by
      have hinside : Tally.Matches { tally with branches := tally.branches + 1 } loops := h
      have hthen := agrees_codeAll hinside thenBody
      have helse := agrees_codeAll hthen.matches_loops elseBody
      have hfront := (Agrees.of_plain hinside
        (condition.code ++ [.ifNot (Place.otherwise ⟨tally.branches + 1⟩)])).append hthen
      rw [hthen.branches] at helse
      simp only [code, pair, Action.code, Action.isPaired, pairAll_isEmpty]
      split
      · rename_i hempty
        rw [List.isEmpty_iff] at hempty
        subst hempty
        have hall := hfront.append (Agrees.of_plain hthen.matches_loops
          [.label (Place.otherwise ⟨tally.branches + 1⟩)])
        rw [hthen.branches] at hall
        simpa [pairAll, Action.allPaired] using hall
      · have hall := ((hfront.append (Agrees.of_plain hthen.matches_loops
          [.jump (Place.exit ⟨tally.branches + 1⟩),
            .label (Place.otherwise ⟨tally.branches + 1⟩)])).append helse).append
          (Agrees.of_plain helse.matches_loops [.label (Place.exit ⟨tally.branches + 1⟩)])
        rw [helse.branches] at hall
        simpa using hall

theorem agrees_codeAll {tally : Tally} {loops : Loops} (h : tally.Matches loops) :
    ∀ ss : List (Stmt R), Agrees (codeAll tally ss)
      (Action.codeAll tally.branches (pairAll loops ss).1)
      (Action.allPaired (pairAll loops ss).1) (pairAll loops ss).2
  | [] => Agrees.of_plain h []
  | s :: ss => by
      have hs := agrees_code h s
      have hss := agrees_codeAll hs.matches_loops ss
      rw [hs.branches] at hss
      exact hs.append hss

end

end Stmt

def Error.IsTooLarge (e : Error) : Prop :=
  e.code = .outOfMemory ∧ e.text = "PROGRAM TOO LARGE"

namespace Program

theorem agrees_lineEmissions {tally : Tally} {loops : Loops} (h : tally.Matches loops)
    (lines : List (ProgramLine R)) :
    Agrees ((lineEmissions tally lines).1.map Emission.instruction,
        (lineEmissions tally lines).2)
      (Action.linesCode tally.branches (pairLines loops lines).1)
      ((pairLines loops lines).1.all fun line => Action.allPaired line.actions)
      (pairLines loops lines).2 := by
  induction lines generalizing tally loops with
  | nil => exact Agrees.of_plain h []
  | cons line lines ih =>
      have hline := Stmt.agrees_codeAll h line.statements
      have hlines := ih hline.matches_loops
      rw [hline.branches] at hlines
      have hall := ((Agrees.of_plain h
        [.label (lineLabel line.number), .line line.number]).append hline).append hlines
      simpa [lineEmissions, pairLines, Action.linesCode, Stmt.plain, Function.comp_def]
        using hall

omit [NumberSystem R] in
theorem linesPaired_iff (p : Program R) :
    (∀ line ∈ p.actionLines, Action.allPaired line.actions) ↔
      ((pairLines {} p.lines).1.all fun line => Action.allPaired line.actions) :=
  List.all_eq_true.symm

theorem emissions_of_loopsPair {p : Program R} (h : p.LoopsPair) :
    p.emissions.map Emission.instruction = Stmt.plain p.layout := by
  have hlines := agrees_lineEmissions Tally.Matches.start p.lines
  have hopened := hlines.matches_loops.2
  have hplain := hlines.plain_of_paired (p.linesPaired_iff.mp h.1)
  rw [h.2] at hopened
  dsimp only at hopened hplain
  simp only [emissions, hopened, List.map_nil, List.map_cons, List.map_append, hplain,
    layout, Action.layout, actionLines, Stmt.plain]
  rfl

theorem exists_error_of_not_loopsPair {p : Program R} (h : ¬p.LoopsPair) :
    ∃ e, .error e ∈ p.emissions.map Emission.instruction := by
  have hlines := agrees_lineEmissions Tally.Matches.start p.lines
  rw [LoopsPair, linesPaired_iff, not_and_or, Bool.not_eq_true] at h
  simp only [emissions, List.map_cons, List.map_append, List.mem_cons, List.mem_append]
  rcases h with hpaired | hopened
  · obtain ⟨e, he⟩ := hlines.error_of_not_paired hpaired
    exact ⟨e, .inl (.inr he)⟩
  · have hmatch := hlines.matches_loops.2
    dsimp only at hmatch
    obtain ⟨loop, opened, hloops⟩ := List.exists_cons_of_ne_nil hopened
    rw [hloops, List.map_cons] at hmatch
    refine ⟨ErrorCode.forWithoutNext.error loop.name, .inr (.inr ?_)⟩
    rw [hmatch]
    exact List.mem_singleton.mpr rfl

theorem isTooLarge_locate (line : Option LineNumber) :
    (Emission.locate line (ErrorCode.outOfMemory.error "PROGRAM TOO LARGE")).IsTooLarge := by
  cases line <;> exact ⟨rfl, rfl⟩

theorem code_of_mem_emissions {p : Program R} {e : Error}
    (h : .error e ∈ p.emissions.map Emission.instruction) : e.code ≠ .outOfMemory := by
  have hlines := agrees_lineEmissions Tally.Matches.start p.lines
  simp only [emissions, List.map_cons, List.map_append, List.mem_cons, List.mem_append] at h
  rcases h with (h | h) | h | h
  · cases h
  · rw [hlines.code_of_error e h]
    decide
  · cases h
  · split at h
    · cases h
    · cases List.mem_singleton.mp h
      simp [ErrorCode.error]

/-- How many pieces of code stand in front of the first error. -/
def plainSize (pieces : List (Emission R)) : Nat :=
  ((pieces.map Emission.instruction).takeWhile fun i => i matches .ok _).length

omit [NumberSystem R] in
theorem plainSize_of_plain {pieces : List (Emission R)} {code : List (Instruction R String)}
    (h : pieces.map Emission.instruction = Stmt.plain code) :
    plainSize pieces = code.length := by
  rw [plainSize, h, Stmt.plain]
  clear h
  induction code with
  | nil => rfl
  | cons i code ih => simpa using ih

omit [NumberSystem R] in
theorem assembleFrom_of_le {pieces : List (Emission R)} {code : List (Instruction R String)}
    (h : pieces.map Emission.instruction = Stmt.plain code)
    {done : Array (Instruction R String)} (hsize : done.size + code.length ≤ maxCode) :
    assembleFrom done pieces = .ok (done ++ code) := by
  induction pieces generalizing done code with
  | nil =>
      cases code with
      | nil => simp [assembleFrom]
      | cons i code => cases h
  | cons piece rest ih =>
      cases code with
      | nil => cases h
      | cons i code =>
          rw [List.map_cons, Stmt.plain, List.map_cons, List.cons.injEq] at h
          rw [List.length_cons] at hsize
          rw [assembleFrom, h.1]
          dsimp only
          rw [if_pos (by omega), ih h.2 (by simp; omega)]
          simp

omit [NumberSystem R] in
/-- Too much code is an error, whatever may be wrong behind it. -/
theorem assembleFrom_of_lt {pieces : List (Emission R)} (done : Array (Instruction R String))
    (hdone : done.size ≤ maxCode) (hsize : maxCode < done.size + plainSize pieces) :
    ∃ e, assembleFrom done pieces = .error e ∧ e.IsTooLarge := by
  induction pieces generalizing done with
  | nil =>
      simp only [plainSize, List.map_nil, List.takeWhile_nil, List.length_nil] at hsize
      omega
  | cons piece rest ih =>
      rw [assembleFrom]
      rw [plainSize, List.map_cons, List.takeWhile_cons] at hsize
      cases hpiece : piece.instruction with
      | error e =>
          rw [hpiece] at hsize
          simp only [Bool.false_eq_true, if_false, List.length_nil] at hsize
          omega
      | ok i =>
          rw [hpiece] at hsize
          simp only [if_true, List.length_cons] at hsize
          dsimp only
          split
          · refine ih _ (by simp; omega) ?_
            rw [plainSize, Array.size_push]
            omega
          · exact ⟨_, rfl, isTooLarge_locate _⟩

omit [NumberSystem R] in
theorem assembleFrom_of_error {pieces : List (Emission R)}
    (h : ∃ e, .error e ∈ pieces.map Emission.instruction)
    (done : Array (Instruction R String)) (hsize : done.size + plainSize pieces ≤ maxCode) :
    ∃ e line, .error e ∈ pieces.map Emission.instruction ∧
      assembleFrom done pieces = .error (Emission.locate line e) := by
  induction pieces generalizing done with
  | nil => simp at h
  | cons piece rest ih =>
      rw [assembleFrom]
      rw [plainSize, List.map_cons, List.takeWhile_cons] at hsize
      cases hpiece : piece.instruction with
      | error e => exact ⟨e, piece.line, by simp [hpiece], rfl⟩
      | ok i =>
          rw [hpiece] at hsize
          simp only [if_true, List.length_cons] at hsize
          dsimp only
          rw [if_pos (by omega)]
          have hrest : (done.push i).size + plainSize rest ≤ maxCode := by
            rw [plainSize, Array.size_push]
            omega
          obtain ⟨e, line, hmem, herror⟩ := ih (by simpa [hpiece] using h) _ hrest
          exact ⟨e, line, List.mem_cons_of_mem _ hmem, herror⟩

omit [NumberSystem R] in
@[simp] theorem locate_code (line : Option LineNumber) (e : Error) :
    (Emission.locate line e).code = e.code := by
  cases line <;> rfl

/-- A program has code if and only if its loops pair and the code is not too
large, and then the code is its layout. -/
theorem code_eq_ok_iff {p : Program R} {code : List (Instruction R String)} :
    p.code = .ok code ↔ p.LoopsPair ∧ p.layout.length ≤ maxCode ∧ code = p.layout := by
  rw [Program.code]
  by_cases hpair : p.LoopsPair
  · have hplain := emissions_of_loopsPair hpair
    rcases Nat.lt_or_ge maxCode p.layout.length with hlt | hle
    · obtain ⟨e, he, -⟩ := assembleFrom_of_lt #[] (Nat.zero_le _) (by rwa [plainSize_of_plain hplain, Array.size_empty, Nat.zero_add])
      simp [he, bind, Except.bind, Nat.not_le.mpr hlt]
    · rw [assembleFrom_of_le hplain (by simpa using hle)]
      simp [bind, Except.bind, pure, Except.pure, hpair, hle, eq_comm]
  · have herror := exists_error_of_not_loopsPair hpair
    suffices h : ∃ e, assembleFrom #[] p.emissions = .error e by
      obtain ⟨e, he⟩ := h
      simp [he, bind, Except.bind, hpair]
    rcases Nat.lt_or_ge maxCode (plainSize p.emissions) with hlt | hle
    · obtain ⟨e, he, -⟩ := assembleFrom_of_lt #[] (Nat.zero_le _) (by rwa [Array.size_empty, Nat.zero_add])
      exact ⟨e, he⟩
    · obtain ⟨e, line, -, he⟩ := assembleFrom_of_error herror #[]
        (by rwa [Array.size_empty, Nat.zero_add])
      exact ⟨_, he⟩

/-- A program's code is too large if and only if too much of it stands in front
of the first error. -/
theorem code_tooLarge_iff {p : Program R} :
    (∃ e, p.code = .error e ∧ e.IsTooLarge) ↔ maxCode < plainSize p.emissions := by
  rw [Program.code]
  rcases Nat.lt_or_ge maxCode (plainSize p.emissions) with hlt | hle
  · obtain ⟨e, he, hlarge⟩ := assembleFrom_of_lt #[] (Nat.zero_le _) (by rwa [Array.size_empty, Nat.zero_add])
    exact iff_of_true ⟨e, by simp [he, bind, Except.bind], hlarge⟩ hlt
  · refine iff_of_false ?_ (Nat.not_lt.mpr hle)
    rintro ⟨e, he, hlarge⟩
    by_cases hpair : p.LoopsPair
    · have hplain := emissions_of_loopsPair hpair
      rw [assembleFrom_of_le hplain
        (by rwa [← plainSize_of_plain hplain, Array.size_empty, Nat.zero_add])] at he
      cases he
    · obtain ⟨e', line, hmem, herror⟩ := assembleFrom_of_error
        (exists_error_of_not_loopsPair hpair) #[]
        (by rwa [Array.size_empty, Nat.zero_add])
      rw [herror] at he
      cases he
      exact code_of_mem_emissions hmem ((locate_code line e').symm.trans hlarge.1)

end Program

end LineBasic
