import LineBasic.Proofs.LoopNumbers
import LineBasic.Proofs.StandardNatives
import LineBasic.Proofs.TidyRuns
import LineBasic.Proofs.WrittenNumbers

/-!
Scripts with and without tidying. They run alike if tidying keeps FORs and NEXTs in pairs and leaves alone what the NEXTs of
the run go back to; both hold if no FOR or NEXT is behind an END, GOTO or RETURN.
-/

namespace LineBasic

variable {R W : Type} [NumberSystem R] {natives : Natives R W} {depth : Option Nat}

open LineBasic.Action

namespace Action

mutual

/-- No FOR or NEXT of the action is behind an END, GOTO or RETURN. -/
def loopsLive : Action R → Bool
  | branch _ thenBody elseBody => loopsLiveAll false thenBody && loopsLiveAll false elseBody
  | _ => true

def loopsLiveAll (dead : Bool) : List (Action R) → Bool
  | [] => true
  | a :: as =>
      if dead then !a.hasLoop && loopsLiveAll true as
      else a.loopsLive && loopsLiveAll (a.tidy.any isTerminal) as

end

theorem loopsLiveAll_dead (a : Action R) (as : List (Action R)) :
    loopsLiveAll true (a :: as) ↔ a.hasLoop = false ∧ loopsLiveAll true as := by
  rw [loopsLiveAll, if_pos rfl, Bool.and_eq_true, Bool.not_eq_true']

theorem loopsLiveAll_live (a : Action R) (as : List (Action R)) :
    loopsLiveAll false (a :: as) ↔ a.loopsLive ∧ loopsLiveAll (a.tidy.any isTerminal) as := by
  rw [loopsLiveAll, if_neg Bool.false_ne_true, Bool.and_eq_true]

mutual

theorem intact_of_loopsLive {k : Nat} : ∀ a : Action R, a.loopsLive → k ∈ a.fors → a.Intact k
  | .for _ _ _ _, _, hk => (List.mem_singleton.mp hk).symm
  | branch _ thenBody elseBody, h, hk => by
      rw [loopsLive, Bool.and_eq_true] at h
      exact (List.mem_append.mp hk).imp (intactAll_of_loopsLive thenBody h.1)
        (intactAll_of_loopsLive elseBody h.2)
  | call _ _, _, hk | .end, _, hk | gosub _, _, hk | goto _, _, hk | assign _ _, _, hk
  | next _, _, hk | rem, _, hk | .return, _, hk => by cases hk

theorem intactAll_of_loopsLive {k : Nat} {dead : Bool} : ∀ as : List (Action R),
    loopsLiveAll dead as → k ∈ forsAll as → IntactAll k dead as
  | [], _, hk => by cases hk
  | a :: as, h, hk => by
      rw [forsAll, List.mem_append] at hk
      rw [IntactAll]
      cases dead with
      | true =>
          obtain ⟨ha, has⟩ := (loopsLiveAll_dead a as).mp h
          rw [fors_of_hasLoop a ha] at hk
          exact .inr (intactAll_of_loopsLive as has (hk.resolve_left List.not_mem_nil))
      | false =>
          obtain ⟨ha, has⟩ := (loopsLiveAll_live a as).mp h
          exact hk.imp (intact_of_loopsLive a ha) (intactAll_of_loopsLive as has)

end

mutual

theorem keeps_of_loopsLive {kept : List Nat} : ∀ a : Action R, a.loopsLive → a.isPaired →
    a.fors ⊆ kept → a.nexts ⊆ kept → a.keeps kept
  | .for _ _ _ _, _, _, hfors, _ => decide_eq_true (hfors List.mem_cons_self)
  | next (some _), _, _, _, hnexts => decide_eq_true (hnexts List.mem_cons_self)
  | next none, _, hpaired, _, _ => hpaired
  | branch _ thenBody elseBody, h, hpaired, hfors, hnexts => by
      rw [loopsLive, Bool.and_eq_true] at h
      rw [isPaired, Bool.and_eq_true] at hpaired
      rw [fors, List.append_subset] at hfors
      rw [nexts, List.append_subset] at hnexts
      rw [keeps, Bool.and_eq_true]
      exact ⟨keepsAll_of_loopsLive thenBody h.1 hpaired.1 hfors.1 hnexts.1,
        keepsAll_of_loopsLive elseBody h.2 hpaired.2 hfors.2 hnexts.2⟩
  | call _ _, _, _, _, _ | .end, _, _, _, _ | gosub _, _, _, _, _ | goto _, _, _, _, _
  | assign _ _, _, _, _, _ | rem, _, _, _, _ | .return, _, _, _, _ => rfl

theorem keepsAll_of_loopsLive {kept : List Nat} {dead : Bool} : ∀ as : List (Action R),
    loopsLiveAll dead as → allPaired as → forsAll as ⊆ kept → nextsAll as ⊆ kept →
    keepsAll kept dead as
  | [], _, _, _, _ => rfl
  | a :: as, h, hpaired, hfors, hnexts => by
      rw [allPaired, Bool.and_eq_true] at hpaired
      rw [forsAll, List.append_subset] at hfors
      rw [nextsAll, List.append_subset] at hnexts
      rw [keepsAll]
      cases dead with
      | true =>
          obtain ⟨ha, has⟩ := (loopsLiveAll_dead a as).mp h
          have hpairs : a.pairs = false := by
            cases a <;> first | rfl | cases ha
          have hrest := keepsAll_of_loopsLive as has hpaired.2 hfors.2 hnexts.2
          rw [if_pos rfl, hpairs, hrest, Bool.and_true]
          exact drops_of_hasLoop kept a ha
      | false =>
          obtain ⟨ha, has⟩ := (loopsLiveAll_live a as).mp h
          rw [if_neg Bool.false_ne_true, Bool.and_eq_true]
          exact ⟨keeps_of_loopsLive a ha hpaired.1 hfors.1 hnexts.1,
            keepsAll_of_loopsLive as has hpaired.2 hfors.2 hnexts.2⟩

end

mutual

theorem loopsLive_reread : ∀ a : Action R, ReadsZeros a.conditions →
    a.reread.loopsLive = a.loopsLive
  | branch _ thenBody elseBody, h => by
      rw [conditions, readsZeros_append, readsZeros_append] at h
      rw [reread, loopsLive, loopsLive, loopsLiveAll_reread false thenBody h.2.1,
        loopsLiveAll_reread false elseBody h.2.2]
  | .for _ _ _ _, _ | call _ _, _ | .end, _ | gosub _, _ | goto _, _ | assign _ _, _ | next _, _
  | rem, _ | .return, _ => rfl

theorem loopsLiveAll_reread (dead : Bool) : ∀ as : List (Action R),
    ReadsZeros (conditionsAll as) → loopsLiveAll dead (rereadAll as) = loopsLiveAll dead as
  | [], _ => rfl
  | a :: as, h => by
      rw [conditionsAll, readsZeros_append] at h
      rw [rereadAll, loopsLiveAll, loopsLiveAll, hasLoop_reread, loopsLive_reread a h.1,
        tidy_reread a h.1, any_isTerminal_reread, loopsLiveAll_reread true as h.2,
        loopsLiveAll_reread _ as h.2]

end

end Action

namespace Program

/-- The numbers that are conditions are read as zero if and only if they are. -/
def ReadsConditions (p : Program R) : Prop :=
  ∀ line ∈ p.actionLines, ReadsZeros (conditionsAll line.actions)

theorem readsConditions (p : Program Float) : p.ReadsConditions := fun _ _ n _ => by
  rw [Binary64.reread_eq]

omit [NumberSystem R] in
theorem nodup_fors (p : Program R) :
    (forsAll (p.actionLines.flatMap ActionLine.actions)).Nodup := by
  have hnumbered := Stmt.numbered_pairAll Loops.bounded_start
    (p.lines.flatMap ProgramLine.statements)
  obtain ⟨k, -, hfors⟩ := hnumbered.fors_eq
  rw [flatMap_actionLines, actions, hfors]
  exact List.nodup_range'

/-- A program whose pairs tidying keeps runs in the same way when it is tidied. -/
theorem same_tidy {p : Program R} (hpairs : p.KeepsPairs) (hzeros : p.ReadsConditions) {w : W}
    (hintact : Moment.RunsIntact natives.noting depth (rereadLines p.actionLines) (w, [])) :
    Process.Same (interpretation natives.noting depth (rereadLines p.actionLines)) notedCalls
      (Moment.start (rereadLines p.actionLines), (w, []))
      (interpretation natives.noting depth (rereadLines p.tidy.actionLines)) notedCalls
      (Moment.start (rereadLines p.tidy.actionLines), (w, [])) := by
  obtain ⟨kept, hkept⟩ := hpairs
  have hlines : rereadLines p.tidy.actionLines =
      ((rereadLines p.actionLines).map ActionLine.tidy).map
        (ActionLine.renumber (newNumber kept)) := by
    rw [actionLines_tidy hkept, tidy_rereadLines hzeros, renumber_rereadLines]
  have hnodup : (forsAll ((rereadLines p.actionLines).flatMap ActionLine.actions)).Nodup := by
    rw [flatMap_rereadLines, forsAll_reread]
    exact p.nodup_fors
  rw [hlines]
  exact (LineBasic.same_tidy hnodup hintact).trans
    (same_renumber (newNumber_injective kept) natives depth _ w)

/-- No FOR or NEXT is behind an END, GOTO or RETURN. -/
def LoopsLive (p : Program R) : Prop :=
  ∀ line ∈ p.actionLines, loopsLiveAll false line.actions

variable {p : Program R}

theorem LoopsLive.keepsPairs (h : p.LoopsLive) (hpair : p.LoopsPair) : p.KeepsPairs := by
  refine ⟨forsAll p.actions, fun line hline => ?_⟩
  refine keepsAll_of_loopsLive line.actions (h line hline) (hpair.1 line hline) ?_ ?_
  · intro n hn
    rw [← flatMap_actionLines]
    exact mem_flatMap_of_append forsAll_append hline hn
  · intro n hn
    apply mem_forsAll_of_mem_nextsAll
    rw [← flatMap_actionLines]
    exact mem_flatMap_of_append nextsAll_append hline hn

theorem LoopsLive.runsIntact (h : p.LoopsLive) (hzeros : p.ReadsConditions) (w : W) :
    Moment.RunsIntact natives depth (rereadLines p.actionLines) w := by
  intro t w' _ loop rest value _ _ _ hmem
  obtain ⟨line, hline, hfor⟩ := exists_of_mem_forsAll_flatMap hmem
  obtain ⟨line, hmem, rfl⟩ := List.mem_map.mp hline
  refine ⟨_, hline, intactAll_of_loopsLive _ ?_ hfor⟩
  rw [ActionLine.reread, loopsLiveAll_reread false _ (hzeros line hmem)]
  exact h line hmem

end Program

/-- Machines that load what a program was compiled to with and without tidying run alike, if tidying keeps FORs and NEXTs in
pairs, and if no NEXT of the run goes back to a FOR behind which it has dropped something that control comes to from there.
No run can tell them apart if there is no FOR or NEXT behind an END, GOTO or RETURN. -/
theorem tidied_runs_alike {registry : Registry} {source : String} {p : Program R}
    (hread : Program.read registry source = .ok p) {ast : Bool} {plain tidied : Script}
    (hplain : compile R registry { ast, peephole := false } source = .ok plain)
    (htidied : compile R registry { ast, peephole := true } source = .ok tidied)
    (hzeros : (p.folded { ast }).ReadsConditions) (m : Machine R W) (hhook : m.hook = none) :
    ∃ m₁ m₂, m.load plain.text = .ok m₁ ∧ m.load tidied.text = .ok m₂ ∧
      ∀ w, ((p.folded { ast }).KeepsPairs ∧ Moment.RunsIntact m.native?.noting (some Stack.capacity)
          (rereadLines (p.folded { ast }).actionLines) (w, [])) ∨ (p.folded { ast }).LoopsLive →
        m₁.RunAlike m₂ w := by
  obtain ⟨m₁, hload₁, hruns₁⟩ := runs_of_compile hread hplain m hhook
  obtain ⟨m₂, hload₂, hruns₂⟩ := runs_of_compile hread htidied m hhook
  refine ⟨m₁, m₂, hload₁, hload₂, fun w hcondition => ?_⟩
  have hkept : (p.folded { ast }).KeepsPairs ∧
      Moment.RunsIntact m.native?.noting (some Stack.capacity)
        (rereadLines (p.folded { ast }).actionLines) (w, []) := by
    rcases hcondition with hkept | hlive
    · exact hkept
    · have hpair := ((Program.coherent_of_read hread).folded { ast }).loopsPair
      exact ⟨hlive.keepsPairs hpair, hlive.runsIntact hzeros (w, [])⟩
  obtain ⟨r₁, hstart₁, hsame₁⟩ := hruns₁ w
  obtain ⟨r₂, hstart₂, hsame₂⟩ := hruns₂ w
  have hsame := Program.same_tidy hkept.1 hzeros hkept.2
  exact ⟨r₁, r₂, hstart₁, hstart₂, hsame₁.trans (hsame.trans hsame₂.symm)⟩

section

/-- The calls of a run that is over after at most `n` steps. -/
def Machine.endedCalls? (m : Machine R W) (n : Nat) (w : W) : Option (List (NativeCall R)) :=
  match m.start Script.entry with
  | .error _ => none
  | .ok r =>
      match m.noting.process.after n (r, (w, [])) with
      | .inl _ => none
      | .inr e => some e.2.2

theorem Machine.RunAlike.endedCalls?_eq {m m' : Machine R W} {w : W} (h : m.RunAlike m' w)
    {n n' : Nat} {calls calls' : List (NativeCall R)} (hm : m.endedCalls? n w = some calls)
    (hm' : m'.endedCalls? n' w = some calls') : calls = calls' := by
  obtain ⟨r, r', hr, hr', hsame⟩ := h
  rw [endedCalls?, hr] at hm
  rw [endedCalls?, hr'] at hm'
  dsimp only at hm hm'
  split at hm
  · cases hm
  · rename_i e he
    split at hm'
    · cases hm'
    · rename_i e' he'
      have hend : m'.noting.process.EndsWith (r', (w, [])) e := (hsame.endsWith_iff e).mp ⟨n, he⟩
      obtain rfl : e = e' := hend.unique ⟨n', he'⟩
      exact (Option.some.inj hm).symm.trans (Option.some.inj hm')

/-- The calls that the standard machine makes when it runs a program text, if that is over after at most `n` steps. -/
def standardCalls? (flags : Flags) (source : String) (n : Nat) : Option (List (NativeCall Float)) := do
  let script ← (compile Float .standard flags source).toOption
  let m ← (Machine.standard.load script.text).toOption
  m.endedCalls? n ""

theorem standardCalls?_eq_some {flags : Flags} {source : String} {n : Nat}
    {calls : List (NativeCall Float)} (h : standardCalls? flags source n = some calls) :
    ∃ script m, compile Float .standard flags source = .ok script ∧
      Machine.standard.load script.text = .ok m ∧ m.endedCalls? n "" = some calls := by
  simp only [standardCalls?, Option.bind_eq_bind, Option.bind_eq_some_iff] at h
  obtain ⟨script, hscript, m, hm, hcalls⟩ := h
  exact ⟨script, m, eq_ok_of_toOption hscript, eq_ok_of_toOption hm, hcalls⟩

/-- The NEXT goes back to a FOR behind a GOTO. What it comes to there is gone when the program is tidied. -/
theorem not_run_alike_behind_goto :
    ∃ (plain tidied : Script) (m₁ m₂ : Machine Float String),
      compile Float .standard { ast := true, peephole := false }
        "10 GOTO 30: FOR I=1 TO 3: PRINT \"X\"\n20 I=1\n30 NEXT I" = .ok plain ∧
      compile Float .standard { ast := true, peephole := true }
        "10 GOTO 30: FOR I=1 TO 3: PRINT \"X\"\n20 I=1\n30 NEXT I" = .ok tidied ∧
      Machine.standard.load plain.text = .ok m₁ ∧ Machine.standard.load tidied.text = .ok m₂ ∧
      ¬m₁.RunAlike m₂ "" := by
  have hplain : ((standardCalls? { ast := true, peephole := false }
      "10 GOTO 30: FOR I=1 TO 3: PRINT \"X\"\n20 I=1\n30 NEXT I" 20).map List.length) = some 1 := by
    decide +kernel
  have htidied : ((standardCalls? { ast := true, peephole := true }
      "10 GOTO 30: FOR I=1 TO 3: PRINT \"X\"\n20 I=1\n30 NEXT I" 20).map List.length) = some 0 := by
    decide +kernel
  obtain ⟨calls, hcalls, hlength⟩ := Option.map_eq_some_iff.mp hplain
  obtain ⟨calls', hcalls', hlength'⟩ := Option.map_eq_some_iff.mp htidied
  obtain ⟨plain, m₁, hcompile, hload, hm₁⟩ := standardCalls?_eq_some hcalls
  obtain ⟨tidied, m₂, hcompile', hload', hm₂⟩ := standardCalls?_eq_some hcalls'
  refine ⟨plain, tidied, m₁, m₂, hcompile, hcompile', hload, hload', fun halike => ?_⟩
  rw [halike.endedCalls?_eq hm₁ hm₂, hlength'] at hlength
  cases hlength

theorem tidied_runs_alike_loop :
    ∃ (p : Program Float) (plain tidied : Script) (m₁ m₂ : Machine Float String),
      Program.read .standard
        "10 FOR I=1 TO 3: REM COUNT\n20 IF 1 THEN PRINT I ELSE END: PRINT\n30 NEXT I" = .ok p ∧
      compile Float .standard { ast := true, peephole := false }
        "10 FOR I=1 TO 3: REM COUNT\n20 IF 1 THEN PRINT I ELSE END: PRINT\n30 NEXT I" = .ok plain ∧
      compile Float .standard { ast := true, peephole := true }
        "10 FOR I=1 TO 3: REM COUNT\n20 IF 1 THEN PRINT I ELSE END: PRINT\n30 NEXT I" = .ok tidied ∧
      (p.folded { ast := true }).ReadsConditions ∧ Machine.standard.hook = none ∧
      (p.folded { ast := true }).LoopsLive ∧
      Machine.standard.load plain.text = .ok m₁ ∧ Machine.standard.load tidied.text = .ok m₂ ∧
      m₁.RunAlike m₂ "" := by
  have hread : ((Program.read (R := Float) .standard
      "10 FOR I=1 TO 3: REM COUNT\n20 IF 1 THEN PRINT I ELSE END: PRINT\n30 NEXT I").toOption.map
      fun p => decide (∀ line ∈ (p.folded { ast := true }).actionLines,
        loopsLiveAll false line.actions)) = some true := by
    decide +kernel
  have hplain : (compile Float .standard { ast := true, peephole := false }
      "10 FOR I=1 TO 3: REM COUNT\n20 IF 1 THEN PRINT I ELSE END: PRINT\n30 NEXT I").isOk := by
    decide +kernel
  have htidied : (compile Float .standard { ast := true, peephole := true }
      "10 FOR I=1 TO 3: REM COUNT\n20 IF 1 THEN PRINT I ELSE END: PRINT\n30 NEXT I").isOk := by
    decide +kernel
  have hhook : Machine.standard.hook = none := by
    decide +kernel
  obtain ⟨p, hp, hchecked⟩ := Option.map_eq_some_iff.mp hread
  have hread := eq_ok_of_toOption hp
  obtain ⟨plain, hplain⟩ := exists_of_isOk hplain
  obtain ⟨tidied, htidied⟩ := exists_of_isOk htidied
  have hzeros : (p.folded { ast := true }).ReadsConditions := Program.readsConditions _
  have hlines := of_decide_eq_true hchecked
  have hlive : (p.folded { ast := true }).LoopsLive := hlines
  obtain ⟨m₁, m₂, hm₁, hm₂, hruns⟩ :=
    tidied_runs_alike hread hplain htidied hzeros Machine.standard hhook
  exact ⟨p, plain, tidied, m₁, m₂, hread, hplain, htidied, hzeros, hhook, hlive, hm₁, hm₂,
    hruns "" (.inr hlive)⟩

end

end LineBasic
