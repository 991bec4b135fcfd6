import LineBasic.Proofs.Saving

namespace LineBasic

namespace Shell

variable {R W σ : Type} [NumberSystem R] {storage : Storage (StateM σ)} {shell shell' : Shell R W}

/-- What becomes of a shell before its next line. A program that is running may go on, be waited for or be stopped, and what
it left in its world may be taken. -/
inductive GoesOn (shell : Shell R W) : Shell R W → Prop
  | refl : GoesOn shell shell
  | finish {shell' : Shell R W} (h : GoesOn shell shell') (fuel : Nat) :
      GoesOn shell (shell'.finish fuel).2
  | wait {shell' : Shell R W} (h : GoesOn shell shell') (fuel : Nat) :
      GoesOn shell (shell'.wait fuel).2
  | advance {shell' : Shell R W} (h : GoesOn shell shell') (fuel : Nat) :
      GoesOn shell { shell' with controller := shell'.controller.advance fuel }
  | requestStop {shell' : Shell R W} (h : GoesOn shell shell') :
      GoesOn shell { shell' with controller := shell'.controller.requestStop }
  | report {shell' : Shell R W} (h : GoesOn shell shell') (f : W → W) :
      GoesOn shell (shell'.report f)

/-- A line is answered at once, or else when the program that it has started has ended. -/
inductive Answers (storage : Storage (StateM σ)) (shell : Shell R W) (text : String) (s : σ) :
    Reply → Shell R W → Prop
  | done {reply : Reply} {shell' : Shell R W} {t : σ}
      (h : (shell.takeLine storage text).run s = ((.done reply, shell'), t)) :
      Answers storage shell text s reply shell'
  | finished {started waiting shell' : Shell R W} {t : σ}
      (h : (shell.takeLine storage text).run s = ((.running, started), t))
      (hgoes : started.GoesOn waiting) {fuel : Nat} {reply : Reply}
      (hfinish : waiting.finish fuel = (some reply, shell')) :
      Answers storage shell text s reply shell'

theorem GoesOn.session_eq (h : shell.GoesOn shell') : shell'.session = shell.session := by
  induction h with
  | refl => rfl
  | finish h fuel ih =>
      rw [session_finish]
      exact ih
  | wait h fuel ih => exact ih
  | advance h fuel ih => exact ih
  | requestStop h ih => exact ih
  | report h f ih => exact ih

theorem session_takeLine_run {text : String} (hcommand : Input.command? text = some .run)
    {turn : Turn} {s t : σ}
    (h : (shell.takeLine storage text).run s = ((turn, shell'), t)) :
    shell'.session = shell.session.stopAuto := by
  rw [takeLine_of_command hcommand (by simp)] at h
  have hrun : shell.stopAuto.run.2 = shell' := congrArg (fun result => result.1.2) h
  rw [← hrun]
  exact session_run shell.stopAuto

end Shell

/-- Let a line be answered, at once or when the program that it has started has ended. If the answer is an error, then the
program, the last file, the directory, the switches and the directory of the open cart are as before, and AUTO is as before
or off. RUN leaves them so too, and so they stay while the program is running and after it has ended. -/
theorem failed_line_keeps_session {R W σ : Type} [NumberSystem R] (storage : Storage (StateM σ))
    (shell : Shell R W) (text : String) (s : σ) :
    (∀ e shell', shell.Answers storage text s (.error e) shell' →
      shell.session.Keeps shell'.session) ∧
    (Input.command? text = some .run → ∀ turn started t,
      (shell.takeLine storage text).run s = ((turn, started), t) →
        ∀ shell', started.GoesOn shell' → shell.session.Keeps shell'.session) := by
  constructor
  · intro e shell' hanswers
    have heffect : shell.Effect storage text ((shell.takeLine storage text).run s).1.1
        ((shell.takeLine storage text).run s).1.2 :=
      Shell.always_effect_takeLine text s
    cases hanswers with
    | done h =>
        rw [h] at heffect
        exact heffect.keeps (by rintro output ⟨⟩)
    | @finished started waiting _ t h hgoes fuel _ hfinish =>
        rw [h] at heffect
        have hsession : shell'.session = started.session := by
          rw [← hgoes.session_eq, ← Shell.session_finish fuel waiting, hfinish]
        rw [hsession]
        exact heffect.keeps (by rintro output ⟨⟩)
  · intro hcommand turn started t h shell' hgoes
    rw [hgoes.session_eq, Shell.session_takeLine_run hcommand h]
    exact shell.session.keeps_stopAuto

namespace Shell

variable {R W σ : Type} [NumberSystem R] {storage : Storage (StateM σ)} {shell : Shell R W}

theorem answers_of_reply? {text : String} {s : σ} {reply : Reply}
    (h : ((shell.takeLine storage text).run s).1.1.reply? = some reply) :
    shell.Answers storage text s reply ((shell.takeLine storage text).run s).1.2 :=
  .done (Turn.run_eq h)

theorem answers_of_finish (fuel : Nat) {text : String} {s : σ} {reply : Reply}
    (h : ((shell.takeLine storage text).run s).1.1.reply? = none)
    (hfinish : (((shell.takeLine storage text).run s).1.2.finish fuel).1 = some reply) :
    shell.Answers storage text s reply (((shell.takeLine storage text).run s).1.2.finish fuel).2 := by
  rcases hrun : (shell.takeLine storage text).run s with ⟨⟨turn, started⟩, t⟩
  rw [hrun] at h hfinish
  obtain rfl := Turn.eq_running h
  exact .finished hrun .refl (Prod.ext hfinish rfl)

/-- A shell with a program that fails when it runs. -/
def returning : Shell Float Unit :=
  typing { number := 10, content := "RETURN" }

def returningStarted : (Turn × Shell Float Unit) × FileTree :=
  (returning.takeLine FileTree.timeless "RUN").run (.startingAt [])

end Shell

/-- A file that is not there cannot be loaded, and a program that returns from nowhere fails after it was started. -/
theorem failed_line_keeps_session_return :
    (∃ shell', (Shell.typing (.remark 1)).Answers FileTree.timeless "LOAD b" (.startingAt [])
        (.error (.command
          (ErrorCode.fileNotFound.error "No such file or directory (os error 2)"))) shell' ∧
      (Shell.typing (.remark 1)).session.Keeps shell'.session) ∧
    (∃ shell', Shell.returning.Answers FileTree.timeless "RUN" (.startingAt [])
        (.error (.command { code := .returnWithoutGosub, line := some 10 })) shell' ∧
      Shell.returning.session.Keeps shell'.session) ∧
    ∀ fuel, Shell.returning.session.Keeps (Shell.returningStarted.1.2.finish fuel).2.session := by
  have hload : (Shell.typing (.remark 1)).Answers FileTree.timeless "LOAD b" (.startingAt [])
      (.error (.command
        (ErrorCode.fileNotFound.error "No such file or directory (os error 2)"))) _ :=
    Shell.answers_of_reply? (by decide)
  have hrun : Shell.returning.Answers FileTree.timeless "RUN" (.startingAt [])
      (.error (.command { code := .returnWithoutGosub, line := some 10 })) _ :=
    Shell.answers_of_finish 100 (by decide +kernel) (by decide +kernel)
  refine ⟨⟨_, hload, ?_⟩, ⟨_, hrun, ?_⟩, ?_⟩
  · exact (failed_line_keeps_session FileTree.timeless _ _ _).1 _ _ hload
  · exact (failed_line_keeps_session FileTree.timeless _ _ _).1 _ _ hrun
  · intro fuel
    exact (failed_line_keeps_session FileTree.timeless _ "RUN" (.startingAt [])).2
      (by decide) _ _ _ rfl _ (.finish .refl fuel)

end LineBasic
