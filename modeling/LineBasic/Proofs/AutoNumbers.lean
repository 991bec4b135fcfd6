import LineBasic.Proofs.Replacement
import LineBasic.Proofs.StoreInvariant

namespace LineBasic

open Text

namespace AutoCursor

/-- While the cursor is active, no program is running, and it gives ascending and permitted numbers. -/
def Fits (isRunning : Bool) (a : AutoCursor) : Prop :=
  a.active → isRunning = false ∧ 0 < a.increment ∧ a.next ≤ maxLineNumber

variable {isRunning : Bool} {a : AutoCursor}

theorem fits_stop (a : AutoCursor) : a.stop.Fits isRunning := by
  rintro ⟨⟩

theorem fits_start (h : isRunning = false) (next : LineNumber) (increment : Nat) :
    (start next increment).Fits isRunning := by
  intro hactive
  simp only [start, Bool.and_eq_true, decide_eq_true_eq] at hactive
  exact ⟨h, hactive.1, hactive.2⟩

theorem Fits.follow (h : a.Fits isRunning) (number : LineNumber) :
    (a.follow number).Fits isRunning := by
  unfold AutoCursor.follow
  split
  · rename_i hactive
    obtain ⟨hidle, hpositive, -⟩ := h hactive
    split
    · rename_i hle
      exact fun _ => ⟨hidle, hpositive, hle⟩
    · exact a.fits_stop
  · exact h

theorem peek_eq_some_iff {number : LineNumber} :
    a.peek = some number ↔ a.active ∧ a.next = number := by
  unfold peek
  cases a.active <;> simp

theorem follow_of_active (h : a.active) (number : LineNumber) :
    a.follow number =
      if number + a.increment ≤ maxLineNumber then { a with next := number + a.increment }
      else a.stop :=
  if_pos h

end AutoCursor

namespace Session

variable {σ : Type} {storage : Storage (StateM σ)} {s : Session} {isRunning : Bool}

theorem always_attempt {operation : ExceptT Error (StateM σ) (String × Session)} {P : Session → Prop}
    (hs : P s) (hoperation : Gives operation fun result => P result.2) :
    Always (s.attempt operation) fun result => P result.2 := by
  unfold attempt
  refine Always.bind hoperation fun result hresult => ?_
  cases result with
  | ok result => exact always_pure (hresult result rfl)
  | error e => exact always_pure hs

theorem always_onCart (operation : Cart → StateM σ (Except Error String × Cart)) :
    Always (s.onCart operation) fun result => result.2.auto = s.auto := by
  unfold onCart
  split
  · exact always_pure rfl
  · exact (always_true _).bind fun result _ => always_pure rfl

theorem fits_of_startAuto {config : Config} {start increment : Option Nat} {result : String × Session}
    (h : s.startAuto config isRunning start increment = .ok result) :
    result.2.auto.Fits isRunning := by
  unfold startAuto at h
  dsimp only at h
  split at h
  · cases h
  · rename_i hrunning
    split at h
    · cases h
    · split at h
      · cases h
      · cases h
        exact AutoCursor.fits_start (Bool.not_eq_true _ ▸ hrunning) _ _

theorem always_fits_perform (h : s.auto.Fits isRunning) (config : Config) (command : Command) :
    Always (s.perform config isRunning storage command) fun result =>
      result.2.auto.Fits isRunning := by
  have hattempt {operation : ExceptT Error (StateM σ) (String × Session)}
      (hoperation : Gives operation fun result => result.2.auto.Fits isRunning) :
      Always (s.attempt operation) fun result => result.2.auto.Fits isRunning :=
    always_attempt (P := fun s => s.auto.Fits isRunning) h hoperation
  have honCart (operation : Cart → StateM σ (Except Error String × Cart)) :
      Always (s.onCart operation) fun result => result.2.auto.Fits isRunning := by
    intro t
    rw [always_onCart operation t]
    exact h
  cases command with
  | list _ _ | new | run | stop | delete _ _ | verbose _ | unknown _ => exact always_pure h
  | save name =>
      refine hattempt ((gives_true _).bind fun file _ => ?_)
      exact (gives_true _).bind fun _ _ => gives_pure h
  | load name => exact hattempt ((gives_true _).bind fun listing _ => gives_pure h)
  | auto start increment => exact hattempt (gives_mk fun _ hstart => fits_of_startAuto hstart)
  | renum start increment first =>
      refine hattempt (gives_mk fun result hrenum => ?_)
      obtain ⟨listing, -, hresult⟩ := Stmt.bind_eq_ok hrenum
      cases hresult
      exact h
  | dir => exact hattempt ((gives_true _).bind fun entries _ => gives_pure h)
  | createCart path => exact hattempt ((gives_true _).bind fun cart _ => gives_pure h)
  | useCart path =>
      refine hattempt ((gives_true _).bind fun cart _ => ?_)
      refine (gives_true _).bind fun program _ => ?_
      cases program with
      | none => exact gives_pure h
      | some file => exact (gives_true _).bind fun listing _ => gives_pure h
  | saveCart => exact honCart _
  | closeCart =>
      simp only [perform]
      split
      · exact always_pure h
      · exact always_pure h
  | copy kind source name => exact honCart _
  | optimize pass => cases pass <;> exact always_pure h

end Session

namespace Shell

variable {R W σ : Type} [NumberSystem R] {storage : Storage (StateM σ)} {shell : Shell R W}

theorem always_fits_takeLine (h : shell.session.auto.Fits shell.controller.isRunning)
    (text : String) :
    Always (shell.takeLine storage text) fun result =>
      result.2.session.auto.Fits shell.controller.isRunning := by
  unfold takeLine
  dsimp only
  split
  · exact always_pure (AutoCursor.fits_stop _)
  · split
    · rename_i henter
      unfold Session.enterNumbered at henter
      split at henter
      · cases henter
      · cases henter
        exact always_pure (h.follow _)
    · exact always_pure h
  · split
    · unfold Session.enterBare
      split
      · rename_i number auto htake
        unfold AutoCursor.take at htake
        obtain ⟨_, -, heq⟩ := Option.map_eq_some_iff.mp htake
        cases heq
        exact always_pure (h.follow _)
      · exact always_pure h
    · have hstopped : shell.session.stopAuto.auto.Fits shell.controller.isRunning :=
        AutoCursor.fits_stop _
      split
      · exact always_pure hstopped
      · unfold perform
        split
        · refine always_pure ?_
          rw [session_run]
          exact hstopped
        · exact always_pure hstopped
        · refine (Session.always_fits_perform hstopped _ _).bind fun result hresult => ?_
          exact always_pure hresult

end Shell

namespace Input

theorem toUpper_toUpper (c : Char) : c.toUpper.toUpper = c.toUpper := by
  rcases Nat.lt_or_ge c.toNat 123 with hlt | hge
  · exact char_of_lt (P := fun c => c.toUpper.toUpper = c.toUpper) (by decide) hlt
  · rw [toUpper_of_ge hge, toUpper_of_ge hge]

theorem isKnown_upper (word : String) : Command.isKnown (upper word) = Command.isKnown word := by
  have hupper : upper (upper word) = upper word := by
    simp only [upper, String.toList_ofList, List.map_map]
    exact congrArg String.ofList (List.map_congr_left fun c _ => toUpper_toUpper c)
  rw [Command.isKnown, Command.isKnown, hupper]

theorem words_cons {c : Char} (hc : isSpace c = false) (cs : List Char) :
    (words (c :: cs)).head? = some (String.ofList ((c :: cs).takeWhile isInk)) := by
  have hink : ∀ d ∈ (c :: cs).takeWhile isInk, isSpace d = false := by
    intro d hd
    simpa [isInk] using List.mem_takeWhile_imp hd
  have hne : (c :: cs).takeWhile isInk ≠ [] := by
    simp [isInk, hc]
  have hrest := List.head?_dropWhile_not isInk (c :: cs)
  rw [words, ← List.takeWhile_append_dropWhile (p := isInk) (l := c :: cs), wordsFrom_append hink,
    List.append_nil, List.takeWhile_append_dropWhile]
  generalize (c :: cs).takeWhile isInk = front at hne
  cases hback : (c :: cs).dropWhile isInk with
  | nil =>
      rw [wordsFrom, if_neg (by simpa using hne), List.reverse_reverse]
      rfl
  | cons d back =>
      rw [hback] at hrest
      have hd : isSpace d := by simpa [isInk] using hrest
      rw [wordsFrom, if_pos hd, if_neg (by simpa using hne), List.reverse_reverse]
      rfl

theorem classify_of_words {text word : String} {rest : List String}
    (hwords : words text.toList = word :: rest) (hremark : word.toList.head? ≠ some '#')
    (hdigits : word.toList.all isDigit = false) :
    isBlank (trimmed text) = false ∧ ∃ args, classify text = .command (upper word) args := by
  rw [← words_trim] at hwords
  unfold trimmed classify isBlank
  rw [String.toList_ofList]
  dsimp only
  cases htrim : trim text.toList with
  | nil =>
      rw [htrim] at hwords
      cases hwords
  | cons c cs =>
      have hc := trim_head htrim
      have hfirst : String.ofList ((c :: cs).takeWhile isInk) = word := by
        have hhead := words_cons hc cs
        rw [← htrim, hwords] at hhead
        rw [← htrim]
        exact (Option.some.inj hhead).symm
      have hfirst : (c :: cs).takeWhile isInk = word.toList := by
        rw [← hfirst, String.toList_ofList]
      have hsharp : c ≠ '#' := by
        rintro rfl
        refine hremark ?_
        rw [← hfirst, List.takeWhile_cons_of_pos (by decide)]
        rfl
      refine ⟨by simp [hc], arguments ((c :: cs).dropWhile isInk), ?_⟩
      rw [hfirst, String.ofList_toList, hdigits, if_neg (by simpa using hsharp)]
      rfl

end Input

namespace Shell

variable {R W σ : Type} [NumberSystem R]

theorem takeLine_of_autoPrompt (shell : Shell R W) (storage : Storage (StateM σ)) {number : LineNumber}
    (hprompt : shell.autoPrompt = some number) {text word : String} {rest : List String}
    (hwords : words text.toList = word :: rest) (hremark : word.toList.head? ≠ some '#')
    (hdigits : word.toList.all isDigit = false) (hknown : Command.isKnown word = false) :
    shell.takeLine storage text = pure (.done (.ok ""), { shell with session := {
      shell.session with
        listing := shell.session.listing.insert ⟨number, trimmed text⟩
        auto := shell.session.auto.follow number } }) := by
  obtain ⟨hblank, args, hclassify⟩ := Input.classify_of_words hwords hremark hdigits
  obtain ⟨hactive, hnext⟩ := AutoCursor.peek_eq_some_iff.mp hprompt
  have htake : shell.session.auto.take = some (number, shell.session.auto.follow number) := by
    rw [AutoCursor.take, AutoCursor.peek, if_pos hactive, hnext]
    rfl
  have hstore : shell.session.listing.store ⟨number, trimmed text⟩ =
      shell.session.listing.insert ⟨number, trimmed text⟩ := by
    rw [Listing.store, if_neg]
    rw [Line.isEmpty, hblank]
    exact Bool.false_ne_true
  unfold takeLine
  rw [hclassify]
  simp only [hactive, Input.isKnown_upper, hknown, Bool.not_false, Bool.and_self, if_true,
    Session.enterBare, htake, Session.enter, hstore]

end Shell

namespace Scene

variable {R W : Type} [NumberSystem R] {s : Scene R W} {a : Action R W}

theorem isRunning_after_other (ha : s.Allows a) (h : a.IsOther)
    (hidle : s.controller.isRunning = false) : (s.after a).controller.isRunning = false := by
  have hphase : s.shared.phase = .idle := by
    unfold Controller.isRunning controller at hidle
    cases hphase : s.shared.phase with
    | idle => rfl
    | running =>
        rw [hphase] at hidle
        cases hidle
  have hafter : (s.after a).shared.phase = .idle := by
    cases a with
    | work n =>
        obtain ⟨worker, hworker, -⟩ := ha
        refine (phase_work hworker).trans ?_
        rcases worker.phase_step s.shared with ⟨-, hleft, -⟩ | ⟨hsame, -⟩
        · exact hleft
        · exact hsame.trans hphase
    | leave t n => rfl
    | requestStop t | onWorld t f | miss t | take t n | join t n | lose t n => exact hphase
    | clearStop t | refuse t job script | enter t job script | launch t before job script =>
        exact h.elim
  simp [Controller.isRunning, controller, hafter]

end Scene

namespace Dialog

variable {R W σ : Type} [NumberSystem R] {storage : Storage (StateM σ)} {config : Config}
  {sinks : Sinks W} {world : W} {more : List (NativeSet R (Signals W))}
  {past : List (Scene R W × Scene.Action R W)} {d : Dialog R W}

/-- While AUTO is on, the client is resting and no program is running. -/
structure AutoFits (d : Dialog R W) : Prop where
  cursor : d.shell.session.auto.Fits d.scene.controller.isRunning
  rests : d.shell.session.auto.active → ∃ answer, d.errand = .resting answer

omit [NumberSystem R] in
theorem autoFits_stopAuto (d : Dialog R W) (errand : Errand) :
    AutoFits { d with shell := d.shell.stopAuto, errand } :=
  ⟨AutoCursor.fits_stop _, by rintro ⟨⟩⟩

theorem Leads.autoFits (h : (new config sinks world more).Leads storage past d) : d.AutoFits := by
  induction h with
  | refl => exact ⟨by rintro ⟨⟩, by rintro ⟨⟩⟩
  | @line past d h answer hrest text hrun hstop reply shell s t hline ih =>
      have htaken : Always (d.view.takeLine storage text) fun result =>
          result.2.session.auto.Fits d.scene.controller.isRunning :=
        Shell.always_fits_takeLine ih.cursor text
      have hcursor := htaken s
      rw [hline] at hcursor
      exact ⟨hcursor, fun _ => ⟨_, rfl⟩⟩
  | @stop past d h => exact d.autoFits_stopAuto _
  | @run past d h => exact d.autoFits_stopAuto _
  | supply h hrest machine threadError ih => exact ⟨ih.cursor, ih.rests⟩
  | @client past d h a ha errand herrand ih =>
      have hoff : ¬d.shell.session.auto.active := by
        intro hactive
        obtain ⟨answer, hrest⟩ := ih.rests hactive
        rw [hrest] at herrand
        cases herrand
      exact ⟨fun hactive => absurd hactive hoff, fun hactive => absurd hactive hoff⟩
  | other h ha hother ih =>
      refine ⟨fun hactive => ?_, ih.rests⟩
      obtain ⟨hidle, hrest⟩ := ih.cursor hactive
      exact ⟨Scene.isRunning_after_other ha hother hidle, hrest⟩

end Dialog

/-- Let a client type lines to a shell while runs go on in the background, in whatever order. While AUTO is on, the controller
is idle and no run is going on, the increment is positive and the pending number is permitted. And a line with a first word
that is neither a remark nor a number nor the name of a command is then stored, without the blanks at its ends, under the
number that AUTO showed, which it replaces; nothing else changes but AUTO, which goes on by its increment or is switched off
if that number is not permitted. -/
theorem auto_discipline {R W σ : Type} [NumberSystem R] (storage : Storage (StateM σ))
    (config : Config) (sinks : Sinks W) (world : W) (more : List (NativeSet R (Signals W)))
    (past : List (Scene R W × Scene.Action R W)) (d : Dialog R W)
    (h : (Dialog.new config sinks world more).Leads storage past d) :
    (d.shell.session.auto.active →
      d.scene.controller.isRunning = false ∧ (∀ n, ¬d.scene.Is n Worker.isBusy) ∧
      0 < d.shell.session.auto.increment ∧ d.shell.session.auto.next ≤ 65529) ∧
    ∀ number text word rest, d.shell.autoPrompt = some number →
      words text.toList = word :: rest → word.toList.head? ≠ some '#' →
      word.toList.all isDigit = false → Command.isKnown word = false →
      ∃ listing auto, (∀ s : σ, (d.view.takeLine storage text).run s =
          ((.done (.ok ""), { d.view with session := { d.shell.session with listing, auto } }), s)) ∧
        (∀ n, listing.get? n =
          if n = number then some ⟨number, trimmed text⟩ else d.shell.session.listing.get? n) ∧
        auto = if number + d.shell.session.auto.increment ≤ 65529 then
            { d.shell.session.auto with next := number + d.shell.session.auto.increment }
          else { d.shell.session.auto with active := false } := by
  constructor
  · intro hactive
    obtain ⟨hidle, hpositive, hnext⟩ := h.autoFits.cursor hactive
    refine ⟨hidle, fun n hn => ?_, hpositive, hnext⟩
    have hrunning := (h.scene.isSound (h.scene.not_isLate h.reports)).running n hn
    simp [Controller.isRunning, Scene.controller, hrunning] at hidle
  · intro number text word rest hprompt hwords hremark hdigits hknown
    have hactive := (AutoCursor.peek_eq_some_iff.mp hprompt).1
    refine ⟨_, _, fun s => ?_, fun n => Listing.get?_insert ⟨number, trimmed text⟩ _ n,
      AutoCursor.follow_of_active hactive number⟩
    rw [d.view.takeLine_of_autoPrompt storage hprompt hwords hremark hdigits hknown]
    rfl

namespace Dialog

/-- A shell that was told to number from the last permitted number on. -/
def numbering : Dialog Float Unit where
  shell := (((new {} .silent () [] : Dialog Float Unit).view.takeLine FileTree.timeless
    "AUTO 65529 5").run (.startingAt [])).1.2
  scene := .new ()
  errand := .resting (some (.ok "", none))

theorem leads_numbering :
    (new {} .silent () [] : Dialog Float Unit).Leads FileTree.timeless [] numbering := by
  have hreply : (((new {} .silent () [] : Dialog Float Unit).view.takeLine FileTree.timeless
      "AUTO 65529 5").run (.startingAt [])).1.1.reply? = some (.ok "") := by
    decide
  exact .line .refl rfl (by decide) (by decide) (Turn.run_eq hreply)

end Dialog

/-- The line gets the last number, and AUTO is off behind it. -/
theorem auto_discipline_last :
    (Dialog.new {} .silent () [] : Dialog Float Unit).Leads FileTree.timeless [] Dialog.numbering ∧
    Dialog.numbering.shell.session.auto.active ∧
    Dialog.numbering.scene.controller.isRunning = false ∧
    Dialog.numbering.shell.autoPrompt = some 65529 ∧
    ∃ listing auto, (∀ s, (Dialog.numbering.view.takeLine FileTree.timeless " PRINT 1 ").run s =
        ((.done (.ok ""), { Dialog.numbering.view with
          session := { Dialog.numbering.shell.session with listing, auto } }), s)) ∧
      listing.get? 65529 = some ⟨65529, "PRINT 1"⟩ ∧ auto.active = false := by
  have hactive : Dialog.numbering.shell.session.auto.active := by decide
  have hprompt : Dialog.numbering.shell.autoPrompt = some 65529 := by decide
  have hincrement : Dialog.numbering.shell.session.auto.increment = 5 := by decide
  obtain ⟨hidle, hline⟩ := auto_discipline FileTree.timeless {} .silent () [] [] _
    Dialog.leads_numbering
  obtain ⟨listing, auto, htaken, hlisting, hauto⟩ := hline 65529 " PRINT 1 " "PRINT" ["1"] hprompt
    (by decide) (by decide) (by decide) (by decide)
  refine ⟨Dialog.leads_numbering, hactive, (hidle hactive).1, hprompt, listing, auto, htaken, ?_, ?_⟩
  · have htrimmed : trimmed " PRINT 1 " = "PRINT 1" := by decide
    rw [hlisting, if_pos rfl, htrimmed]
  · rw [hauto, hincrement]
    rfl

end LineBasic
