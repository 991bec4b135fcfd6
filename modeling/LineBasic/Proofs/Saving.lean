import LineBasic.Binary64
import LineBasic.FileTree
import LineBasic.Proofs.LineEffects

namespace LineBasic

open Text

namespace Command

theorem isKnown_of_parse {name : String} {args : List String} {command : Command}
    (h : parse name args = .ok command) (hknown : ∀ name, command ≠ .unknown name) :
    isKnown name := by
  unfold parse at h
  split at h
  case h_18 =>
    cases h
    exact absurd rfl (hknown name)
  all_goals decide

end Command

/-- The command that a typed line is, if it is one that can be read. -/
def Input.command? (text : String) : Option Command :=
  match classify text with
  | .command name args => (Command.parse name args).toOption
  | _ => none

section Operations

variable {σ α β : Type} {operation : ExceptT Error (StateM σ) α}
  {next : α → ExceptT Error (StateM σ) β} {s t : σ}

theorem run_bind {operation : StateM σ α} {next : α → StateM σ β} {a : α}
    (h : operation.run s = (a, t)) : (operation >>= next).run s = (next a).run t := by
  rw [StateT.run_bind, h]
  rfl

theorem run_bind_ok {a : α} (h : operation.run.run s = (.ok a, t)) :
    (operation >>= next).run.run s = (next a).run.run t := by
  show (operation.run >>= ExceptT.bindCont next).run s = _
  rw [StateT.run_bind, h]
  rfl

theorem run_bind_error {e : Error} (h : operation.run.run s = (.error e, t)) :
    (operation >>= next).run.run s = (.error e, t) := by
  show (operation.run >>= ExceptT.bindCont next).run s = _
  rw [StateT.run_bind, h]
  rfl

end Operations

namespace Storage

variable {σ : Type} (storage : Storage (StateM σ))

/-- Bytes are written into a file, and that leads from one state to another. -/
def Writes (file : String) (bytes : ByteArray) (s t : σ) : Prop :=
  (storage.write file bytes).run.run s = (.ok (), t)

def Finds (file : String) (bytes : ByteArray) (s : σ) : Prop :=
  ((storage.read file).run.run s).1 = .ok bytes

/-- The files that are there with their bytes, for as long as they are only looked at. -/
def Holds (files : List (String × ByteArray)) (s : σ) : Prop :=
  ∃ among : σ → Prop, among s ∧ ∀ t, among t → ∀ file bytes, (file, bytes) ∈ files →
    ((storage.exists? file).run t).1 = true ∧ among ((storage.exists? file).run t).2 ∧
      storage.Finds file bytes t ∧ among ((storage.read file).run.run t).2

end Storage

namespace Session

variable {σ : Type} {storage : Storage (StateM σ)} {s : Session}

theorem run_attempt_ok {operation : ExceptT Error (StateM σ) (String × Session)} {t t' : σ}
    {result : String × Session} (h : operation.run.run t = (.ok result, t')) :
    (s.attempt operation).run t = ((.ok result.1, result.2), t') := by
  unfold attempt
  rw [run_bind h]
  rfl

theorem run_attempt_error {operation : ExceptT Error (StateM σ) (String × Session)} {t t' : σ}
    {e : Error} (h : operation.run.run t = (.error e, t')) :
    (s.attempt operation).run t = ((.error e, s), t') := by
  unfold attempt
  rw [run_bind h]
  rfl

theorem run_save {name : Option String} {file : String} {t t' : σ}
    (htarget : s.saveTarget name = .ok file)
    (hwrites : storage.Writes file s.listing.text.toUTF8 t t') :
    (s.save storage name).run.run t = (.ok ("", { s with lastFile := some file }), t') := by
  unfold save
  rw [run_bind_ok (t := t) (a := file) (by rw [htarget]; rfl), run_bind_ok hwrites]
  rfl

theorem writes_of_save {name : Option String} {result : String × Session} {t t' : σ}
    (h : (s.save storage name).run.run t = (.ok result, t')) :
    ∃ file, s.saveTarget name = .ok file ∧ storage.Writes file s.listing.text.toUTF8 t t' := by
  unfold save at h
  cases htarget : s.saveTarget name with
  | error e =>
      rw [run_bind_error (t := t) (e := e) (by rw [htarget]; rfl)] at h
      cases h
  | ok file =>
      rw [run_bind_ok (t := t) (a := file) (by rw [htarget]; rfl)] at h
      refine ⟨file, rfl, ?_⟩
      rcases hwrite : (storage.write file s.listing.text.toUTF8).run.run t with ⟨result', t''⟩
      cases result' with
      | error e =>
          rw [run_bind_error hwrite] at h
          cases h
      | ok _ =>
          rw [run_bind_ok hwrite] at h
          cases h
          exact hwrite

theorem run_readProgram {file text : String} {t : σ} (h : storage.Finds file text.toUTF8 t) :
    ∃ t', (readProgram storage file).run.run t = (Listing.read text, t') := by
  rcases hread : (storage.read file).run.run t with ⟨result, t'⟩
  have hresult : result = .ok text.toUTF8 := by
    rw [Storage.Finds, hread] at h
    exact h
  rw [hresult] at hread
  refine ⟨t', ?_⟩
  unfold readProgram
  rw [run_bind_ok hread, fromUTF8?_toUTF8]
  rfl

theorem run_load {name text : String} {t : σ}
    (h : storage.Finds (Path.ofProgram s.directory name) text.toUTF8 t) :
    ∃ t', (s.load storage name).run.run t =
      ((Listing.read text).map fun listing =>
        ("", { s with listing, lastFile := some (Path.ofProgram s.directory name) }), t') := by
  obtain ⟨t', hread⟩ := run_readProgram h
  refine ⟨t', ?_⟩
  unfold load
  cases hlisting : Listing.read text with
  | error e =>
      rw [hlisting] at hread
      dsimp only
      rw [run_bind_error hread]
      rfl
  | ok listing =>
      rw [hlisting] at hread
      dsimp only
      rw [run_bind_ok hread]
      rfl

end Session

namespace Shell

variable {R W σ : Type} [NumberSystem R] {storage : Storage (StateM σ)} {shell : Shell R W}

/-- The line is answered without an error, and then the stored program is the given one. -/
def TakesOver (storage : Storage (StateM σ)) (shell : Shell R W) (text : String) (s : σ)
    (listing : Listing) : Prop :=
  ∃ output shell' t, (shell.takeLine storage text).run s = ((.done (.ok output), shell'), t) ∧
    shell'.session.listing = listing

def stopAuto (shell : Shell R W) : Shell R W :=
  { shell with session := shell.session.stopAuto }

omit [NumberSystem R] in
theorem listing_stopAuto (shell : Shell R W) :
    shell.stopAuto.session.listing = shell.session.listing := rfl

omit [NumberSystem R] in
theorem saveTarget_stopAuto (shell : Shell R W) (name : Option String) :
    shell.stopAuto.session.saveTarget name = shell.session.saveTarget name := rfl

/-- A line that is a command is performed with AUTO switched off. -/
theorem takeLine_of_command {text : String} {command : Command}
    (h : Input.command? text = some command) (hknown : ∀ name, command ≠ .unknown name) :
    shell.takeLine storage text = shell.stopAuto.perform storage command := by
  unfold Input.command? at h
  split at h
  · rename_i name args hinput
    cases hparse : Command.parse name args with
    | error e =>
        rw [hparse] at h
        cases h
    | ok found =>
        rw [hparse] at h
        cases h
        have hname := Command.isKnown_of_parse hparse hknown
        unfold takeLine
        simp only [hinput, hname, Bool.not_true, Bool.and_false, Bool.false_eq_true, if_false,
          hparse]
        rfl
  · cases h

/-- Every command but RUN and STOP is one of the session. -/
theorem run_perform {command : Command} (hrun : command ≠ .run) (hstop : command ≠ .stop) (s : σ) :
    (shell.perform storage command).run s =
      let performed := (shell.session.perform shell.config shell.controller.isRunning storage
        command).run s
      ((.done (performed.1.1.mapError .command), { shell with session := performed.1.2 }),
        performed.2) := by
  unfold perform
  split
  · exact absurd rfl hrun
  · exact absurd rfl hstop
  · rfl

theorem takeLine_eq_ok_iff {text : String} {command : Command}
    (hcommand : Input.command? text = some command)
    {operation : ExceptT Error (StateM σ) (String × Session)}
    (hoperation : ∀ config isRunning,
      shell.stopAuto.session.perform config isRunning storage command =
        shell.stopAuto.session.attempt operation)
    (hknown : (∀ name, command ≠ .unknown name) ∧ command ≠ .run ∧ command ≠ .stop)
    {output : String} {shell' : Shell R W} {s t : σ} :
    (shell.takeLine storage text).run s = ((.done (.ok output), shell'), t) ↔
      ∃ session, operation.run.run s = (.ok (output, session), t) ∧
        shell' = { shell with session } := by
  rw [takeLine_of_command hcommand hknown.1, run_perform hknown.2.1 hknown.2.2, hoperation]
  rcases hrun : operation.run.run s with ⟨result, t'⟩
  cases result with
  | error e =>
      rw [Session.run_attempt_error hrun]
      constructor
      · intro h
        cases h
      · rintro ⟨session, h, -⟩
        cases h
  | ok result =>
      rw [Session.run_attempt_ok hrun]
      constructor
      · intro h
        cases h
        exact ⟨result.2, rfl, rfl⟩
      · rintro ⟨session, h, rfl⟩
        cases h
        rfl

theorem writes_of_save {text output : String} {name : Option String}
    (hcommand : Input.command? text = some (.save name)) {shell' : Shell R W} {s t : σ}
    (h : (shell.takeLine storage text).run s = ((.done (.ok output), shell'), t)) :
    ∃ file, shell.session.saveTarget name = .ok file ∧
      storage.Writes file shell.session.listing.text.toUTF8 s t := by
  obtain ⟨session, hsave, -⟩ :=
    (takeLine_eq_ok_iff hcommand (fun _ _ => rfl) ⟨by simp, by simp, by simp⟩).mp h
  obtain ⟨file, htarget, hwrites⟩ := Session.writes_of_save hsave
  exact ⟨file, htarget, hwrites⟩

theorem takesOver_iff {text : String} {command : Command}
    (hcommand : Input.command? text = some command)
    {operation : ExceptT Error (StateM σ) (String × Session)}
    (hoperation : ∀ config isRunning,
      shell.stopAuto.session.perform config isRunning storage command =
        shell.stopAuto.session.attempt operation)
    (hknown : (∀ name, command ≠ .unknown name) ∧ command ≠ .run ∧ command ≠ .stop)
    {listing : Listing} (hstored : listing.IsStored) {s t : σ} {f : Listing → String × Session}
    (hf : ∀ listing, (f listing).2.listing = listing)
    (hrun : operation.run.run s = ((Listing.read listing.text).map f, t)) :
    shell.TakesOver storage text s listing ↔ ∀ l ∈ listing.lines, l.Fits := by
  rw [← Listing.read_text_iff hstored]
  unfold TakesOver
  simp only [takeLine_eq_ok_iff hcommand hoperation hknown, hrun]
  constructor
  · rintro ⟨output, shell', t', ⟨session, hread, rfl⟩, hlisting⟩
    cases hfound : Listing.read listing.text with
    | error e =>
        rw [hfound] at hread
        cases hread
    | ok found =>
        rw [hfound] at hread
        have hsession : f found = (output, session) := by
          injection hread with hok
          injection hok
        rw [← hlisting, ← hf found, hsession]
  · intro hread
    rw [hread]
    exact ⟨(f listing).1, _, t, ⟨(f listing).2, rfl, rfl⟩, hf listing⟩

theorem takesOver_load_iff {text name : String}
    (hcommand : Input.command? text = some (.load name)) {listing : Listing}
    (hstored : listing.IsStored) {s : σ}
    (hfile : storage.Finds (Path.ofProgram shell.session.directory name) listing.text.toUTF8 s) :
    shell.TakesOver storage text s listing ↔ ∀ l ∈ listing.lines, l.Fits := by
  obtain ⟨t, hload⟩ := Session.run_load (s := shell.stopAuto.session) hfile
  exact takesOver_iff hcommand (fun _ _ => rfl) ⟨by simp, by simp, by simp⟩ hstored
    (fun _ => rfl) hload

end Shell

section Carts

variable {σ : Type} {storage : Storage (StateM σ)}

/-- The files of a cart that SAVECART writes, with what it writes into them. -/
def Cart.files (cart : Cart) (program : String) : List (String × ByteArray) :=
  [(Cart.place cart.root Cart.programFile, program.toUTF8),
    (Cart.place cart.root Cart.manifestFile, cart.manifest.text.toUTF8)]

theorem Cart.writes_of_rescan {cart : Cart} {program : String} {assets : List Asset} {s t : σ}
    (h : (cart.rescan storage program).run.run s = (.ok assets, t)) :
    ∃ s', storage.Writes (Cart.place cart.root Cart.programFile) program.toUTF8 s s' := by
  unfold rescan at h
  rcases hwrite : (storage.write (place cart.root programFile) program.toUTF8).run.run s with
    ⟨result, s'⟩
  cases result with
  | error e =>
      rw [run_bind_error hwrite] at h
      cases h
  | ok _ => exact ⟨s', hwrite⟩

theorem Cart.writes_of_save {cart cart' : Cart} {program : String} {s t : σ}
    (h : (cart.save storage program).run s = ((.ok (), cart'), t)) :
    (∃ s', storage.Writes (Cart.place cart'.root Cart.programFile) program.toUTF8 s s') ∧
      ∃ t', storage.Writes (Cart.place cart'.root Cart.manifestFile) cart'.manifest.text.toUTF8 t' t := by
  unfold save at h
  rcases hrescan : (cart.rescan storage program).run.run s with ⟨result, s'⟩
  rw [run_bind hrescan] at h
  cases result with
  | error e => cases h
  | ok assets =>
      obtain ⟨s'', hwrites⟩ := writes_of_rescan hrescan
      rcases hnow : storage.now.run s' with ⟨saved, t'⟩
      have hlast : ∀ cart'' : Cart, ((cart''.writeManifest storage).run >>= fun result =>
          pure (result, cart'')).run t' = ((.ok (), cart'), t) →
          cart'' = cart' ∧ storage.Writes (place cart'.root manifestFile)
            cart'.manifest.text.toUTF8 t' t := by
        intro cart'' hrun
        rcases hmanifest : (cart''.writeManifest storage).run.run t' with ⟨result, t''⟩
        rw [run_bind hmanifest] at hrun
        cases hrun
        exact ⟨rfl, hmanifest⟩
      dsimp only at h
      rw [run_bind hnow] at h
      obtain ⟨rfl, hwritten⟩ := hlast _ h
      exact ⟨⟨s'', hwrites⟩, t', hwritten⟩

theorem Storage.Holds.finds {files : List (String × ByteArray)} {s : σ}
    (h : storage.Holds files s) {file : String} {bytes : ByteArray} (hmem : (file, bytes) ∈ files) :
    ∃ t, (storage.read file).run.run s = (.ok bytes, t) ∧ storage.Holds files t := by
  obtain ⟨among, hs, hfiles⟩ := h
  obtain ⟨-, -, hfinds, hread⟩ := hfiles s hs file bytes hmem
  exact ⟨_, Prod.ext hfinds rfl, among, hread, hfiles⟩

theorem Storage.Holds.exists? {files : List (String × ByteArray)} {s : σ}
    (h : storage.Holds files s) {file : String} {bytes : ByteArray} (hmem : (file, bytes) ∈ files) :
    ∃ t, (storage.exists? file).run s = (true, t) ∧ storage.Holds files t := by
  obtain ⟨among, hs, hfiles⟩ := h
  obtain ⟨hexists, hlook, -, -⟩ := hfiles s hs file bytes hmem
  exact ⟨_, Prod.ext hexists rfl, among, hlook, hfiles⟩

theorem Cart.run_open {cart : Cart} {program : String} (hmanifest : cart.manifest.IsProper) {s : σ}
    (hfiles : storage.Holds (cart.files program) s) :
    ∃ t, (Cart.open storage cart.root).run.run s = (.ok cart, t) ∧
      storage.Holds (cart.files program) t := by
  have hmem : (place cart.root manifestFile, cart.manifest.text.toUTF8) ∈ cart.files program := by
    simp [files]
  obtain ⟨t, hread, hfiles⟩ := hfiles.finds hmem
  refine ⟨t, ?_, hfiles⟩
  unfold Cart.open
  rw [run_bind_ok hread, hmanifest.read?_text]
  rfl

theorem Cart.run_program? {cart : Cart} {program : String} {s : σ}
    (hfiles : storage.Holds (cart.files program) s) :
    ∃ t, (cart.program? storage).run.run s = (.ok (some program), t) := by
  have hmem : (place cart.root programFile, program.toUTF8) ∈ cart.files program := by
    simp [files]
  obtain ⟨s', hexists, hfiles⟩ := hfiles.exists? hmem
  obtain ⟨t, hread, -⟩ := hfiles.finds hmem
  refine ⟨t, ?_⟩
  have hlift : (liftM (storage.exists? (place cart.root programFile)) :
      ExceptT Error (StateM σ) Bool).run.run s = (.ok true, s') := by
    show (storage.exists? _ >>= fun found => pure (Except.ok found)).run s = _
    rw [run_bind hexists]
    rfl
  unfold program?
  dsimp only
  rw [run_bind_ok hlift, if_pos rfl, run_bind_ok hread, fromUTF8?_toUTF8]
  rfl

theorem Session.run_useCart {session : Session} {path program : String} {cart : Cart}
    (hroot : Path.join session.directory path = cart.root) (hmanifest : cart.manifest.IsProper)
    {s : σ} (hfiles : storage.Holds (cart.files program) s) :
    ∃ t, (session.useCart storage path).run.run s =
      ((Listing.read program).map fun listing =>
        ("CART " ++ cart.manifest.name, { session with listing, cart := some cart }), t) := by
  obtain ⟨s', hopen, hfiles⟩ := Cart.run_open hmanifest hfiles
  obtain ⟨t, hprogram⟩ := Cart.run_program? hfiles
  refine ⟨t, ?_⟩
  unfold useCart
  rw [hroot, run_bind_ok hopen, run_bind_ok hprogram]
  dsimp only
  cases Listing.read program <;> rfl

namespace Shell

variable {R W : Type} [NumberSystem R] {shell : Shell R W}

theorem writes_of_saveCart {text output : String}
    (hcommand : Input.command? text = some .saveCart) {shell' : Shell R W} {s t : σ}
    (h : (shell.takeLine storage text).run s = ((.done (.ok output), shell'), t)) :
    ∃ cart, shell'.session.cart = some cart ∧
      (∃ s', storage.Writes (Cart.place cart.root Cart.programFile)
        shell.session.listing.text.toUTF8 s s') ∧
      ∃ t', storage.Writes (Cart.place cart.root Cart.manifestFile)
        cart.manifest.text.toUTF8 t' t := by
  rw [takeLine_of_command hcommand (by simp), run_perform (by simp) (by simp)] at h
  dsimp only [Session.perform, Session.onCart] at h
  split at h
  · cases h
  · rename_i cart hcart
    rcases hsave : (cart.save storage shell.session.listing.text).run s with ⟨⟨result, cart'⟩, t'⟩
    have hcopy : (Session.saveCart storage shell.session.listing.text cart).run s =
        ((result.map fun _ => "", cart'), t') := by
      unfold Session.saveCart
      rw [run_bind hsave]
      rfl
    rw [listing_stopAuto, run_bind hcopy] at h
    cases result with
    | error e => cases h
    | ok _ =>
        cases h
        exact ⟨cart', rfl, Cart.writes_of_save hsave⟩

theorem takesOver_useCart_iff {text path : String}
    (hcommand : Input.command? text = some (.useCart path)) {listing : Listing}
    (hstored : listing.IsStored) {cart : Cart} (hmanifest : cart.manifest.IsProper)
    (hroot : Path.join shell.session.directory path = cart.root) {s : σ}
    (hfiles : storage.Holds (cart.files listing.text) s) :
    shell.TakesOver storage text s listing ↔ ∀ l ∈ listing.lines, l.Fits := by
  obtain ⟨t, huse⟩ := @Session.run_useCart σ storage shell.stopAuto.session _ _ _ hroot hmanifest _ hfiles
  exact takesOver_iff hcommand (fun _ _ => rfl) ⟨by simp, by simp, by simp⟩ hstored
    (fun _ => rfl) huse

end Shell

end Carts

section Restoring

variable {R W σ : Type} [NumberSystem R] {storage : Storage (StateM σ)} {shell : Shell R W}

/-- Let a shell that lines without line feeds have led to answer a line without an error. If the line is SAVE, it has written
the program into a file; and wherever reading that file gives the same bytes, LOAD takes over exactly the program that was
saved, if and only if none of its lines is longer than a line of a program file may be. The same holds of SAVECART and
USECART. -/
theorem saved_program_restored (hclock : storage.TellsTime)
    (hreached : shell.Reached storage HasNoBreak) {text output : String}
    (hbreak : HasNoBreak text) {shell' : Shell R W} {s t : σ}
    (hrun : (shell.takeLine storage text).run s = ((.done (.ok output), shell'), t)) :
    (∀ name, Input.command? text = some (.save name) →
      ∃ file, shell.session.saveTarget name = .ok file ∧
        storage.Writes file shell.session.listing.text.toUTF8 s t ∧
        ∀ (later : Shell R W) (text' name' : String), Input.command? text' = some (.load name') →
          Path.ofProgram later.session.directory name' = file →
          ∀ t', storage.Finds file shell.session.listing.text.toUTF8 t' →
            (later.TakesOver storage text' t' shell.session.listing ↔
              ∀ l ∈ shell.session.listing.lines, l.Fits)) ∧
    (Input.command? text = some .saveCart →
      ∃ cart, shell'.session.cart = some cart ∧
        (∃ s', storage.Writes (Cart.place cart.root Cart.programFile)
          shell.session.listing.text.toUTF8 s s') ∧
        (∃ t', storage.Writes (Cart.place cart.root Cart.manifestFile)
          cart.manifest.text.toUTF8 t' t) ∧
        ∀ (later : Shell R W) (text' path : String), Input.command? text' = some (.useCart path) →
          Path.join later.session.directory path = cart.root →
          ∀ t', storage.Holds (cart.files shell.session.listing.text) t' →
            (later.TakesOver storage text' t' shell.session.listing ↔
              ∀ l ∈ shell.session.listing.lines, l.Fits)) := by
  have hstored := (hreached.isSound hclock).listing
  constructor
  · intro name hcommand
    obtain ⟨file, htarget, hwrites⟩ := Shell.writes_of_save hcommand hrun
    refine ⟨file, htarget, hwrites, ?_⟩
    rintro later text' name' hload rfl t' hfinds
    exact Shell.takesOver_load_iff hload hstored hfinds
  · intro hcommand
    obtain ⟨cart, hcart, hprogram, hmanifest⟩ := Shell.writes_of_saveCart hcommand hrun
    refine ⟨cart, hcart, hprogram, hmanifest, ?_⟩
    intro later text' path huse hroot t' hholds
    have hnext : shell'.Reached storage HasNoBreak := by
      have hstep := hreached.takeLine hbreak s
      rw [hrun] at hstep
      exact hstep
    exact Shell.takesOver_useCart_iff huse hstored ((hnext.isSound hclock).cart cart hcart) hroot
      hholds

end Restoring

def Sinks.silent : Sinks Unit where
  write _ _ := ()
  random _ := (0, ())
  fail _ _ := ()
  status _ _ := ()

namespace FileTree

/-- A file system in memory, in which no time passes. -/
def timeless : Storage (StateM FileTree) :=
  storage { seconds := 0 } { seconds := 0 }

theorem tellsTime_timeless : timeless.TellsTime := by
  intro tree
  show Timestamp.IsProper { seconds := 0 }
  exact ⟨by decide, by decide, by decide⟩

def withProgram (bytes : ByteArray) : FileTree :=
  put (startingAt []) ["a.bas"] (.file bytes)

theorem writes_withProgram (bytes : ByteArray) :
    timeless.Writes "./a.bas" bytes (startingAt []) (withProgram bytes) := by
  rfl

theorem holds_of_forall {files : List (String × ByteArray)} {tree : FileTree}
    (h : ∀ entry ∈ files, ((timeless.exists? entry.1).run tree).1 = true ∧
      ((timeless.read entry.1).run.run tree).1 = .ok entry.2) :
    timeless.Holds files tree := by
  refine ⟨fun tree' => tree' = tree, rfl, ?_⟩
  rintro _ rfl file bytes hmem
  obtain ⟨hexists, hread⟩ := h (file, bytes) hmem
  exact ⟨hexists, rfl, hread, rfl⟩

theorem finds_withProgram (bytes : ByteArray) :
    timeless.Finds "./a.bas" bytes (withProgram bytes) := by
  rfl

end FileTree

namespace Shell

/-- A new shell after one line of a program was typed. -/
def typing (l : Line) : Shell Float Unit :=
  (((Shell.new {} .silent () []).takeLine FileTree.timeless l.text).run (.startingAt [])).1.2

theorem reached_typing {l : Line} (h : l.IsStored) :
    (typing l).Reached FileTree.timeless HasNoBreak :=
  (Reached.new {} .silent () []).takeLine h.no_break_text (FileTree.startingAt [])

theorem session_typing {l : Line} (h : l.IsStored) :
    (typing l).session = { Session.new {} with listing := Listing.empty.insert l } := by
  have henter : (Shell.new {} .silent () [] : Shell Float Unit).session.enterNumbered l.number
      l.content = .ok ("", { Session.new {} with listing := Listing.empty.insert l }) := by
    unfold Session.enterNumbered
    rw [if_neg (Nat.not_lt.mpr h.number_le), Session.enter, Listing.store,
      if_neg (by simp [h.not_empty])]
    rfl
  unfold typing takeLine
  simp only [Input.classify_text (h.number_le.trans (by decide)) h.ends_in_ink, henter]
  rfl

theorem place_typing {l : Line} (h : l.IsStored) :
    Path.ofProgram (typing l).session.directory "a" = "./a.bas" := by
  rw [session_typing h]
  show Path.ofProgram "." "a" = "./a.bas"
  decide

theorem run_save_typing {l : Line} (h : l.IsStored) :
    ∃ shell', ((typing l).takeLine FileTree.timeless "SAVE a").run (.startingAt []) =
      ((.done (.ok ""), shell'),
        FileTree.withProgram (typing l).session.listing.text.toUTF8) := by
  have hcommand : Input.command? "SAVE a" = some (.save (some "a")) := by decide
  have htarget : (typing l).stopAuto.session.saveTarget (some "a") = .ok "./a.bas" := by
    rw [saveTarget_stopAuto, Session.saveTarget, place_typing h]
  have hwrites : FileTree.timeless.Writes "./a.bas" (typing l).stopAuto.session.listing.text.toUTF8
      (.startingAt []) (.withProgram (typing l).session.listing.text.toUTF8) := by
    rw [listing_stopAuto]
    exact FileTree.writes_withProgram _
  exact ⟨_, (takeLine_eq_ok_iff hcommand (fun _ _ => rfl) ⟨by simp, by simp, by simp⟩).mpr
    ⟨_, Session.run_save htarget hwrites, rfl⟩⟩

end Shell

/-- A line with a remark, `count + 8` bytes long. -/
def Line.remark (count : Nat) : Line :=
  { number := 10, content := String.ofList ("REM ".toList ++ (List.replicate count 'X' ++ ['.'])) }

theorem Line.isStored_remark (count : Nat) : (Line.remark count).IsStored where
  number_le := by
    show 10 ≤ maxLineNumber
    decide
  not_empty := by
    rw [isEmpty, remark, isBlank_ofList]
    rfl
  ends_in_ink := by
    rw [remark, String.toList_ofList, ← List.append_assoc]
    intro c hc
    rw [List.getLast?_concat] at hc
    cases hc
    decide
  no_break := by
    simp [remark]

theorem Line.byteLength_remark (count : Nat) :
    byteLength (Line.remark count).content.toList = count + 5 := by
  have hsize : byteLength (List.replicate count 'X') = count :=
    (byteLength_replicate count 'X').trans (Nat.mul_one count)
  have hword : byteLength "REM ".toList = 4 := by decide
  have hink : byteLength ['.'] = 1 := by decide
  rw [remark, String.toList_ofList, byteLength_append, byteLength_append, hsize, hword, hink]
  omega

theorem Line.fits_remark_iff (count : Nat) :
    (Line.remark count).Fits ↔ count + 8 ≤ maxLineLength := by
  have hdigits : byteLength (Nat.toDigits 10 10) = 2 := by decide
  have hlength : byteLength (Line.remark count).text.toList = 2 + (count + 5 + 1) := by
    rw [byteLength_text (isStored_remark count).content_ne, byteLength_remark, remark, hdigits]
  rw [Fits, hlength]
  omega

def Turn.reply? : Turn → Option Reply
  | .done reply => some reply
  | .running => none

theorem Turn.eq_done {turn : Turn} {reply : Reply} (h : turn.reply? = some reply) :
    turn = .done reply := by
  cases turn with
  | done _ => exact congrArg Turn.done (Option.some.inj h)
  | running => cases h

theorem Turn.eq_running {turn : Turn} (h : turn.reply? = none) : turn = .running := by
  cases turn with
  | done _ => cases h
  | running => rfl

theorem Turn.run_eq {S T : Type} {run : (Turn × S) × T} {reply : Reply}
    (h : run.1.1.reply? = some reply) : run = ((.done reply, run.1.2), run.2) := by
  rw [← eq_done h]

namespace Shell

def withCart : (Turn × Shell Float Unit) × FileTree :=
  ((typing (.remark 1)).takeLine FileTree.timeless "CREATECART c").run (.startingAt [])

/-- The same shell after the program was saved into the cart. -/
def withSavedCart : (Turn × Shell Float Unit) × FileTree :=
  (withCart.1.2.takeLine FileTree.timeless "SAVECART").run withCart.2

def savedCart : Cart where
  root := "./c"
  manifest := { name := "c", created := { seconds := 0 }, saved := some { seconds := 0 } }

theorem withSavedCart_eq : withSavedCart.1.1.reply? = some (.ok "") ∧
    withSavedCart.1.2.session.cart = some savedCart := by
  decide +kernel

theorem reached_withCart : withCart.1.2.Reached FileTree.timeless HasNoBreak := by
  have hbreak : HasNoBreak "CREATECART c" := by
    unfold HasNoBreak
    decide
  unfold withCart
  exact (reached_typing (Line.isStored_remark 1)).takeLine hbreak _

theorem run_withSavedCart :
    (withCart.1.2.takeLine FileTree.timeless "SAVECART").run withCart.2 =
      ((.done (.ok ""), withSavedCart.1.2), withSavedCart.2) := by
  have hreply := withSavedCart_eq.1
  unfold withSavedCart at hreply ⊢
  exact Turn.run_eq hreply

theorem holds_withSavedCart :
    FileTree.timeless.Holds (savedCart.files withCart.1.2.session.listing.text)
      withSavedCart.2 := by
  apply FileTree.holds_of_forall
  decide +kernel

end Shell

/-- A new shell takes over a program from the file or the cart that another one has saved it into. -/
theorem saved_program_restored_remark :
    (Shell.new {} .silent () [] : Shell Float Unit).TakesOver FileTree.timeless "LOAD a"
      (.withProgram (Shell.typing (.remark 1)).session.listing.text.toUTF8)
      (Shell.typing (.remark 1)).session.listing ∧
    (Shell.new {} .silent () [] : Shell Float Unit).TakesOver FileTree.timeless "USECART c"
      Shell.withSavedCart.2 Shell.withCart.1.2.session.listing := by
  have hreached := Shell.reached_typing (Line.isStored_remark 1)
  constructor
  · obtain ⟨shell', hrun⟩ := Shell.run_save_typing (Line.isStored_remark 1)
    obtain ⟨file, htarget, -, hload⟩ := (saved_program_restored FileTree.tellsTime_timeless
      hreached (by unfold HasNoBreak; decide) hrun).1 (some "a") (by decide)
    have hfile : Path.ofProgram (Shell.typing (.remark 1)).session.directory "a" = file :=
      Except.ok.inj htarget
    rw [Shell.place_typing (Line.isStored_remark 1)] at hfile
    subst hfile
    have hcommand : Input.command? "LOAD a" = some (.load "a") := by decide
    have hplace : Path.ofProgram
        (Shell.new {} .silent () [] : Shell Float Unit).session.directory "a" = "./a.bas" := by
      decide
    have hfinds := FileTree.finds_withProgram (Shell.typing (.remark 1)).session.listing.text.toUTF8
    rw [hload _ "LOAD a" "a" hcommand hplace _ hfinds, Shell.session_typing (Line.isStored_remark 1)]
    intro l hl
    rw [List.mem_singleton.mp hl, Line.fits_remark_iff]
    decide
  · obtain ⟨cart, hopen, -, -, huse⟩ := (saved_program_restored FileTree.tellsTime_timeless
      Shell.reached_withCart (by unfold HasNoBreak; decide) Shell.run_withSavedCart).2
      (by decide)
    obtain rfl : Shell.savedCart = cart :=
      Option.some.inj (Shell.withSavedCart_eq.2.symm.trans hopen)
    have hcommand : Input.command? "USECART c" = some (.useCart "c") := by decide
    have hroot : Path.join (Shell.new {} .silent () [] : Shell Float Unit).session.directory "c" =
        Shell.savedCart.root := by
      decide
    rw [huse _ "USECART c" "c" hcommand hroot _ Shell.holds_withSavedCart]
    decide +kernel

/-- A line that was typed and saved is too long to be loaded. -/
theorem not_restored_remark :
    (Shell.typing (.remark 1017)).Reached FileTree.timeless HasNoBreak ∧
    (∃ shell', ((Shell.typing (.remark 1017)).takeLine FileTree.timeless "SAVE a").run
      (.startingAt []) = ((.done (.ok ""), shell'),
        FileTree.withProgram (Shell.typing (.remark 1017)).session.listing.text.toUTF8)) ∧
    FileTree.timeless.Finds "./a.bas" (Shell.typing (.remark 1017)).session.listing.text.toUTF8
      (.withProgram (Shell.typing (.remark 1017)).session.listing.text.toUTF8) ∧
    ¬ (Shell.typing (.remark 1017)).TakesOver FileTree.timeless "LOAD a"
      (.withProgram (Shell.typing (.remark 1017)).session.listing.text.toUTF8)
      (Shell.typing (.remark 1017)).session.listing := by
  have hreached := Shell.reached_typing (Line.isStored_remark 1017)
  have hsave := Shell.run_save_typing (Line.isStored_remark 1017)
  have hread := FileTree.finds_withProgram
    (Shell.typing (.remark 1017)).session.listing.text.toUTF8
  refine ⟨hreached, hsave, hread, ?_⟩
  have hstored := (hreached.isSound FileTree.tellsTime_timeless).listing
  have hfinds : FileTree.timeless.Finds
      (Path.ofProgram (Shell.typing (.remark 1017)).session.directory "a")
      (Shell.typing (.remark 1017)).session.listing.text.toUTF8
      (.withProgram (Shell.typing (.remark 1017)).session.listing.text.toUTF8) := by
    rw [Shell.place_typing (Line.isStored_remark 1017)]
    exact FileTree.finds_withProgram _
  have hcommand : Input.command? "LOAD a" = some (.load "a") := by decide
  rw [Shell.takesOver_load_iff hcommand hstored hfinds]
  intro hfits
  have hlong : (Line.remark 1017).Fits := by
    apply hfits
    rw [Shell.session_typing (Line.isStored_remark 1017)]
    exact List.mem_singleton_self _
  rw [Line.fits_remark_iff] at hlong
  exact absurd hlong (by decide)

end LineBasic
