import LineBasic.Proofs.Sessions

namespace LineBasic

open Text

namespace Listing

/-- What a typed line makes of a stored program. -/
inductive Edits (text : String) : Listing → Listing → Prop where
  | refl (listing : Listing) : Edits text listing listing
  | store {number : LineNumber} {content : String} (hnumber : number ≤ maxLineNumber)
      (hcontent : content.toList <:+ trim text.toList) (listing : Listing) :
      Edits text listing (listing.store { number, content })
  | keep (condition : Line → Bool) (listing : Listing) : Edits text listing (listing.keep condition)
  | clear (listing : Listing) : Edits text listing .empty
  | read {file : String} {listing' : Listing} (h : Listing.read file = .ok listing')
      (listing : Listing) : Edits text listing listing'
  | renumber {listing listing' : Listing} {start increment first : Nat}
      (h : listing.renumber start increment first = .ok listing') : Edits text listing listing'

variable {text : String} {listing listing' : Listing}

theorem Edits.each_isProper (h : listing.Edits text listing')
    (hproper : listing.Each Line.IsProper) : listing'.Each Line.IsProper := by
  cases h with
  | refl => exact hproper
  | store hnumber hcontent =>
      exact hproper.store fun hempty => ⟨hnumber, hempty, Input.endsInInk_of_suffix hcontent⟩
  | keep condition => exact hproper.keep condition
  | clear => exact each_empty
  | read hread =>
      exact each_of_read (fun _ _ _ hparse hempty => (Line.of_parse hparse hempty).1) hread
  | renumber hrenumber =>
      exact hproper.renumber (fun _ _ hl hchange => hl.renumber hchange) hrenumber

/-- A line with line feeds in it could not be held by a program file. -/
theorem Edits.isStored (h : listing.Edits text listing') (hbreak : HasNoBreak text)
    (hstored : listing.IsStored) : listing'.IsStored := by
  cases h with
  | refl => exact hstored
  | store hnumber hcontent =>
      exact hstored.store fun hempty => ⟨hnumber, hempty, Input.endsInInk_of_suffix hcontent,
        Input.hasNoBreak_of_suffix hbreak hcontent⟩
  | keep condition => exact hstored.keep condition
  | clear => exact isStored_empty
  | read hread => exact isStored_of_read hread
  | renumber hrenumber => exact hstored.renumber hrenumber

end Listing

namespace Session

variable {σ : Type} {storage : Storage (StateM σ)} {text : String} {s s' : Session}

/-- The session has the program, the file, the directory and the switches that it had, and a cart in the same directory.
AUTO may be switched off. -/
structure Keeps (s s' : Session) : Prop where
  listing : s'.listing = s.listing
  lastFile : s'.lastFile = s.lastFile
  directory : s'.directory = s.directory
  verbose : s'.verbose = s.verbose
  flags : s'.flags = s.flags
  root : s'.cart.map Cart.root = s.cart.map Cart.root
  auto : s'.auto = s.auto ∨ s'.auto = s.auto.stop

def HasProperCart (s : Session) : Prop :=
  ∀ cart, s.cart = some cart → cart.manifest.IsProper

/-- What a typed line may make of a session. If AUTO gives permitted numbers only, then the line edits the program and AUTO
still does so; and if the clock tells the time, the manifest can be written afterwards if it could be before. -/
structure Follows (storage : Storage (StateM σ)) (text : String) (s s' : Session) : Prop where
  listing : s.auto.IsSound → s.listing.Edits text s'.listing
  auto : s.auto.IsSound → s'.auto.IsSound
  cart : storage.TellsTime → s.HasProperCart → s'.HasProperCart

/-- What an operation with a result does: the session is kept if it fails. -/
structure Effect {ε α : Type} (storage : Storage (StateM σ)) (text : String) (s : Session)
    (result : Except ε α) (s' : Session) : Prop where
  follows : s.Follows storage text s'
  keeps : ∀ e, result = .error e → s.Keeps s'

theorem Keeps.refl (s : Session) : s.Keeps s :=
  ⟨rfl, rfl, rfl, rfl, rfl, rfl, .inl rfl⟩

theorem keeps_stopAuto (s : Session) : s.Keeps s.stopAuto :=
  ⟨rfl, rfl, rfl, rfl, rfl, rfl, .inr rfl⟩

theorem Keeps.of_stopAuto (h : s.stopAuto.Keeps s') : s.Keeps s' where
  listing := h.listing
  lastFile := h.lastFile
  directory := h.directory
  verbose := h.verbose
  flags := h.flags
  root := h.root
  auto := .inr (h.auto.elim id id)

theorem Follows.refl (s : Session) : s.Follows storage text s :=
  ⟨fun _ => .refl _, id, fun _ => id⟩

theorem Follows.of_stopAuto (h : s.stopAuto.Follows storage text s') :
    s.Follows storage text s' where
  listing _ := h.listing s.auto.isSound_stop
  auto _ := h.auto s.auto.isSound_stop
  cart := h.cart

section Effect

variable {ε α : Type}

theorem effect_refl (result : Except ε α) (s : Session) : s.Effect storage text result s :=
  ⟨.refl s, fun _ _ => .refl s⟩

theorem Follows.effect (h : s.Follows storage text s') (output : α) :
    s.Effect storage text (.ok output : Except ε α) s' :=
  ⟨h, by rintro e ⟨⟩⟩

end Effect

theorem follows_enter {number : LineNumber} (hnumber : number ≤ maxLineNumber) {content : String}
    (hcontent : content.toList <:+ trim text.toList) (s : Session) :
    s.Follows storage text (s.enter number content) :=
  ⟨fun _ => .store hnumber hcontent _, id, fun _ => id⟩

theorem follows_enterNumbered {number : LineNumber} {content output : String}
    (hcontent : content.toList <:+ trim text.toList)
    (henter : s.enterNumbered number content = .ok (output, s')) :
    s.Follows storage text s' := by
  unfold enterNumbered at henter
  split at henter
  · cases henter
  · rename_i hle
    cases henter
    have hfollows : s.Follows storage text (s.enter number content) :=
      follows_enter (Nat.le_of_not_lt hle) hcontent s
    exact { hfollows with auto := fun h => h.follow number }

theorem follows_enterBare {content : String} (hcontent : content.toList <:+ trim text.toList)
    (s : Session) : s.Follows storage text (s.enterBare content) := by
  unfold enterBare
  split
  · rename_i number auto htake
    refine ⟨fun h => ?_, fun h => (h.of_take htake).2, fun _ => id⟩
    exact .store (h.of_take htake).1 hcontent _
  · exact .refl s

theorem always_effect_ok (h : s.Follows storage text s') (output : String) :
    Always (pure (.ok output, s') : StateM σ (Except Error String × Session)) fun result =>
      s.Effect storage text result.1 result.2 :=
  always_pure (h.effect output)

theorem always_effect_attempt {operation : ExceptT Error (StateM σ) (String × Session)}
    (hoperation : Gives operation fun result => s.Follows storage text result.2) :
    Always (s.attempt operation) fun result => s.Effect storage text result.1 result.2 := by
  unfold attempt
  refine Always.bind hoperation fun result hresult => ?_
  cases result with
  | ok result => exact always_pure ((hresult result rfl).effect _)
  | error e => exact always_pure (effect_refl _ s)

theorem always_effect_onCart {operation : Cart → StateM σ (Except Error String × Cart)}
    (hoperation : ∀ cart, Always (operation cart) fun result => cart.Stays storage result.2) :
    Always (s.onCart operation) fun result => s.Effect storage text result.1 result.2 := by
  unfold onCart
  split
  · exact always_pure (effect_refl _ s)
  · rename_i cart hcart
    refine (hoperation cart).bind fun result hstays => ?_
    refine always_pure ⟨⟨fun _ => .refl _, id, fun hclock hproper => ?_⟩, fun _ _ => ?_⟩
    · rintro _ ⟨⟩
      exact hstays.manifest hclock (hproper cart hcart)
    · refine ⟨rfl, rfl, rfl, rfl, rfl, ?_, .inl rfl⟩
      rw [hcart, Option.map_some, Option.map_some, hstays.root]

theorem follows_of_startAuto {config : Config} {isRunning : Bool}
    {start increment : Option Nat} {result : String × Session}
    (hstart : s.startAuto config isRunning start increment = .ok result) :
    s.Follows storage text result.2 := by
  unfold startAuto at hstart
  dsimp only at hstart
  split at hstart
  · cases hstart
  · split at hstart
    · cases hstart
    · split at hstart
      · cases hstart
      · cases hstart
        exact ⟨fun _ => .refl _, fun _ => AutoCursor.isSound_start _ _, fun _ => id⟩

theorem gives_follows_save (name : Option String) :
    Gives (s.save storage name) fun result => s.Follows storage text result.2 := by
  unfold save
  refine (gives_true _).bind fun file _ => ?_
  refine (gives_true _).bind fun _ _ => ?_
  exact gives_pure ⟨fun _ => .refl _, id, fun _ => id⟩

theorem gives_readProgram (file : String) :
    Gives (readProgram storage file) fun listing => ∃ text, Listing.read text = .ok listing := by
  unfold readProgram
  refine (gives_true _).bind fun bytes _ => ?_
  split
  · exact gives_mk fun _ hread => ⟨_, hread⟩
  · exact gives_throw _

theorem gives_follows_load (name : String) :
    Gives (s.load storage name) fun result => s.Follows storage text result.2 := by
  unfold load
  refine (gives_readProgram _).bind fun listing hlisting => ?_
  obtain ⟨file, hread⟩ := hlisting
  exact gives_pure ⟨fun _ => .read hread _, id, fun _ => id⟩

theorem gives_follows_createCart (path : String) :
    Gives (s.createCart storage path) fun result => s.Follows storage text result.2 := by
  unfold createCart
  refine (Cart.gives_create _).bind fun cart hcart => ?_
  refine gives_pure ⟨fun _ => .refl _, id, fun hclock _ => ?_⟩
  rintro _ ⟨⟩
  exact hcart hclock

theorem gives_follows_useCart (path : String) :
    Gives (s.useCart storage path) fun result => s.Follows storage text result.2 := by
  unfold useCart
  refine (Cart.gives_open _).bind fun cart hcart => ?_
  have hproper : ∀ listing, HasProperCart { s with listing, cart := some cart } := by
    rintro listing _ ⟨⟩
    exact hcart
  refine (gives_true _).bind fun program _ => ?_
  cases program with
  | none => exact gives_pure ⟨fun _ => .refl _, id, fun _ _ => hproper _⟩
  | some file =>
      refine (gives_mk fun listing hread => hread).bind fun listing hread => ?_
      exact gives_pure ⟨fun _ => .read hread _, id, fun _ _ => hproper _⟩

/-- What a command makes of a session, and of the same session if it fails. -/
theorem always_effect_perform (text : String) (config : Config) (isRunning : Bool)
    (command : Command) :
    Always (s.perform config isRunning storage command) fun result =>
      s.Effect storage text result.1 result.2 := by
  cases command with
  | list first last => exact always_pure (effect_refl _ s)
  | new =>
      refine always_effect_ok ?_ _
      exact ⟨fun _ => .clear _, id, fun _ => id⟩
  | run => exact always_pure (effect_refl _ s)
  | stop => exact always_pure (effect_refl _ s)
  | save name => exact always_effect_attempt (gives_follows_save name)
  | load name => exact always_effect_attempt (gives_follows_load name)
  | auto start increment =>
      exact always_effect_attempt (gives_mk fun _ hstart => follows_of_startAuto hstart)
  | delete first last =>
      refine always_effect_ok ?_ _
      refine ⟨fun _ => ?_, id, fun _ => id⟩
      rw [Listing.delete_eq]
      exact .keep _ _
  | renum start increment first =>
      refine always_effect_attempt (gives_mk fun result hrenum => ?_)
      obtain ⟨listing, hlisting, hresult⟩ := Stmt.bind_eq_ok hrenum
      cases hresult
      exact ⟨fun _ => .renumber hlisting, id, fun _ => id⟩
  | dir =>
      refine always_effect_attempt ((gives_true _).bind fun entries _ => ?_)
      exact gives_pure (.refl s)
  | createCart path => exact always_effect_attempt (gives_follows_createCart path)
  | useCart path => exact always_effect_attempt (gives_follows_useCart path)
  | saveCart =>
      refine always_effect_onCart fun cart => ?_
      refine (Cart.always_save _ cart).bind fun saved hstays => ?_
      exact always_pure hstays
  | closeCart =>
      simp only [perform]
      split
      · exact always_pure (effect_refl _ s)
      · refine always_effect_ok ?_ _
        exact ⟨fun _ => .refl _, id, fun _ _ => by rintro _ ⟨⟩⟩
  | copy kind source name =>
      refine always_effect_onCart fun cart => ?_
      refine (Cart.always_copy kind _ name cart).bind fun copied hstays => ?_
      exact always_pure hstays
  | verbose on =>
      refine always_effect_ok ?_ _
      exact ⟨fun _ => .refl _, id, fun _ => id⟩
  | optimize pass =>
      cases pass with
      | none => exact always_pure (effect_refl _ s)
      | some pass =>
          refine always_effect_ok ?_ _
          exact ⟨fun _ => .refl _, id, fun _ => id⟩
  | unknown name => exact always_pure (effect_refl _ s)

end Session

namespace Shell

variable {R W σ : Type} [NumberSystem R] {storage : Storage (StateM σ)} {text : String}
  {shell shell' : Shell R W}

/-- What a line does: the session is kept unless the line is answered with an output at once. -/
structure Effect (storage : Storage (StateM σ)) (text : String) (shell : Shell R W) (turn : Turn)
    (shell' : Shell R W) : Prop where
  follows : shell.session.Follows storage text shell'.session
  keeps : (∀ output, turn ≠ .done (.ok output)) → shell.session.Keeps shell'.session

omit [NumberSystem R] in
theorem effect_of_eq (h : shell'.session = shell.session) (turn : Turn) :
    shell.Effect storage text turn shell' := by
  constructor
  · rw [h]
    exact .refl _
  · intro _
    rw [h]
    exact .refl _

omit [NumberSystem R] in
theorem effect_of_follows (h : shell.session.Follows storage text shell'.session)
    (output : String) : shell.Effect storage text (.done (.ok output)) shell' :=
  ⟨h, fun hturn => absurd rfl (hturn output)⟩

omit [NumberSystem R] in
theorem Effect.of_stopAuto {turn : Turn}
    (h : Effect storage text { shell with session := shell.session.stopAuto } turn shell') :
    shell.Effect storage text turn shell' :=
  ⟨h.follows.of_stopAuto, fun hturn => (h.keeps hturn).of_stopAuto⟩

theorem always_effect_perform (text : String) (command : Command) :
    Always (shell.perform storage command) fun result =>
      shell.Effect storage text result.1 result.2 := by
  unfold perform
  split
  · exact always_pure (effect_of_eq (session_run shell) _)
  · refine always_pure (effect_of_eq ?_ _)
    rfl
  · refine (Session.always_effect_perform text _ _ _).bind fun result heffect => ?_
    obtain ⟨reply, session⟩ := result
    cases reply with
    | ok output => exact always_pure (effect_of_follows heffect.follows output)
    | error e => exact always_pure ⟨heffect.follows, fun _ => heffect.keeps e rfl⟩

/-- What a typed line makes of a session, whatever the storage makes of it. -/
theorem always_effect_takeLine (text : String) :
    Always (shell.takeLine storage text) fun result =>
      shell.Effect storage text result.1 result.2 := by
  unfold takeLine
  dsimp only
  split
  · refine always_pure (Effect.of_stopAuto (effect_of_eq ?_ _))
    rfl
  · rename_i number content hinput
    split
    · rename_i henter
      have hcontent := Input.suffix_of_numbered hinput
      exact always_pure (effect_of_follows (Session.follows_enterNumbered hcontent henter) _)
    · exact always_pure (effect_of_eq rfl _)
  · split
    · have hcontent := Input.suffix_trimmed text
      exact always_pure (effect_of_follows (Session.follows_enterBare hcontent _) _)
    · split
      · refine always_pure (Effect.of_stopAuto (effect_of_eq ?_ _))
        rfl
      · exact fun t => (always_effect_perform text _ t).of_stopAuto

/-- What a new session satisfies and every typed line preserves holds in every shell. -/
theorem Reached.session_induction {permitted : String → Prop} {P : Session → Prop}
    (hnew : ∀ config, P (.new config))
    (hline : ∀ text s s', permitted text → s.Follows storage text s' → P s → P s')
    (h : shell.Reached storage permitted) : P shell.session := by
  induction h with
  | new config sinks world more => exact hnew config
  | takeLine h hpermitted s ih =>
      exact hline _ _ _ hpermitted (always_effect_takeLine _ s).follows ih
  | finish h fuel ih =>
      rw [session_finish]
      exact ih
  | wait h fuel ih => exact ih
  | advance h fuel ih => exact ih
  | requestStop h ih => exact ih
  | report h f ih => exact ih

end Shell

namespace Session

variable {σ : Type} {storage : Storage (StateM σ)} {text : String} {s s' : Session}

/-- A session that can be saved, apart from the lengths of its lines. -/
structure IsSound (s : Session) : Prop where
  listing : s.listing.IsStored
  auto : s.auto.IsSound
  cart : s.HasProperCart

theorem isSound_new (config : Config) : (new config).IsSound where
  listing := Listing.isStored_empty
  auto := by rintro ⟨⟩
  cart := by rintro _ ⟨⟩

theorem Follows.isSound (h : s.Follows storage text s') (hclock : storage.TellsTime)
    (hbreak : HasNoBreak text) (hsound : s.IsSound) : s'.IsSound where
  listing := (h.listing hsound.auto).isStored hbreak hsound.listing
  auto := h.auto hsound.auto
  cart := h.cart hclock hsound.cart

end Session

/-- Lines without line feeds lead to nothing but sound sessions. -/
theorem Shell.Reached.isSound {R W σ : Type} [NumberSystem R] {storage : Storage (StateM σ)}
    {shell : Shell R W} (hclock : storage.TellsTime) (h : shell.Reached storage HasNoBreak) :
    shell.session.IsSound :=
  h.session_induction Session.isSound_new fun _ _ _ hbreak hfollows hsound =>
    hfollows.isSound hclock hbreak hsound

end LineBasic
