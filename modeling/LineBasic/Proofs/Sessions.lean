import LineBasic.Shell
import LineBasic.Proofs.ManifestText

namespace LineBasic

open Text

section Operations

variable {σ α β : Type}

/-- In whatever state an operation starts, its result satisfies a condition. -/
def Always (operation : StateM σ α) (P : α → Prop) : Prop :=
  ∀ s, P (operation.run s).1

theorem always_true (operation : StateM σ α) : Always operation fun _ => True :=
  fun _ => trivial

theorem always_pure {P : α → Prop} {a : α} (h : P a) : Always (pure a : StateM σ α) P :=
  fun _ => h

theorem Always.bind {operation : StateM σ α} {next : α → StateM σ β} {P : α → Prop} {Q : β → Prop}
    (h : Always operation P) (hnext : ∀ a, P a → Always (next a) Q) :
    Always (operation >>= next) Q := by
  intro s
  exact hnext _ (h s) (operation.run s).2

/-- In whatever state an operation starts, its result satisfies a condition, unless it fails. -/
def Gives (operation : ExceptT Error (StateM σ) α) (P : α → Prop) : Prop :=
  Always operation.run fun result => ∀ a, result = .ok a → P a

theorem gives_true (operation : ExceptT Error (StateM σ) α) : Gives operation fun _ => True :=
  fun _ _ _ => trivial

theorem gives_pure {P : α → Prop} {a : α} (h : P a) :
    Gives (pure a : ExceptT Error (StateM σ) α) P := by
  rintro s _ ⟨⟩
  exact h

theorem gives_throw {P : α → Prop} (e : Error) :
    Gives (throw e : ExceptT Error (StateM σ) α) P := by
  rintro s a ⟨⟩

theorem gives_mk {P : α → Prop} {result : Except Error α} (h : ∀ a, result = .ok a → P a) :
    Gives (ExceptT.mk (return result) : ExceptT Error (StateM σ) α) P :=
  fun _ => h

theorem gives_lift {P : α → Prop} {operation : StateM σ α} (h : Always operation P) :
    Gives (liftM operation : ExceptT Error (StateM σ) α) P := by
  rintro s _ ⟨⟩
  exact h s

theorem Gives.bind {operation : ExceptT Error (StateM σ) α}
    {next : α → ExceptT Error (StateM σ) β} {P : α → Prop} {Q : β → Prop}
    (h : Gives operation P) (hnext : ∀ a, P a → Gives (next a) Q) :
    Gives (operation >>= next) Q := by
  show Always (operation.run >>= ExceptT.bindCont next) _
  refine Always.bind h fun result hresult => ?_
  cases result with
  | ok a => exact hnext a (hresult a rfl)
  | error e => exact gives_throw e

end Operations

namespace Storage

variable {σ : Type}

/-- The clock of a storage gives times that can be written. -/
def TellsTime (storage : Storage (StateM σ)) : Prop :=
  Always storage.now Timestamp.IsProper

theorem always_now (storage : Storage (StateM σ)) :
    Always storage.now fun time => storage.TellsTime → time.IsProper :=
  fun s hclock => hclock s

end Storage

namespace Cart

variable {σ : Type} {storage : Storage (StateM σ)}

/-- What an operation leaves of a cart: its directory, and a manifest that can be written if that was so before. -/
structure Stays (storage : Storage (StateM σ)) (cart cart' : Cart) : Prop where
  root : cart'.root = cart.root
  manifest : storage.TellsTime → cart.manifest.IsProper → cart'.manifest.IsProper

theorem Stays.refl (cart : Cart) : cart.Stays storage cart :=
  ⟨rfl, fun _ => id⟩

theorem gives_create (root : String) :
    Gives (create storage root) fun cart => storage.TellsTime → cart.manifest.IsProper := by
  unfold create
  refine (gives_true _).bind fun found _ => ?_
  dsimp only
  by_cases hfound : found
  · rw [if_pos hfound]
    exact (gives_throw (P := fun _ => False) _).bind fun _ h => h.elim
  · rw [if_neg hfound]
    split
    · exact gives_throw _
    · refine (gives_true _).bind fun _ _ => ?_
      refine (gives_true _).bind fun _ _ => ?_
      refine (gives_true _).bind fun _ _ => ?_
      refine (gives_lift storage.always_now).bind fun created hcreated => ?_
      refine (gives_true _).bind fun _ _ => ?_
      exact gives_pure fun hclock => ⟨hcreated hclock, by simp⟩

theorem gives_open (root : String) :
    Gives (Cart.open storage root) fun cart => cart.manifest.IsProper := by
  unfold Cart.open
  refine (gives_true _).bind fun bytes _ => ?_
  split
  · rename_i manifest hread
    exact gives_pure (Manifest.isProper_of_read? hread)
  · exact gives_throw _

theorem always_save (program : String) (cart : Cart) :
    Always (cart.save storage program) fun saved => cart.Stays storage saved.2 := by
  unfold save
  refine (always_true _).bind fun result _ => ?_
  cases result with
  | error e => exact always_pure (.refl cart)
  | ok assets =>
      refine storage.always_now.bind fun saved hsaved => ?_
      refine (always_true _).bind fun result _ => ?_
      refine always_pure ⟨rfl, fun hclock hmanifest => ⟨hmanifest.created, ?_⟩⟩
      rintro _ ⟨⟩
      exact hsaved hclock

theorem always_copy (kind : AssetKind) (source name : String) (cart : Cart) :
    Always (cart.copy storage kind source name) fun copied => cart.Stays storage copied.2 := by
  unfold copy
  refine (always_true _).bind fun result _ => ?_
  cases result with
  | error e => exact always_pure (.refl cart)
  | ok asset =>
      refine (always_true _).bind fun result _ => ?_
      cases result <;> exact always_pure ⟨rfl, fun _ hmanifest => ⟨hmanifest.created, hmanifest.saved⟩⟩

end Cart

namespace AutoCursor

/-- While the cursor is active, the number that it gives is permitted. -/
def IsSound (a : AutoCursor) : Prop :=
  a.active → a.next ≤ maxLineNumber

theorem isSound_stop (a : AutoCursor) : a.stop.IsSound := by
  rintro ⟨⟩

theorem isSound_start (next : LineNumber) (increment : Nat) : (start next increment).IsSound := by
  intro hactive
  simp only [start, Bool.and_eq_true, decide_eq_true_eq] at hactive
  exact hactive.2

theorem IsSound.follow {a : AutoCursor} (h : a.IsSound) (number : LineNumber) :
    (a.follow number).IsSound := by
  unfold AutoCursor.follow
  split
  · split
    · rename_i hle
      exact fun _ => hle
    · exact a.isSound_stop
  · exact h

theorem IsSound.of_take {a auto : AutoCursor} (h : a.IsSound) {number : LineNumber}
    (htake : a.take = some (number, auto)) : number ≤ maxLineNumber ∧ auto.IsSound := by
  unfold take peek at htake
  split at htake
  · rename_i hactive
    cases htake
    exact ⟨h hactive, h.follow _⟩
  · cases htake

end AutoCursor

namespace Input

theorem trim_suffix {c : Char} {cs : List Char} (h : c ∈ trim cs) : c ∈ cs :=
  (List.dropWhile_sublist isSpace).mem (mem_of_mem_trimRight h)

/-- A part of a typed line from somewhere to its end does not end in a blank. -/
theorem endsInInk_of_suffix {text : String} {cs : List Char} (h : cs <:+ trim text.toList) :
    EndsInInk cs :=
  (endsInInk_trimRight _).suffix h

theorem hasNoBreak_of_suffix {text content : String} (hbreak : HasNoBreak text)
    (h : content.toList <:+ trim text.toList) : HasNoBreak content :=
  fun hmem => hbreak (trim_suffix (h.mem hmem))

theorem trim_head {c : Char} {text cs : List Char} (h : trim text = c :: cs) : isSpace c = false := by
  obtain ⟨back, -, hback⟩ := exists_trimRight_append (trimLeft text)
  have hhead := List.head?_dropWhile_not isSpace text
  rw [trim] at h
  rw [← trimLeft, ← hback, h] at hhead
  exact hhead

/-- Between the blanks at its ends, a text is a number and a rest that is nothing or starts with a blank. -/
structure IsNumbered (cs digits rest : List Char) : Prop where
  trim_eq : trim cs = digits ++ rest
  digits_ne : digits ≠ []
  digits : ∀ c ∈ digits, isDigit c
  rest : ∀ c, rest.head? = some c → isSpace c

theorem saturated_eq {digits : List Char} (hne : digits ≠ []) (h : ∀ c ∈ digits, isDigit c) :
    saturated digits = min (value digits) maxWord32 := by
  unfold saturated readDigits?
  rw [if_neg (by simpa [hne] using h)]
  split
  · rename_i hle
    exact (Nat.min_eq_left hle).symm
  · rename_i hlarge
    exact (Nat.min_eq_right (Nat.le_of_not_le hlarge)).symm

theorem IsNumbered.classify_eq {text : String} {digits rest : List Char}
    (h : IsNumbered text.toList digits rest) :
    classify text =
      .numbered (min (value digits) maxWord32) (String.ofList (Line.dropSeparator rest)) := by
  have hink : ∀ c ∈ digits, isInk c := by
    intro c hc
    rw [isInk, not_isSpace_of_isDigit (h.digits c hc)]
    rfl
  obtain ⟨htake, hdrop⟩ := takeWhile_span hink fun c hc => by
    rw [isInk, h.rest c hc]
    rfl
  obtain ⟨c, cs, hcons⟩ := List.exists_cons_of_ne_nil h.digits_ne
  have hhead : (digits ++ rest).head? ≠ some '#' := by
    rw [hcons]
    rintro ⟨⟩
    exact absurd (h.digits '#' (hcons ▸ List.mem_cons_self)) (by decide)
  have hempty : (digits ++ rest).isEmpty = false := by
    rw [hcons]
    rfl
  unfold classify
  simp only [h.trim_eq, htake, hdrop, hempty, saturated_eq h.digits_ne h.digits,
    List.all_eq_true.mpr h.digits, Bool.false_or, beq_iff_eq, hhead, if_false, if_true]

/-- A text that is taken for a numbered line starts with a number. -/
theorem isNumbered_of_classify {text content : String} {number : LineNumber}
    (h : classify text = .numbered number content) :
    ∃ digits rest, IsNumbered text.toList digits rest ∧
      number = min (value digits) maxWord32 ∧ content.toList = Line.dropSeparator rest := by
  unfold classify at h
  dsimp only at h
  split at h
  · cases h
  · rename_i hempty
    split at h
    · rename_i hdigits
      cases h
      obtain ⟨c, cs, hcons⟩ : ∃ c cs, trim text.toList = c :: cs :=
        List.exists_cons_of_ne_nil fun hnil => hempty (by rw [hnil]; rfl)
      have hne : (trim text.toList).takeWhile isInk ≠ [] := by
        rw [hcons, List.takeWhile_cons_of_pos (by simp [isInk, trim_head hcons])]
        exact List.cons_ne_nil _ _
      have hdigits := List.all_eq_true.mp hdigits
      refine ⟨_, (trim text.toList).dropWhile isInk, ⟨?_, hne, hdigits, fun c hc => ?_⟩,
        saturated_eq hne hdigits, String.toList_ofList⟩
      · exact (List.takeWhile_append_dropWhile).symm
      · have hrest := List.head?_dropWhile_not isInk (trim text.toList)
        rw [hc] at hrest
        simpa [isInk] using hrest
    · cases h

/-- The content of a numbered line is the end of the line. -/
theorem suffix_of_numbered {text content : String} {number : LineNumber}
    (h : classify text = .numbered number content) :
    content.toList <:+ trim text.toList := by
  obtain ⟨digits, rest, hnumbered, -, hcontent⟩ := isNumbered_of_classify h
  rw [hcontent, hnumbered.trim_eq]
  exact (Line.dropSeparator_suffix rest).trans (List.suffix_append digits rest)

/-- A line is typed as it is written, if its number can be told from others and its content ends in no blank. -/
theorem classify_text {l : Line} (hnumber : l.number ≤ maxWord32)
    (hink : EndsInInk l.content.toList) : classify l.text = .numbered l.number l.content := by
  have hnumbered : IsNumbered l.text.toList (Nat.toDigits 10 l.number) l.tail := by
    have hdigits : ∀ c ∈ Nat.toDigits 10 l.number, isDigit c :=
      fun c hc => isDigit_of_mem_toDigits hc
    refine ⟨?_, Nat.toDigits_ne_nil, hdigits, l.head?_tail_blank⟩
    have htext := Line.endsInInk_text hink
    rw [Line.toList_text] at htext ⊢
    rw [trim, trimLeft_digits hdigits Nat.toDigits_ne_nil, htext.trimRight_eq]
  rw [hnumbered.classify_eq, value_toDigits, Nat.min_eq_left hnumber, Line.dropSeparator_tail,
    String.ofList_toList]

theorem suffix_trimmed (text : String) : (trimmed text).toList <:+ trim text.toList := by
  have htrimmed : (trimmed text).toList = trim text.toList := String.toList_ofList
  exact htrimmed ▸ List.suffix_rfl

end Input

namespace Shell

variable {R W σ : Type} [NumberSystem R] {storage : Storage (StateM σ)} {shell : Shell R W}

/-- The shells that permitted lines lead to. A line is taken in any state of the storage, and between two lines a running
program may go on, be waited for or be stopped, and what it left in its world may be taken. -/
inductive Reached (storage : Storage (StateM σ)) (permitted : String → Prop) : Shell R W → Prop
  | new (config : Config) (sinks : Sinks W) (world : W) (more : List (NativeSet R (Signals W))) :
      Reached storage permitted (.new config sinks world more)
  | takeLine {shell : Shell R W} (h : Reached storage permitted shell) {text : String}
      (hpermitted : permitted text) (s : σ) :
      Reached storage permitted ((shell.takeLine storage text).run s).1.2
  | finish {shell : Shell R W} (h : Reached storage permitted shell) (fuel : Nat) :
      Reached storage permitted (shell.finish fuel).2
  | wait {shell : Shell R W} (h : Reached storage permitted shell) (fuel : Nat) :
      Reached storage permitted (shell.wait fuel).2
  | advance {shell : Shell R W} (h : Reached storage permitted shell) (fuel : Nat) :
      Reached storage permitted { shell with controller := shell.controller.advance fuel }
  | requestStop {shell : Shell R W} (h : Reached storage permitted shell) :
      Reached storage permitted { shell with controller := shell.controller.requestStop }
  | report {shell : Shell R W} (h : Reached storage permitted shell) (f : W → W) :
      Reached storage permitted (shell.report f)

theorem session_start (script : Script) (shell : Shell R W) :
    (shell.start script).2.session = shell.session := by
  have hreported : (if shell.session.verbose then shell.report (shell.sinks.write script.text)
      else shell).session = shell.session := by
    split <;> rfl
  unfold start
  dsimp only
  split
  · exact hreported
  · exact hreported

theorem session_run (shell : Shell R W) : shell.run.2.session = shell.session := by
  unfold run
  dsimp only
  split
  · rfl
  · rw [session_start]

theorem session_finish (fuel : Nat) (shell : Shell R W) :
    (shell.finish fuel).2.session = shell.session := by
  unfold finish
  split <;> rfl

end Shell

end LineBasic
