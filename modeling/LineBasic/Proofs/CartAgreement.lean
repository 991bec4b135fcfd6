import LineBasic.Proofs.Saving

namespace LineBasic

open Text

/-- What a storage has done with a file. -/
inductive Note where
  | read (file : String) (bytes : ByteArray)
  | written (file : String) (bytes : ByteArray)
  /-- A write that failed. -/
  | refused (file : String) (bytes : ByteArray)
  /-- Another file was copied over this one. -/
  | copied (file : String)

namespace Note

variable {file : String} {notes : List Note}

/-- The bytes that a file was last read or written with. The latest note stands first. -/
def known? (file : String) : List Note → Option ByteArray
  | [] => none
  | read name bytes :: notes | written name bytes :: notes =>
      if name = file then some bytes else known? file notes
  | copied name :: notes => if name = file then none else known? file notes
  | refused _ _ :: notes => known? file notes

/-- The bytes that a file was not written with since it was last written. -/
def refusedSince (file : String) : List Note → List ByteArray
  | [] => []
  | refused name bytes :: notes =>
      if name = file then bytes :: refusedSince file notes else refusedSince file notes
  | written name _ :: notes => if name = file then [] else refusedSince file notes
  | read _ _ :: notes | copied _ :: notes => refusedSince file notes

/-- Nobody else changes a file: it is read with the bytes that it was last read or written with. -/
def isUndisturbed (file : String) : List Note → Bool
  | [] => true
  | read name bytes :: notes =>
      (name != file || (known? file notes).all (· = bytes)) && isUndisturbed file notes
  | written _ _ :: notes | refused _ _ :: notes | copied _ :: notes => isUndisturbed file notes

/-- A note of something that changes no more than other files. -/
def Spares (file : String) : Note → Prop
  | read _ _ | refused _ _ => True
  | written name _ | copied name => name ≠ file

theorem isUndisturbed_of_cons {note : Note} (h : isUndisturbed file (note :: notes)) :
    isUndisturbed file notes := by
  cases note with
  | read name bytes => exact (Bool.and_eq_true_iff.mp h).2
  | written name bytes => exact h
  | refused name bytes => exact h
  | copied name => exact h

theorem Spares.known?_cons {note : Note} (h : note.Spares file)
    (hundisturbed : isUndisturbed file (note :: notes)) {bytes : ByteArray}
    (hknown : known? file notes = some bytes) : known? file (note :: notes) = some bytes := by
  cases note with
  | read name found =>
      have hagrees := (Bool.and_eq_true_iff.mp hundisturbed).1
      rw [known?]
      split
      · rename_i hname
        subst hname
        rw [hknown, bne_self_eq_false, Bool.false_or, Option.all_some, decide_eq_true_eq] at hagrees
        rw [hagrees]
      · exact hknown
  | written name found => exact (if_neg h).trans hknown
  | refused name found => exact hknown
  | copied name => exact (if_neg h).trans hknown

theorem Spares.mem_refusedSince_cons {note : Note} (h : note.Spares file) {bytes : ByteArray}
    (hmem : bytes ∈ refusedSince file notes) : bytes ∈ refusedSince file (note :: notes) := by
  cases note with
  | read name found => exact hmem
  | written name found =>
      rw [refusedSince, if_neg h]
      exact hmem
  | refused name found =>
      rw [refusedSince]
      split
      · exact List.mem_cons_of_mem _ hmem
      · exact hmem
  | copied name => exact hmem

end Note

open Note

section Operations

variable {σ α β : Type}

def noted (note : α → List Note) (operation : StateM σ α) : StateM (σ × List Note) α := do
  let (t, notes) ← get
  let (a, t) := operation.run t
  set (t, note a ++ notes)
  return a

def Storage.noting (storage : Storage (StateM σ)) : Storage (StateM (σ × List Note)) where
  read file := ExceptT.mk <| noted
    (fun
      | .ok bytes => [.read file bytes]
      | .error _ => [])
    (storage.read file).run
  write file bytes := ExceptT.mk <| noted
    (fun
      | .ok _ => [.written file bytes]
      | .error _ => [.refused file bytes])
    (storage.write file bytes).run
  list place := ExceptT.mk <| noted (fun _ => []) (storage.list place).run
  copy source file := ExceptT.mk <| noted
    (fun
      | .ok _ => [.copied file]
      | .error _ => [])
    (storage.copy source file).run
  createDirectory place := ExceptT.mk <| noted (fun _ => []) (storage.createDirectory place).run
  exists? place := noted (fun _ => []) (storage.exists? place)
  now := noted (fun _ => []) storage.now
  complaint := storage.complaint

theorem tellsTime_noting {storage : Storage (StateM σ)} (h : storage.TellsTime) :
    storage.noting.TellsTime :=
  fun s => h s.1

/-- If the notes satisfy `P`, then an operation leads to a result and to notes that satisfy `Q`. -/
def Ensures (P : List Note → Prop) (operation : StateM (σ × List Note) α)
    (Q : α → List Note → Prop) : Prop :=
  ∀ t notes, P notes → Q (operation.run (t, notes)).1 (operation.run (t, notes)).2.2

/-- If the notes satisfy `P`, then they satisfy `Q` when an operation succeeds, and `E` when it fails. -/
def Tries (P : List Note → Prop) (operation : ExceptT Error (StateM (σ × List Note)) α)
    (Q : α → List Note → Prop) (E : List Note → Prop) : Prop :=
  Ensures P operation.run fun result notes =>
    match result with
    | .ok a => Q a notes
    | .error _ => E notes

variable {P E : List Note → Prop} {Q : α → List Note → Prop} {Q' : β → List Note → Prop}

theorem ensures_pure {a : α} (h : ∀ notes, P notes → Q a notes) :
    Ensures P (pure a : StateM (σ × List Note) α) Q :=
  fun _ notes hnotes => h notes hnotes

theorem Ensures.bind {operation : StateM (σ × List Note) α} {next : α → StateM (σ × List Note) β}
    (h : Ensures P operation Q) (hnext : ∀ a, Ensures (Q a) (next a) Q') :
    Ensures P (operation >>= next) Q' := by
  intro t notes hnotes
  exact hnext _ _ _ (h t notes hnotes)

theorem ensures_noted {note : α → List Note} {operation : StateM σ α}
    (h : ∀ a notes, P notes → Q a (note a ++ notes)) : Ensures P (noted note operation) Q :=
  fun t notes hnotes => h (operation.run t).1 notes hnotes

theorem Tries.imp_error {operation : ExceptT Error (StateM (σ × List Note)) α}
    {E' : List Note → Prop} (h : Tries P operation Q E) (himp : ∀ notes, E notes → E' notes) :
    Tries P operation Q E' := by
  intro t notes hnotes
  have hafter := h t notes hnotes
  dsimp only at hafter ⊢
  split at hafter
  · exact hafter
  · exact himp _ hafter

theorem tries_noted {note : Except Error α → List Note}
    {operation : ExceptT Error (StateM σ) α}
    (hok : ∀ a notes, P notes → Q a (note (.ok a) ++ notes))
    (herror : ∀ e notes, P notes → E (note (.error e) ++ notes)) :
    Tries P (ExceptT.mk (noted note operation.run)) Q E := by
  refine ensures_noted fun result notes hnotes => ?_
  cases result with
  | ok a => exact hok a notes hnotes
  | error e => exact herror e notes hnotes

theorem Tries.ensures {operation : ExceptT Error (StateM (σ × List Note)) α} {Q : List Note → Prop}
    (h : Tries P operation (fun _ => Q) Q) : Ensures P operation.run fun _ => Q := by
  intro t notes hnotes
  have hafter := h t notes hnotes
  dsimp only at hafter
  split at hafter <;> exact hafter

theorem tries_pure {a : α} (h : ∀ notes, P notes → Q a notes) :
    Tries P (pure a : ExceptT Error (StateM (σ × List Note)) α) Q E :=
  fun _ notes hnotes => h notes hnotes

theorem tries_mk {result : Except Error α} (hok : ∀ a notes, P notes → Q a notes)
    (herror : ∀ notes, P notes → E notes) :
    Tries P (ExceptT.mk (return result) : ExceptT Error (StateM (σ × List Note)) α) Q E := by
  cases result with
  | ok a => exact tries_pure (hok a)
  | error e => exact fun _ notes hnotes => herror notes hnotes

theorem tries_throw {e : Error} (h : ∀ notes, P notes → E notes) :
    Tries P (throw e : ExceptT Error (StateM (σ × List Note)) α) Q E :=
  fun _ notes hnotes => h notes hnotes

theorem tries_lift {operation : StateM (σ × List Note) α} (h : Ensures P operation Q) :
    Tries P (liftM operation : ExceptT Error (StateM (σ × List Note)) α) Q E :=
  fun t notes hnotes => h t notes hnotes

theorem Tries.bind {operation : ExceptT Error (StateM (σ × List Note)) α}
    {next : α → ExceptT Error (StateM (σ × List Note)) β} (h : Tries P operation Q E)
    (hnext : ∀ a, Tries (Q a) (next a) Q' E) : Tries P (operation >>= next) Q' E := by
  show Ensures P (operation.run >>= ExceptT.bindCont next) _
  refine Ensures.bind h fun result => ?_
  cases result with
  | ok a => exact hnext a
  | error e => exact tries_throw fun _ => id

theorem tries_mapM {f : α → ExceptT Error (StateM (σ × List Note)) β}
    (hf : ∀ a, Tries P (f a) (fun _ => P) P) (as : List α) :
    Tries P (as.mapM f) (fun _ => P) P := by
  induction as with
  | nil =>
      rw [List.mapM_nil]
      exact tries_pure fun _ => id
  | cons a as ih =>
      rw [List.mapM_cons]
      refine (hf a).bind fun b => ?_
      refine ih.bind fun bs => ?_
      exact tries_pure fun _ => id

theorem tries_forM {f : α → ExceptT Error (StateM (σ × List Note)) PUnit}
    (hf : ∀ a, Tries P (f a) (fun _ => P) P) (as : List α) :
    Tries P (as.forM f) (fun _ => P) P := by
  induction as with
  | nil => exact tries_pure fun _ => id
  | cons a as ih => exact (hf a).bind fun _ => ih

/-- A note may be taken without harm to what the notes satisfy. -/
def Accepts (P : List Note → Prop) (note : Note) : Prop :=
  ∀ notes, P notes → P (note :: notes)

variable {storage : Storage (StateM σ)} {file : String}

theorem ensures_exists? (file : String) : Ensures P (storage.noting.exists? file) fun _ => P :=
  fun _ _ hnotes => hnotes

theorem ensures_now : Ensures P storage.noting.now fun _ => P :=
  fun _ _ hnotes => hnotes

theorem tries_list (place : String) : Tries P (storage.noting.list place) (fun _ => P) P := by
  unfold Storage.noting
  exact tries_noted (fun _ _ => id) fun _ _ => id

theorem tries_createDirectory (place : String) :
    Tries P (storage.noting.createDirectory place) (fun _ => P) P := by
  unfold Storage.noting
  exact tries_noted (fun _ _ => id) fun _ _ => id

theorem tries_copy (source : String) (h : Accepts P (.copied file)) :
    Tries P (storage.noting.copy source file) (fun _ => P) P := by
  unfold Storage.noting
  exact tries_noted (fun _ => h) fun _ _ => id

theorem tries_read (h : ∀ bytes, Accepts P (.read file bytes)) :
    Tries P (storage.noting.read file) (fun bytes notes => P notes ∧ known? file notes = some bytes)
      P := by
  unfold Storage.noting
  exact tries_noted (Q := fun bytes notes => P notes ∧ known? file notes = some bytes)
    (fun bytes notes hnotes => ⟨h bytes notes hnotes, if_pos rfl⟩) fun _ _ => id

theorem tries_write {bytes : ByteArray} {Q : List Note → Prop}
    (hwritten : ∀ notes, P notes → Q (.written file bytes :: notes))
    (hrefused : ∀ notes, P notes → E (.refused file bytes :: notes)) :
    Tries P (storage.noting.write file bytes) (fun _ => Q) E := by
  unfold Storage.noting
  exact tries_noted (fun _ => hwritten) fun _ => hrefused

end Operations

namespace Path

theorem exists_join_eq (base : String) :
    ∃ front, ∀ name, isAbsolute name = false → join base name = front ++ name := by
  unfold join
  cases hlast : base.toList.getLast? with
  | none => exact ⟨base, fun name hname => if_neg (by simp [hname])⟩
  | some c =>
      by_cases hc : c = '/'
      · subst hc
        exact ⟨base, fun name hname => if_neg (by simp [hname])⟩
      · refine ⟨base ++ "/", fun name hname => ?_⟩
        rw [if_neg (by simp [hname])]
        split
        · rename_i h
          cases h
        · rename_i h
          cases h
          exact absurd rfl hc
        · rfl

end Path

namespace Cart

def manifestPlace (cart : Cart) : String :=
  place cart.root manifestFile

theorem programPlace_ne (root root' : String) : place root' programFile ≠ place root manifestFile := by
  obtain ⟨front, hfront⟩ := Path.exists_join_eq root
  obtain ⟨front', hfront'⟩ := Path.exists_join_eq root'
  intro heq
  have hlast : (place root' programFile).toList.getLast? = (place root manifestFile).toList.getLast? := by
    rw [heq]
  rw [place, place, hfront _ (by decide), hfront' _ (by decide)] at hlast
  simp [programFile, manifestFile] at hlast

theorem isAbsolute_of_isBadName {name : String} (h : isBadName name = false) :
    Path.isAbsolute name = false := by
  rw [isBadName, Bool.or_eq_false_iff, List.any_eq_false] at h
  rw [Path.isAbsolute, beq_eq_false_iff_ne]
  intro hhead
  exact h.2 '/' (List.mem_of_head? hhead) rfl

theorem assetPlace_ne (root : String) (kind : AssetKind) {name : String} (h : isBadName name = false) :
    Path.join (directory root kind) name ≠ place root manifestFile := by
  obtain ⟨front, hfront⟩ := Path.exists_join_eq root
  have hdirectory : directory root kind = front ++ kind.name := by
    exact hfront kind.name (by cases kind <;> decide)
  have hjoin : Path.join (directory root kind) name = front ++ kind.name ++ "/" ++ name := by
    rw [hdirectory, Path.join, isAbsolute_of_isBadName h]
    cases kind <;> simp [AssetKind.name]
  intro heq
  rw [hjoin, place, hfront manifestFile (by decide)] at heq
  have htail : (kind.name ++ "/" ++ name).toList = manifestFile.toList := by
    have hlists := congrArg String.toList heq
    simpa only [String.toList_append, List.append_assoc, List.append_cancel_left_eq] using hlists
  cases kind <;> simp [AssetKind.name, manifestFile] at htail

/-- Bytes hold a manifest: they are its text, or they are read as this manifest. -/
def Holds (bytes : ByteArray) (manifest : Manifest) : Prop :=
  bytes = manifest.text.toUTF8 ∨ Manifest.read? bytes = some manifest

/-- The manifest of a cart is the one in its file, as far as this is known, or it is one that was refused. -/
def Matches (cart : Cart) (notes : List Note) : Prop :=
  ∃ bytes, known? cart.manifestPlace notes = some bytes ∧
    (Holds bytes cart.manifest ∨ cart.manifest.text.toUTF8 ∈ refusedSince cart.manifestPlace notes)

/-- The cart, if there is one, matches its file as long as nobody else changes that. -/
def Tracks (cart? : Option Cart) (notes : List Note) : Prop :=
  ∀ cart, cart? = some cart → isUndisturbed cart.manifestPlace notes → cart.Matches notes

variable {cart? : Option Cart} {cart : Cart}

theorem accepts_tracks {note : Note}
    (h : ∀ cart, cart? = some cart → note.Spares cart.manifestPlace) : Accepts (Tracks cart?) note := by
  intro notes htracks cart hcart hundisturbed
  obtain ⟨bytes, hknown, hmatches⟩ := htracks cart hcart (isUndisturbed_of_cons hundisturbed)
  have hspares := h cart hcart
  exact ⟨bytes, hspares.known?_cons hundisturbed hknown, hmatches.imp_right hspares.mem_refusedSince_cons⟩

theorem accepts_read (file : String) (bytes : ByteArray) : Accepts (Tracks cart?) (.read file bytes) :=
  accepts_tracks fun _ _ => trivial

theorem tracks_written (notes : List Note) :
    Tracks (some cart) (.written cart.manifestPlace cart.manifest.text.toUTF8 :: notes) := by
  rintro _ ⟨⟩ _
  exact ⟨_, if_pos rfl, .inl (.inl rfl)⟩

/-- A cart that changes its manifest and cannot write it is one that was refused. -/
theorem Tracks.refused {notes : List Note} (h : Tracks (some cart) notes) (manifest : Manifest) :
    Tracks (some { cart with manifest })
      (.refused cart.manifestPlace manifest.text.toUTF8 :: notes) := by
  rintro _ ⟨⟩ hundisturbed
  obtain ⟨bytes, hknown, -⟩ := h cart rfl hundisturbed
  have hsince : refusedSince cart.manifestPlace
      (.refused cart.manifestPlace manifest.text.toUTF8 :: notes) =
        manifest.text.toUTF8 :: refusedSince cart.manifestPlace notes := if_pos rfl
  refine ⟨bytes, hknown, .inr ?_⟩
  show _ ∈ refusedSince cart.manifestPlace _
  rw [hsince]
  exact List.mem_cons_self

section Operations

variable {σ : Type} {storage : Storage (StateM σ)}

theorem ensures_writeManifest (manifest : Manifest) :
    Ensures (Tracks (some cart)) ({ cart with manifest }.writeManifest storage.noting).run fun _ =>
      Tracks (some { cart with manifest }) :=
  Tries.ensures (tries_write (fun notes _ => tracks_written notes) fun _ h => h.refused manifest)

theorem tries_create (root : String) :
    Tries (Tracks cart?) (create storage.noting root) (fun cart => Tracks (some cart))
      (Tracks cart?) := by
  have hprogram : Accepts (Tracks cart?) (.written (place root programFile) .empty) :=
    accepts_tracks fun cart _ => programPlace_ne cart.root root
  unfold create
  refine (tries_lift (ensures_exists? root)).bind fun found => ?_
  dsimp only
  by_cases hfound : found
  · rw [if_pos hfound]
    exact (tries_throw (Q := fun _ _ => False) fun _ => id).bind fun _ _ _ h => h.elim
  · rw [if_neg hfound]
    split
    · exact tries_throw fun _ => id
    · refine (tries_createDirectory root).bind fun _ => ?_
      refine (tries_forM (fun kind => tries_createDirectory _) _).bind fun _ => ?_
      refine (tries_write hprogram (accepts_tracks fun _ _ => trivial)).bind fun _ => ?_
      refine (tries_lift ensures_now).bind fun created => ?_
      refine (tries_write (fun notes _ => tracks_written notes) ?_).bind fun _ => tries_pure fun _ => id
      exact accepts_tracks fun _ _ => trivial

theorem tries_open (root : String) :
    Tries (Tracks cart?) (Cart.open storage.noting root)
      (fun cart notes => Tracks cart? notes ∧ Tracks (some cart) notes) (Tracks cart?) := by
  unfold Cart.open
  refine (tries_read (accepts_read _)).bind fun bytes => ?_
  split
  · rename_i manifest hread
    refine tries_pure ?_
    rintro notes ⟨htracks, hknown⟩
    refine ⟨htracks, ?_⟩
    rintro _ ⟨⟩ _
    exact ⟨bytes, hknown, .inl (.inr hread)⟩
  · exact tries_throw fun _ h => h.1

variable {P : List Note → Prop}

theorem tries_program? (hread : ∀ file bytes, Accepts P (.read file bytes)) (cart : Cart) :
    Tries P (cart.program? storage.noting) (fun _ => P) P := by
  unfold program?
  refine (tries_lift (ensures_exists? _)).bind fun found => ?_
  split
  · refine (tries_read (hread _)).bind fun bytes => ?_
    split
    · exact tries_pure fun _ h => h.1
    · exact tries_throw fun _ h => h.1
  · exact tries_pure fun _ => id

theorem tries_checksumOf (hread : ∀ file bytes, Accepts P (.read file bytes)) (file : String) :
    Tries P (checksumOf storage.noting file) (fun _ => P) P := by
  unfold checksumOf
  exact (tries_read (hread file)).bind fun bytes => tries_pure fun _ h => h.1

theorem tries_scan (hread : ∀ file bytes, Accepts P (.read file bytes)) (root : String)
    (kind : AssetKind) : Tries P (scan storage.noting root kind) (fun _ => P) P := by
  have hasset (e : Entry) : Tries P (assetOf storage.noting root kind e) (fun _ => P) P :=
    (tries_checksumOf hread _).bind fun checksum => tries_pure fun _ => id
  unfold scan
  refine (tries_lift (ensures_exists? _)).bind fun found => ?_
  split
  · exact (tries_list _).bind fun entries => tries_mapM hasset _
  · exact tries_pure fun _ => id

theorem tries_rescan (program : String) :
    Tries (Tracks (some cart)) (cart.rescan storage.noting program) (fun _ => Tracks (some cart))
      (Tracks (some cart)) := by
  have hprogram (bytes : ByteArray) :
      Accepts (Tracks (some cart)) (.written (place cart.root programFile) bytes) := by
    refine accepts_tracks ?_
    rintro _ ⟨⟩
    exact programPlace_ne _ _
  unfold rescan
  refine (tries_write (hprogram _) (accepts_tracks fun _ _ => trivial)).bind fun _ => ?_
  exact (tries_mapM (tries_scan accepts_read cart.root) _).bind fun found => tries_pure fun _ => id

theorem ensures_save (program : String) :
    Ensures (Tracks (some cart)) (cart.save storage.noting program) fun saved =>
      Tracks (some saved.2) := by
  unfold save
  refine Ensures.bind (tries_rescan program) fun result => ?_
  cases result with
  | error e => exact ensures_pure fun _ => id
  | ok assets =>
      refine ensures_now.bind fun saved => ?_
      exact (ensures_writeManifest _).bind fun result => ensures_pure fun _ => id

theorem tries_takeIn (kind : AssetKind) (source name : String) :
    Tries (Tracks (some cart)) (cart.takeIn storage.noting kind source name)
      (fun _ => Tracks (some cart)) (Tracks (some cart)) := by
  unfold takeIn
  dsimp only
  by_cases hname : isBadName name
  · rw [if_pos hname]
    exact (tries_throw (Q := fun _ _ => False) fun _ => id).bind fun _ _ _ h => h.elim
  · rw [if_neg hname]
    have hcopied : Accepts (Tracks (some cart))
        (.copied (Path.join (directory cart.root kind) name)) := by
      refine accepts_tracks ?_
      rintro _ ⟨⟩
      exact assetPlace_ne _ _ (Bool.not_eq_true _ ▸ hname)
    have hcopy : Tries (Tracks (some cart)) (do
        let file := Path.join (directory cart.root kind) name
        let _ ← storage.noting.copy source file
        return { kind, name, checksum := ← checksumOf storage.noting file })
        (fun _ : Asset => Tracks (some cart)) (Tracks (some cart)) := by
      refine (tries_copy source hcopied).bind fun size => ?_
      exact (tries_checksumOf accepts_read _).bind fun checksum => tries_pure fun _ => id
    refine (tries_lift (ensures_exists? _)).bind fun found => ?_
    split
    · exact (tries_createDirectory _).bind fun _ => hcopy
    · exact hcopy

theorem ensures_copy (kind : AssetKind) (source name : String) :
    Ensures (Tracks (some cart)) (cart.copy storage.noting kind source name) fun copied =>
      Tracks (some copied.2) := by
  unfold copy
  refine Ensures.bind (tries_takeIn kind source name) fun result => ?_
  cases result with
  | error e => exact ensures_pure fun _ => id
  | ok asset =>
      refine (ensures_writeManifest _).bind fun result => ?_
      cases result <;> exact ensures_pure fun _ => id

end Operations

end Cart

def Command.isOfCarts : Command → Bool
  | createCart _ | useCart _ | saveCart | closeCart | copy _ _ _ => true
  | _ => false

namespace Session

open Cart

variable {σ : Type} {storage : Storage (StateM σ)} {s s' : Session}

theorem ensures_attempt {operation : ExceptT Error (StateM (σ × List Note)) (String × Session)}
    (h : Tries (Tracks s.cart) operation (fun result => Tracks result.2.cart) (Tracks s.cart)) :
    Ensures (Tracks s.cart) (s.attempt operation) fun result => Tracks result.2.cart := by
  unfold attempt
  refine Ensures.bind h fun result => ?_
  cases result <;> exact ensures_pure fun _ => id

theorem ensures_onCart {operation : Cart → StateM (σ × List Note) (Except Error String × Cart)}
    (h : ∀ cart, Ensures (Tracks (some cart)) (operation cart) fun result => Tracks (some result.2)) :
    Ensures (Tracks s.cart) (s.onCart operation) fun result => Tracks result.2.cart := by
  unfold onCart
  split
  · exact ensures_pure fun _ => id
  · rename_i cart hcart
    rw [hcart]
    exact (h cart).bind fun result => ensures_pure fun _ => id

theorem tries_useCart (path : String) :
    Tries (Tracks s.cart) (s.useCart storage.noting path) (fun result => Tracks result.2.cart)
      (Tracks s.cart) := by
  unfold useCart
  refine (tries_open _).bind fun cart => ?_
  -- the cart that is read is not open yet, and the other one still is
  let P (notes : List Note) : Prop := Tracks s.cart notes ∧ Tracks (some cart) notes
  have hread (file : String) (bytes : ByteArray) : Accepts P (.read file bytes) := fun notes h =>
    ⟨accepts_read file bytes notes h.1, accepts_read file bytes notes h.2⟩
  refine ((tries_program? hread cart).imp_error fun _ h => h.1).bind fun program => ?_
  have hopens (listing : Listing) :
      Tries P (pure ("CART " ++ cart.manifest.name, { s with listing, cart := some cart }) :
          ExceptT Error (StateM (σ × List Note)) (String × Session))
        (fun result => Tracks result.2.cart) (Tracks s.cart) :=
    tries_pure fun _ h => h.2
  cases program with
  | none => exact (tries_pure (Q := fun _ => P) fun _ => id).bind hopens
  | some text => exact (tries_mk (Q := fun _ => P) (fun _ _ => id) fun _ h => h.1).bind hopens

theorem ensures_perform (config : Config) (isRunning : Bool) {command : Command}
    (h : command.isOfCarts) :
    Ensures (Tracks s.cart) (s.perform config isRunning storage.noting command) fun result =>
      Tracks result.2.cart := by
  cases command with
  | createCart path =>
      refine ensures_attempt ?_
      exact (tries_create _).bind fun cart => tries_pure fun _ => id
  | useCart path => exact ensures_attempt (tries_useCart path)
  | saveCart =>
      refine ensures_onCart fun cart => ?_
      exact (ensures_save _).bind fun saved => ensures_pure fun _ => id
  | copy kind source name =>
      refine ensures_onCart fun cart => ?_
      exact (ensures_copy kind _ name).bind fun copied => ensures_pure fun _ => id
  | closeCart =>
      simp only [perform]
      split
      · exact ensures_pure fun _ => id
      · refine ensures_pure fun _ _ cart hcart => ?_
        cases hcart
  | _ => cases h

/-- What leads from a new session to others: commands on carts, of which notes are taken, and whatever leaves the open cart
and the notes alone. -/
inductive Leads (storage : Storage (StateM σ)) : Session → σ × List Note → Prop where
  | new (config : Config) (t : σ) : Leads storage (.new config) (t, [])
  | perform {s : Session} {u : σ × List Note} (h : Leads storage s u) (config : Config)
      (isRunning : Bool) {command : Command} (hcommand : command.isOfCarts) :
      Leads storage ((s.perform config isRunning storage.noting command).run u).1.2
        ((s.perform config isRunning storage.noting command).run u).2
  | outside {s s' : Session} {u u' : σ × List Note} (h : Leads storage s u)
      (hcart : s'.cart = s.cart) (hnotes : u'.2 = u.2) : Leads storage s' u'

variable {u : σ × List Note}

theorem Leads.tracks (h : Leads storage s u) : Tracks s.cart u.2 := by
  induction h with
  | new config t => exact fun cart hcart => nomatch hcart
  | perform h config isRunning hcommand ih =>
      exact ensures_perform config isRunning hcommand _ _ ih
  | outside h hcart hnotes ih => rwa [hcart, hnotes]

theorem Leads.hasProperCart (hclock : storage.TellsTime) (h : Leads storage s u) :
    s.HasProperCart := by
  induction h with
  | new config t => exact fun cart hcart => nomatch hcart
  | @perform _ u _ config isRunning command _ ih =>
      exact (always_effect_perform "" config isRunning command u).follows.cart
        (tellsTime_noting hclock) ih
  | outside h hcart hnotes ih =>
      intro cart hopen
      exact ih cart (hcart ▸ hopen)

end Session

open Cart Session in
/-- Memory and disk agree unless the disk refuses. Whatever commands on carts have led to, and whatever else has happened as
long as nobody else changed its file, the manifest of an open cart is the one that this file was last read or written
with; or it is one that the file was to be written with since it was last written, and was not. -/
theorem cart_agrees_unless_refused {σ : Type} {storage : Storage (StateM σ)} {s : Session}
    {u : σ × List Note} (h : s.Leads storage u) {cart : Cart} (hopen : s.cart = some cart)
    (hundisturbed : isUndisturbed cart.manifestPlace u.2) :
    ∃ bytes, known? cart.manifestPlace u.2 = some bytes ∧
      (cart.manifest.text.toUTF8 ∈ refusedSince cart.manifestPlace u.2 ∨
        (bytes = cart.manifest.text.toUTF8 ∨ Manifest.read? bytes = some cart.manifest) ∧
          (storage.TellsTime → Manifest.read? bytes = some cart.manifest)) := by
  obtain ⟨bytes, hknown, hmatches⟩ := h.tracks cart hopen hundisturbed
  refine ⟨bytes, hknown, ?_⟩
  rcases hmatches with hholds | hrefused
  · refine .inr ⟨hholds, fun hclock => ?_⟩
    have hproper := h.hasProperCart hclock cart hopen
    rcases hholds with rfl | hread
    · exact hproper.read?_text
    · exact hread
  · exact .inl hrefused

/-- A disk that takes no file longer than `limit`. -/
def FileTree.limited (limit : Nat) : Storage (StateM FileTree) :=
  { timeless with
    write := fun file bytes =>
      if limit < bytes.size then throw (FileError.other "File too large (os error 27)").toError
      else timeless.write file bytes }

theorem tellsTime_limited (limit : Nat) : (FileTree.limited limit).TellsTime :=
  FileTree.tellsTime_timeless

/-- What making a cart leads to, with a file outside of it. -/
def madeCart (limit : Nat) : (Except Error String × Session) × FileTree × List Note :=
  ((Session.new {}).perform {} false (FileTree.limited limit).noting (.createCart "c")).run
    (FileTree.put (.startingAt []) ["t"] (.file "hi".toUTF8), [])

def filledCart (limit : Nat) : (Except Error String × Session) × FileTree × List Note :=
  ((madeCart limit).1.2.perform {} false (FileTree.limited limit).noting (.copy .data "t" "x")).run
    (madeCart limit).2

theorem leads_madeCart (limit : Nat) :
    (madeCart limit).1.2.Leads (FileTree.limited limit) (madeCart limit).2 := by
  unfold madeCart
  exact .perform (.new {} _) {} false (by rfl)

theorem leads_filledCart (limit : Nat) :
    (filledCart limit).1.2.Leads (FileTree.limited limit) (filledCart limit).2 := by
  unfold filledCart
  exact .perform (leads_madeCart limit) {} false (by rfl)

def cartWithFile : Cart where
  root := "./c"
  manifest := {
    name := "c"
    created := { seconds := 0 }
    assets := [{ kind := .data, name := "x", checksum := 3633523372 }] }

theorem cart_agrees_unless_refused_filled :
    (filledCart 1024).1.2.Leads (FileTree.limited 1024) (filledCart 1024).2 ∧
      (filledCart 1024).1.2.cart = some cartWithFile ∧
      isUndisturbed cartWithFile.manifestPlace (filledCart 1024).2.2 ∧
      ∃ bytes, known? cartWithFile.manifestPlace (filledCart 1024).2.2 = some bytes ∧
        Manifest.read? bytes = some cartWithFile.manifest := by
  have hfilled : (filledCart 1024).1.2.cart = some cartWithFile ∧
      isUndisturbed cartWithFile.manifestPlace (filledCart 1024).2.2 ∧
      refusedSince cartWithFile.manifestPlace (filledCart 1024).2.2 = [] := by
    decide +kernel
  obtain ⟨hopen, hundisturbed, hnone⟩ := hfilled
  obtain ⟨bytes, hknown, hmatches⟩ :=
    cart_agrees_unless_refused (leads_filledCart 1024) hopen hundisturbed
  rw [hnone] at hmatches
  rcases hmatches with hrefused | ⟨-, hread⟩
  · exact absurd hrefused List.not_mem_nil
  · exact ⟨leads_filledCart 1024, hopen, hundisturbed, bytes, hknown, hread (tellsTime_limited 1024)⟩

/-- If the disk has room for the first manifest only, then the open cart has another one than its file. -/
theorem not_cart_agrees_filled :
    (filledCart 128).1.2.Leads (FileTree.limited 128) (filledCart 128).2 ∧
      (filledCart 128).1.2.cart = some cartWithFile ∧
      isUndisturbed cartWithFile.manifestPlace (filledCart 128).2.2 ∧
      ∃ manifest, known? cartWithFile.manifestPlace (filledCart 128).2.2 =
          some manifest.text.toUTF8 ∧
        Manifest.read? manifest.text.toUTF8 = some manifest ∧ manifest ≠ cartWithFile.manifest := by
  have hproper : Manifest.IsProper { cartWithFile.manifest with assets := [] } :=
    ⟨tellsTime_limited 128 (.startingAt []), nofun⟩
  have hfilled : (filledCart 128).1.2.cart = some cartWithFile ∧
      isUndisturbed cartWithFile.manifestPlace (filledCart 128).2.2 ∧
      known? cartWithFile.manifestPlace (filledCart 128).2.2 =
        some (Manifest.text { cartWithFile.manifest with assets := [] }).toUTF8 ∧
      { cartWithFile.manifest with assets := [] } ≠ cartWithFile.manifest := by
    decide +kernel
  obtain ⟨hopen, hundisturbed, hknown, hne⟩ := hfilled
  exact ⟨leads_filledCart 128, hopen, hundisturbed, _, hknown, hproper.read?_text, hne⟩

end LineBasic
