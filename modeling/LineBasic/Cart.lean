import LineBasic.Checksum
import LineBasic.Manifest
import LineBasic.Path
import LineBasic.Storage
/-!
Carts: a directory with a program, its assets in a directory for each kind, and a manifest of them all.
-/
namespace LineBasic

open Text

/-- An open cart. -/
structure Cart where
  /-- The directory of the cart. -/
  root : String
  manifest : Manifest
deriving DecidableEq, Repr

namespace Cart

/-- The file that the manifest is kept in. -/
def manifestFile : String := "cart.json"

/-- The file that the program is kept in. -/
def programFile : String := "main.bas"

/-- The place of a file or directory in a cart. -/
def place (root name : String) : String :=
  Path.join root name

/-- The directory for assets of a kind. -/
def directory (root : String) (kind : AssetKind) : String :=
  place root kind.name

variable {m : Type → Type} [Monad m]

/-- Writes the manifest of a cart. -/
def writeManifest (storage : Storage m) (cart : Cart) : ExceptT Error m Unit :=
  storage.write (place cart.root manifestFile) cart.manifest.text.toUTF8

/-- Makes a cart with an empty program and no assets. Its directory must not be there yet. -/
def create (storage : Storage m) (root : String) : ExceptT Error m Cart := do
  if ← storage.exists? root then
    throw (ErrorCode.fileAlreadyExists.error root)
  match Path.fileName? root with
  | none => throw (ErrorCode.badFileName.error root)
  | some name =>
    storage.createDirectory root
    AssetKind.all.forM fun kind => storage.createDirectory (directory root kind)
    storage.write (place root programFile) .empty
    let cart : Cart := { root, manifest := { name, created := ← storage.now } }
    cart.writeManifest storage
    return cart

/-- Opens the cart in a directory. -/
def «open» (storage : Storage m) (root : String) : ExceptT Error m Cart := do
  let bytes ← storage.read (place root manifestFile)
  match Manifest.read? bytes with
  | some manifest => return { root, manifest }
  | none => throw (ErrorCode.diskIoError.error (manifestFile ++ ": " ++ storage.complaint bytes))

/-- The text of the program in a cart, if it has one. -/
def program? (storage : Storage m) (cart : Cart) : ExceptT Error m (Option String) := do
  let file := place cart.root programFile
  if ← storage.exists? file then
    match String.fromUTF8? (← storage.read file) with
    | some text => return some text
    | none => throw (ErrorCode.diskIoError.error "PROGRAM IS NOT UTF-8")
  else return none

/-- The checksum of a file. -/
def checksumOf (storage : Storage m) (file : String) : ExceptT Error m UInt32 := do
  return Checksum.ofBytes (← storage.read file)

/-- The asset that a row of the directory for its kind stands for. -/
def assetOf (storage : Storage m) (root : String) (kind : AssetKind) (e : Entry) :
    ExceptT Error m Asset := do
  let checksum ← checksumOf storage (Path.join (directory root kind) e.name)
  return { kind, name := e.name, checksum }

/-- The assets of a kind, as they are found in its directory. -/
def scan (storage : Storage m) (root : String) (kind : AssetKind) :
    ExceptT Error m (List Asset) := do
  let place := directory root kind
  if ← storage.exists? place then
    let entries ← storage.list place
    (entries.filter fun e => !e.isDirectory).mapM (assetOf storage root kind)
  else return []

/-- Writes a program into a cart, and finds the assets that are there. -/
def rescan (storage : Storage m) (program : String) (cart : Cart) :
    ExceptT Error m (List Asset) := do
  storage.write (place cart.root programFile) program.toUTF8
  return (← AssetKind.all.mapM (scan storage cart.root)).flatten

/-- Saves a program into a cart, with a manifest of the assets that are there. The cart knows the new manifest even if
it cannot be written. -/
def save (storage : Storage m) (program : String) (cart : Cart) :
    m (Except Error Unit × Cart) := do
  match ← (cart.rescan storage program).run with
  | .error e => return (.error e, cart)
  | .ok assets =>
    let saved ← storage.now
    let cart := { cart with manifest := { cart.manifest with assets, saved := some saved } }
    return (← (cart.writeManifest storage).run, cart)

/-- A name that a file in a cart cannot have. -/
def isBadName (name : String) : Bool :=
  name = "" || name = ".." || name.toList.any fun c => c == '/' || c == '\\'

/-- Copies a file into the directory for its kind. -/
def takeIn (storage : Storage m) (kind : AssetKind) (source name : String) (cart : Cart) :
    ExceptT Error m Asset := do
  if isBadName name then
    throw (ErrorCode.badFileName.error name)
  let place := directory cart.root kind
  if !(← storage.exists? place) then
    storage.createDirectory place
  let file := Path.join place name
  let _ ← storage.copy source file
  return { kind, name, checksum := ← checksumOf storage file }

/-- Copies a file into a cart as an asset. The cart knows the asset even if its manifest cannot be written. -/
def copy (storage : Storage m) (kind : AssetKind) (source name : String) (cart : Cart) :
    m (Except Error Asset × Cart) := do
  match ← (cart.takeIn storage kind source name).run with
  | .error e => return (.error e, cart)
  | .ok asset =>
    let assets := asset.store cart.manifest.assets
    let cart := { cart with manifest := { cart.manifest with assets } }
    match ← (cart.writeManifest storage).run with
    | .ok () => return (.ok asset, cart)
    | .error e => return (.error e, cart)

end Cart

end LineBasic
