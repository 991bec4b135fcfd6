import LineBasic.AssetKind
import LineBasic.Json.Reader
import LineBasic.Text.Utf8
import LineBasic.Timestamp
/-!
The manifest of a cart: its name, when it was made and saved, and the checksums of its assets. It is kept as a JSON text.
-/
namespace LineBasic

open Text

/-- A file that a cart keeps. -/
structure Asset where
  kind : AssetKind
  name : String
  checksum : UInt32
deriving DecidableEq, Repr

/-- What a cart says of itself. -/
structure Manifest where
  name : String
  created : Timestamp
  saved : Option Timestamp := none
  assets : List Asset := []
deriving DecidableEq, Repr

namespace Asset

/-- An asset as a JSON value. -/
def toJson (a : Asset) : Json String :=
  .object
    [("kind", .string a.kind.name), ("name", .string a.name), ("crc32", .ofNat a.checksum.toNat)]

/-- The kind that a JSON value names: a text, or an object with nothing but a null under that text. -/
def kindOf? : Json.Found → Option AssetKind
  | .string (some name) => AssetKind.ofName? name
  | .object [(some name, .null)] => AssetKind.ofName? name
  | _ => none

/-- The asset that a JSON value describes. -/
def ofJson? (j : Json.Found) : Option Asset := do
  match ← Json.record? ["kind", "name", "crc32"] j with
  | [some kind, some name, some checksum] =>
    return {
      kind := ← kindOf? kind
      name := ← name.text?
      checksum := UInt32.ofNat (← checksum.nat? maxWord32) }
  | _ => none

/-- Two assets have the same place in a cart. -/
def isAt (a b : Asset) : Bool :=
  a.kind = b.kind && a.name = b.name

/-- The assets `bs` with `a` among them, instead of the first one that has the same place. -/
def store (a : Asset) : List Asset → List Asset
  | [] => [a]
  | b :: bs => if a.isAt b then a :: bs else b :: store a bs

end Asset

namespace Manifest

/-- A manifest as a JSON value. -/
def toJson (m : Manifest) : Json String :=
  .object
    [("name", .string m.name), ("created", .string m.created.text),
      ("saved", match m.saved with
        | some t => .string t.text
        | none => .null),
      ("assets", .array (m.assets.map Asset.toJson))]

/-- The text of a manifest. -/
def text (m : Manifest) : String :=
  m.toJson.text

/-- The time that a JSON value writes. -/
def timeOf? (j : Json.Found) : Option Timestamp := do
  Timestamp.read? (← j.text?)

/-- The time that a JSON value writes, unless it is null. -/
def savedOf? : Json.Found → Option (Option Timestamp)
  | .null => some none
  | j => (timeOf? j).map some

/-- The assets that a JSON value describes. -/
def assetsOf? : Json.Found → Option (List Asset)
  | .array items => items.mapM Asset.ofJson?
  | _ => none

/-- An array that is too short to hold what a manifest has to have. -/
def isCutShort : Json.Found → Bool
  | .array items => items.length < 3
  | _ => false

/-- The manifest that a JSON value describes. -/
def ofJson? (j : Json.Found) : Option Manifest := do
  match ← Json.record? ["name", "created", "saved", "assets"] j with
  | [some name, some created, saved, assets] =>
    if isCutShort j then none
    else
      return {
        name := ← name.text?
        created := ← timeOf? created
        saved := ← Json.fieldD savedOf? none saved
        assets := ← Json.fieldD assetsOf? [] assets }
  | _ => none

/-- The manifest that a file holds. -/
def read? (bytes : ByteArray) : Option Manifest := do
  ofJson? (← Json.read? (units bytes))

end Manifest

end LineBasic
