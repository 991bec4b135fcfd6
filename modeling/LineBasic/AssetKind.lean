import LineBasic.Text.Digits
/-!
The kinds of file that a cart keeps beside its program, each in a directory of its own.
-/
namespace LineBasic

/-- A kind of file in a cart. -/
inductive AssetKind where
  | script
  | image
  | sound
  | data
deriving DecidableEq, Repr

namespace AssetKind

/-- All kinds. -/
def all : List AssetKind :=
  [script, image, sound, data]

/-- The name of a kind, which is also that of its directory. -/
def name : AssetKind → String
  | script => "script"
  | image => "image"
  | sound => "sound"
  | data => "data"

/-- The kind of exactly this name. -/
def ofName? (name : String) : Option AssetKind :=
  all.find? fun kind => kind.name == name

/-- The kind of this name in any letter case. -/
def ofWord? (word : String) : Option AssetKind :=
  ofName? (Text.lower word)

theorem ofName?_name (kind : AssetKind) : ofName? kind.name = some kind := by
  cases kind <;> rfl

end AssetKind

end LineBasic
