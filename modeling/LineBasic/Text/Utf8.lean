/-!
Bytes as text: the bytes of a text, and what can be read of bytes that are no text.
-/
namespace LineBasic.Text

/-- What a list of bytes from address `start` on holds: characters, and `none` for a byte that is part of no character. At
most `fuel` of them are read. -/
def unitsFrom (bytes : ByteArray) : Nat → Nat → List (Option Char)
  | 0, _ => []
  | fuel + 1, start =>
    if start < bytes.size then
      match bytes.utf8DecodeChar? start with
      | some c => some c :: unitsFrom bytes fuel (start + c.utf8Size)
      | none => none :: unitsFrom bytes fuel (start + 1)
    else []

/-- What bytes hold: characters, and `none` for a byte that is part of no character. -/
def units (bytes : ByteArray) : List (Option Char) :=
  match String.fromUTF8? bytes with
  | some s => s.toList.map some
  | none => unitsFrom bytes bytes.size 0

theorem fromUTF8?_toUTF8 (s : String) : String.fromUTF8? s.toUTF8 = some s := by
  have h : s.toUTF8.IsValidUTF8 := s.isValidUTF8
  unfold String.fromUTF8?
  rw [dif_pos h]
  rfl

theorem units_toUTF8 (s : String) : units s.toUTF8 = s.toList.map some := by
  unfold units
  rw [fromUTF8?_toUTF8]

end LineBasic.Text
