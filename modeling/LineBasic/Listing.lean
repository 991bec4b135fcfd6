import LineBasic.Line
/-!
The stored program: lines in ascending order of their numbers. It is a finite map from numbers to contents, and its
text is what a program file holds.
-/
namespace LineBasic

open Text

/-- A line comes before another one. -/
def Line.Before (k l : Line) : Prop :=
  k.number < l.number

/-- A stored program. -/
structure Listing where
  lines : List Line := []
  ascending : lines.Pairwise Line.Before := by exact List.Pairwise.nil
deriving DecidableEq

namespace Listing

/-- A program without lines. -/
def empty : Listing := {}

/-- The ascending lines `ks` with `l` at its place, instead of a line of the same number. -/
def place (l : Line) : List Line → List Line
  | [] => [l]
  | k :: ks =>
    if l.number < k.number then l :: k :: ks
    else if l.number = k.number then l :: ks
    else k :: place l ks

theorem mem_place {l k : Line} {ks : List Line} (h : k ∈ place l ks) : k = l ∨ k ∈ ks := by
  induction ks with
  | nil => simpa [place] using h
  | cons k' ks ih =>
    unfold place at h
    split at h
    · simpa using h
    · split at h
      · simp only [List.mem_cons] at h ⊢
        rcases h with h | h
        · exact .inl h
        · exact .inr (.inr h)
      · simp only [List.mem_cons] at h ⊢
        rcases h with h | h
        · exact .inr (.inl h)
        · rcases ih h with h | h
          · exact .inl h
          · exact .inr (.inr h)

theorem pairwise_place (l : Line) {ks : List Line} (h : ks.Pairwise Line.Before) :
    (place l ks).Pairwise Line.Before := by
  induction ks with
  | nil => simp [place]
  | cons k ks ih =>
    have hk := List.pairwise_cons.mp h
    unfold place
    split
    · rename_i hlt
      refine List.pairwise_cons.mpr ⟨fun a ha => ?_, h⟩
      rcases List.mem_cons.mp ha with rfl | ha
      · exact hlt
      · exact Nat.lt_trans hlt (hk.1 a ha)
    · split
      · rename_i heq
        refine List.pairwise_cons.mpr ⟨fun a ha => ?_, hk.2⟩
        show l.number < a.number
        exact heq ▸ hk.1 a ha
      · rename_i hlt hne
        refine List.pairwise_cons.mpr ⟨fun a ha => ?_, ih hk.2⟩
        rcases mem_place ha with rfl | ha
        · exact Nat.lt_of_le_of_ne (Nat.le_of_not_lt hlt) (Ne.symm hne)
        · exact hk.1 a ha

/-- The line with the given number. -/
def get? (listing : Listing) (number : LineNumber) : Option Line :=
  listing.lines.find? fun l => l.number == number

/-- The program with a line stored, instead of one of the same number. -/
def insert (l : Line) (listing : Listing) : Listing :=
  { lines := place l listing.lines, ascending := pairwise_place l listing.ascending }

/-- The lines that satisfy a condition. -/
def keep (condition : Line → Bool) (listing : Listing) : Listing :=
  { lines := listing.lines.filter condition
    ascending := listing.ascending.sublist List.filter_sublist }

/-- The program without the line of the given number. -/
def remove (number : LineNumber) (listing : Listing) : Listing :=
  listing.keep fun l => l.number != number

/-- The program with a line stored, or removed if it is empty. -/
def store (l : Line) (listing : Listing) : Listing :=
  if l.isEmpty then listing.remove l.number else listing.insert l

/-- A line lies between two numbers, both included. If they are reversed, none does. -/
def isBetween (first last : LineNumber) (l : Line) : Bool :=
  first ≤ l.number && l.number ≤ last

/-- The lines between two numbers. -/
def range (first last : LineNumber) (listing : Listing) : List Line :=
  listing.lines.filter (isBetween first last)

/-- The program without the lines between two numbers. -/
def removeRange (first last : LineNumber) (listing : Listing) : Listing :=
  listing.keep fun l => !isBetween first last l

/-- Removes the lines between two numbers, one after the other, and says whether there are any. -/
def delete (first last : LineNumber) (listing : Listing) : Bool × Listing :=
  let numbers := (listing.range first last).map Line.number
  (!numbers.isEmpty, numbers.foldl (fun listing number => listing.remove number) listing)

theorem eq_of_lines {listing listing' : Listing} (h : listing.lines = listing'.lines) :
    listing = listing' := by
  cases listing
  cases listing'
  cases h
  rfl

theorem lines_foldl_remove (numbers : List LineNumber) (listing : Listing) :
    (numbers.foldl (fun listing number => listing.remove number) listing).lines =
      listing.lines.filter fun l => !numbers.contains l.number := by
  induction numbers generalizing listing with
  | nil => exact (List.filter_eq_self.mpr fun _ _ => rfl).symm
  | cons number numbers ih =>
    rw [List.foldl_cons, ih]
    show (listing.lines.filter _).filter _ = _
    rw [List.filter_filter]
    congr 1
    funext l
    rw [List.contains_cons, Bool.not_or, Bool.and_comm]
    rfl

/-- The numbers between two numbers are those of the lines between them. -/
theorem contains_map_range {first last : LineNumber} {listing : Listing} {l : Line}
    (hl : l ∈ listing.lines) :
    ((listing.range first last).map Line.number).contains l.number = isBetween first last l := by
  rw [Bool.eq_iff_iff, List.contains_iff_mem, List.mem_map]
  constructor
  · rintro ⟨k, hk, hnumber⟩
    have hbetween := (List.mem_filter.mp hk).2
    rw [isBetween, hnumber] at hbetween
    exact hbetween
  · intro hbetween
    exact ⟨l, List.mem_filter.mpr ⟨hl, hbetween⟩, rfl⟩

/-- All lines between two numbers are removed, and no other ones. -/
theorem delete_eq (first last : LineNumber) (listing : Listing) :
    listing.delete first last =
      (!(listing.range first last).isEmpty, listing.removeRange first last) := by
  refine Prod.ext ?_ (eq_of_lines ?_)
  · rw [delete, List.isEmpty_map]
  · refine (lines_foldl_remove _ listing).trans (List.filter_congr fun l hl => ?_)
    rw [contains_map_range hl]

/-- The text that is compiled: the lines with a line feed between them. -/
def source (listing : Listing) : String :=
  "\n".intercalate (listing.lines.map Line.text)

/-- The text of a program file: every line with a line feed behind it. -/
def text (listing : Listing) : String :=
  String.join (listing.lines.map fun l => l.text ++ "\n")

/-- Stores a line of a program file. A blank one changes nothing. -/
def load (text : String) (listing : Listing) : Except Error Listing :=
  if isBlank text then .ok listing
  else do
    let l ← Line.parse text
    return listing.store l

/-- Stores the lines of a program file, of which the first is number `index`. An error says in which line of the file
it is; that is not the number of the line in the program. -/
def loadFrom (index : Nat) (listing : Listing) : List String → Except Error Listing
  | [] => .ok listing
  | text :: rest =>
    match listing.load text with
    | .ok listing => loadFrom (index + 1) listing rest
    | .error e => .error { e with text := "LINE " ++ toString index ++ " OF FILE" }

/-- The program that a program file holds. -/
def read (text : String) : Except Error Listing :=
  loadFrom 1 empty (Text.lines text)

/-- The new numbers of lines, the first of which becomes number `start`. The number behind the last one has to fit into
32 bits, too. -/
def newNumbers (start increment : Nat) :
    List LineNumber → Except Error (List (LineNumber × LineNumber))
  | [] => .ok []
  | old :: rest =>
    if maxLineNumber < start then .error { code := .overflow }
    else if maxWord32 < start + increment then .error { code := .overflow }
    else do
      let changes ← newNumbers (start + increment) increment rest
      return (old, start) :: changes

/-- The new numbers of the lines from number `first` on. They must not get in front of a line that stays. -/
def renumbering (start increment first : Nat) (listing : Listing) :
    Except Error (List (LineNumber × LineNumber)) :=
  let numbers := listing.lines.map Line.number
  let moved := numbers.filter (first ≤ ·)
  let last? := (numbers.filter (· < first)).getLast?
  if increment = 0 then .error (ErrorCode.illegalFunctionCall.error "INCREMENT")
  else if !moved.isEmpty && last?.any (start ≤ ·) then
    .error (ErrorCode.illegalFunctionCall.error "LINES WOULD REORDER")
  else newNumbers start increment moved

/-- The program with new numbers for the lines from number `first` on, and for every reference to them. -/
def renumber (start increment first : Nat) (listing : Listing) : Except Error Listing := do
  let changes ← listing.renumbering start increment first
  return listing.lines.foldl (fun new l => new.insert (l.renumber (changes.lookup ·))) empty

end Listing

end LineBasic
