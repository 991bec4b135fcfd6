import Mathlib.Data.List.Induction
import LineBasic.Proofs.StoreInvariant

namespace LineBasic

open Text

namespace Listing

theorem get?_keep (condition : Line → Bool) (listing : Listing) (number : LineNumber) :
    (listing.keep condition).get? number = (listing.get? number).filter condition := by
  refine Option.ext fun l => ?_
  rw [get?_eq_some_iff, Option.filter_eq_some_iff, get?_eq_some_iff, keep, List.mem_filter]
  exact and_right_comm

def content? (listing : Listing) (number : LineNumber) : Option String :=
  (listing.get? number).map Line.content

theorem mem_lines_iff {listing : Listing} {l : Line} :
    l ∈ listing.lines ↔ listing.content? l.number = some l.content := by
  rw [content?, Option.map_eq_some_iff]
  constructor
  · intro h
    exact ⟨l, get?_of_mem h, rfl⟩
  · rintro ⟨k, hk, hcontent⟩
    obtain ⟨hmem, hnumber⟩ := get?_eq_some_iff.mp hk
    have heq : k = l := by
      cases k
      cases l
      cases hnumber
      cases hcontent
      rfl
    exact heq ▸ hmem

theorem content?_insert (l : Line) (listing : Listing) (number : LineNumber) :
    (listing.insert l).content? number =
      if number = l.number then some l.content else listing.content? number := by
  rw [content?, get?_insert]
  split <;> rfl

theorem content?_keep (isKept : LineNumber → Bool) {condition : Line → Bool}
    (h : ∀ l, condition l = isKept l.number) (listing : Listing) (number : LineNumber) :
    (listing.keep condition).content? number =
      if isKept number then listing.content? number else none := by
  rw [content?, get?_keep, content?]
  cases hfound : listing.get? number with
  | none => simp
  | some l =>
      rw [← (get?_eq_some_iff.mp hfound).2, ← h, Option.filter_some]
      split <;> rfl

/-- A change of a stored program: a line is stored or deleted by its content, put in as it is, or removed; the lines between two
numbers are removed; a line of a program file is stored; or all lines are dropped. -/
inductive Change where
  | store (l : Line)
  | insert (l : Line)
  | remove (number : LineNumber)
  | delete (first last : LineNumber)
  | load (text : String)
  | clear

/-- The program after a change. A line of a program file that cannot be read changes nothing. -/
def apply (listing : Listing) : Change → Listing
  | .store l => listing.store l
  | .insert l => listing.insert l
  | .remove number => listing.remove number
  | .delete first last => (listing.delete first last).2
  | .load text => (listing.load text).toOption.getD listing
  | .clear => empty

/-- The program that changes lead to, made one after the other. -/
def after (changes : List Change) : Listing :=
  changes.foldl apply empty

/-- What storing a line writes under its number: its content, unless that is blank. -/
def kept (l : Line) : Option String :=
  if l.isEmpty then none else some l.content

/-- What a change writes under a number, if anything: a content, or that there is none. -/
def Change.written? (number : LineNumber) : Change → Option (Option String)
  | .store l => if number = l.number then some (kept l) else none
  | .insert l => if number = l.number then some (some l.content) else none
  | .remove n => if number = n then some none else none
  | .delete first last => if first ≤ number ∧ number ≤ last then some none else none
  | .load text =>
    if isBlank text then none
    else
      match Line.parse text with
      | .ok l => if number = l.number then some (kept l) else none
      | .error _ => none
  | .clear => some none

/-- The content that was written last under a number, unless nothing was written or the last that was written is that there is
none. -/
def lastWritten (changes : List Change) (number : LineNumber) : Option String :=
  (changes.reverse.findSome? (Change.written? number)).join

theorem content?_store (l : Line) (listing : Listing) (number : LineNumber) :
    (listing.store l).content? number =
      if number = l.number then kept l else listing.content? number := by
  rw [Listing.store, kept]
  split
  · rw [remove, content?_keep (· != l.number) fun _ => rfl]
    by_cases hnumber : number = l.number <;> simp [hnumber]
  · exact content?_insert l listing number

/-- A change leaves under a number what it writes there, and what was there if it writes nothing. -/
theorem content?_apply (listing : Listing) (c : Change) (number : LineNumber) :
    (listing.apply c).content? number = (c.written? number).getD (listing.content? number) := by
  have hgetD {written old : Option String} (p : Prop) [Decidable p] :
      (if p then written else old) = (if p then some written else none).getD old := by
    split <;> rfl
  cases c with
  | store l => rw [apply, content?_store, Change.written?, hgetD]
  | insert l => rw [apply, content?_insert, Change.written?, hgetD]
  | remove n =>
      rw [apply, remove, content?_keep (· != n) fun _ => rfl, Change.written?, ← hgetD]
      by_cases hnumber : number = n <;> simp [hnumber]
  | delete first last =>
      have hkeep : (listing.removeRange first last).content? number =
          if !(first ≤ number && number ≤ last) then listing.content? number else none :=
        content?_keep (fun n => !(first ≤ n && n ≤ last)) (fun _ => rfl) listing number
      rw [apply, delete_eq, hkeep, Change.written?, ← hgetD]
      by_cases hbetween : first ≤ number ∧ number ≤ last <;> simp [hbetween]
  | load text =>
      rw [apply, load, Change.written?]
      split
      · rfl
      · cases Line.parse text with
        | error e => rfl
        | ok l =>
            show (listing.store l).content? number = _
            rw [content?_store, hgetD]
  | clear => rfl

theorem lastWritten_concat (changes : List Change) (c : Change) (number : LineNumber) :
    lastWritten (changes ++ [c]) number = (c.written? number).getD (lastWritten changes number) := by
  rw [lastWritten, List.reverse_concat, List.findSome?_cons]
  cases c.written? number <;> rfl

/-- Under each number stands what was written there last. -/
theorem content?_after (changes : List Change) (number : LineNumber) :
    (after changes).content? number = lastWritten changes number := by
  -- The last change is the last that is made, and the first that is looked at.
  induction changes using List.reverseRecOn with
  | nil => rfl
  | append_singleton changes c ih =>
      have hafter : after (changes ++ [c]) = (after changes).apply c := List.foldl_concat ..
      rw [hafter, content?_apply, ih, lastWritten_concat]

def Between (first last number : LineNumber) : Prop :=
  first ≤ number ∧ number ≤ last

theorem isBetween_iff {first last : LineNumber} {l : Line} :
    isBetween first last l ↔ Between first last l.number := by
  rw [isBetween, Bool.and_eq_true, decide_eq_true_eq, decide_eq_true_eq]
  rfl

theorem mem_range_iff {listing : Listing} {first last : LineNumber} {l : Line} :
    l ∈ listing.range first last ↔ l ∈ listing.lines ∧ Between first last l.number := by
  rw [range, List.mem_filter, isBetween_iff]

theorem range_ascending (listing : Listing) (first last : LineNumber) :
    ((listing.range first last).map Line.number).Pairwise (· < ·) :=
  List.pairwise_map.mpr (listing.ascending.sublist List.filter_sublist)

theorem range_of_lt {listing : Listing} {first last : LineNumber} (h : last < first) :
    listing.range first last = [] := by
  refine List.eq_nil_iff_forall_not_mem.mpr fun l hl => ?_
  obtain ⟨-, hfirst, hlast⟩ := mem_range_iff.mp hl
  exact absurd (hfirst.trans hlast) (Nat.not_le.mpr h)

theorem delete_any_iff {listing : Listing} {first last : LineNumber} :
    (listing.delete first last).1 = true ↔ ∃ l ∈ listing.lines, Between first last l.number := by
  rw [delete_eq, Bool.not_eq_true', List.isEmpty_eq_false_iff_exists_mem]
  exact exists_congr fun l => mem_range_iff

theorem mem_delete_iff {listing : Listing} {first last : LineNumber} {l : Line} :
    l ∈ (listing.delete first last).2.lines ↔
      l ∈ listing.lines ∧ ¬Between first last l.number := by
  rw [delete_eq, removeRange, keep, List.mem_filter, Bool.not_eq_true', ← Bool.not_eq_true,
    isBetween_iff]

/-- Changes of an empty program, in any order, make a finite map of it: its lines stand in the order of their numbers, and a content
stands under a number if and only if it was written last there. The lines from one number to another are listed in that order, none if
the numbers are reversed; and deleting them leaves exactly the other lines, and says whether there were any. -/
theorem listing_is_map (changes : List Change) :
    ((after changes).lines.map Line.number).Pairwise (· < ·) ∧
    (∀ l, l ∈ (after changes).lines ↔ lastWritten changes l.number = some l.content) ∧
    ∀ first last,
      (((after changes).range first last).map Line.number).Pairwise (· < ·) ∧
      (∀ l, l ∈ (after changes).range first last ↔
        l ∈ (after changes).lines ∧ first ≤ l.number ∧ l.number ≤ last) ∧
      (last < first → (after changes).range first last = []) ∧
      (((after changes).delete first last).1 = true ↔
        ∃ l ∈ (after changes).lines, first ≤ l.number ∧ l.number ≤ last) ∧
      ∀ l, l ∈ ((after changes).delete first last).2.lines ↔
        l ∈ (after changes).lines ∧ ¬(first ≤ l.number ∧ l.number ≤ last) := by
  refine ⟨List.pairwise_map.mpr (after changes).ascending, fun l => ?_, fun first last => ?_⟩
  · rw [mem_lines_iff, content?_after]
  · exact ⟨range_ascending _ first last, fun _ => mem_range_iff, range_of_lt, delete_any_iff,
      fun _ => mem_delete_iff⟩

/-- Lines that are written over and deleted in every way, with a line of a file that cannot be read and a range of numbers that
is reversed. -/
def patchwork : List Change :=
  [.store ⟨20, "PRINT 1"⟩, .load "10 GOTO 30  ", .insert ⟨30, " "⟩, .load "GOTO 10", .store ⟨20, "\t"⟩,
    .delete 40 5, .store ⟨4294967295, "END"⟩, .load "40 END", .load " 40\u2003", .store ⟨15, "A=1"⟩,
    .delete 11 29, .remove 10, .load "10 END"]

theorem listing_is_map_patchwork :
    (after patchwork).lines = [⟨10, "END"⟩, ⟨30, " "⟩, ⟨4294967295, "END"⟩] ∧
    lastWritten patchwork 30 = some " " ∧ lastWritten patchwork 40 = none ∧
    (after patchwork).range 30 10 = [] ∧
    ((after patchwork).delete 31 4294967294).1 = false ∧
    ⟨4294967295, "END"⟩ ∉ ((after patchwork).delete 31 4294967295).2.lines := by
  obtain ⟨-, hlines, hbetween⟩ := listing_is_map patchwork
  have hpatchwork : (after patchwork).lines = [⟨10, "END"⟩, ⟨30, " "⟩, ⟨4294967295, "END"⟩] := by
    decide +kernel
  refine ⟨hpatchwork, (hlines ⟨30, " "⟩).mp (by rw [hpatchwork]; decide), by decide +kernel,
    (hbetween 30 10).2.2.1 (by decide), ?_, fun hmem => ?_⟩
  · rw [← Bool.not_eq_true, (hbetween 31 4294967294).2.2.2.1, hpatchwork]
    decide
  · exact (((hbetween 31 4294967295).2.2.2.2 _).mp hmem).2 (by decide)

end Listing

end LineBasic
