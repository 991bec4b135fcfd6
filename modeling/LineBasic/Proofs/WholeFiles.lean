import LineBasic.Proofs.ListingHistory

namespace LineBasic

open Text

namespace Line

/-- A line of a program file holds this line of a program. -/
def IsHeldBy (l : Line) (text : String) : Prop :=
  isBlank text = false ∧ parse text = .ok l

/-- Among the lines that a file holds, this is the last one with its number. -/
def IsLastIn (l : Line) (file : List String) : Prop :=
  ∃ front text back, file = front ++ text :: back ∧ l.IsHeldBy text ∧
    ∀ later ∈ back, ∀ k : Line, k.IsHeldBy later → k.number ≠ l.number

end Line

namespace Listing

/-- A line of a program file that can be read, or is skipped because it is blank. -/
def IsLegible (text : String) : Prop :=
  isBlank text = false → ∃ l, Line.parse text = .ok l

/-- The error of a line that cannot be read, placed in its file. -/
def misread (cause : Error) (index : Nat) : Error :=
  { cause with text := "LINE " ++ toString index ++ " OF FILE" }

variable {text : String} {file : List String} {listing : Listing}

theorem load_isOk_iff : (∃ listing', listing.load text = .ok listing') ↔ IsLegible text := by
  unfold load IsLegible
  split
  · rename_i hblank
    simp [hblank]
  · rename_i hink
    cases Line.parse text <;> simp [hink, bind, Except.bind, pure, Except.pure]

theorem load_eq_error_iff {e : Error} :
    listing.load text = .error e ↔ isBlank text = false ∧ Line.parse text = .error e := by
  unfold load
  split
  · rename_i hblank
    simp [hblank]
  · rename_i hink
    cases Line.parse text <;> simp [hink, bind, Except.bind, pure, Except.pure]

theorem loadFrom_isOk_iff (index : Nat) (listing : Listing) (file : List String) :
    (∃ listing', loadFrom index listing file = .ok listing') ↔ ∀ text ∈ file, IsLegible text := by
  induction file generalizing index listing with
  | nil => simp [loadFrom]
  | cons text file ih =>
      have hfirst : (∃ loaded, listing.load text = .ok loaded) ↔ IsLegible text := load_isOk_iff
      rw [List.forall_mem_cons, ← hfirst, loadFrom]
      cases listing.load text with
      | ok listing' => simp [ih]
      | error e => simp

theorem eq_foldl_of_loadFrom {index : Nat} {listing' : Listing}
    (h : loadFrom index listing file = .ok listing') :
    listing' = (file.map Change.load).foldl apply listing := by
  induction file generalizing index listing with
  | nil =>
      cases h
      rfl
  | cons text file ih =>
      rw [loadFrom] at h
      cases hload : listing.load text with
      | error e =>
          rw [hload] at h
          cases h
      | ok loaded =>
          rw [hload] at h
          have happly : listing.apply (.load text) = loaded := by
            rw [apply, hload]
            rfl
          rw [List.map_cons, List.foldl_cons, happly]
          exact ih h

theorem loadFrom_eq_error_iff {index : Nat} {e : Error} :
    loadFrom index listing file = .error e ↔
      ∃ front text back cause, file = front ++ text :: back ∧ (∀ t ∈ front, IsLegible t) ∧
        isBlank text = false ∧ Line.parse text = .error cause ∧
        e = misread cause (index + front.length) := by
  induction file generalizing index listing with
  | nil => simp [loadFrom]
  | cons text file ih =>
      rw [loadFrom]
      cases hload : listing.load text with
      | error cause =>
          obtain ⟨hink, hparse⟩ := load_eq_error_iff.mp hload
          -- So no line that is reported can stand further on.
          have hfails : ¬IsLegible text := by
            intro hlegible
            obtain ⟨l, hl⟩ := hlegible hink
            rw [hparse] at hl
            cases hl
          constructor
          · rintro ⟨⟩
            exact ⟨[], text, file, cause, rfl, by simp, hink, hparse, rfl⟩
          · rintro ⟨front, text', back, cause', hfile, hfront, -, hparse', rfl⟩
            cases front with
            | nil =>
                cases hfile
                rw [hparse] at hparse'
                cases hparse'
                rfl
            | cons t front =>
                cases hfile
                exact absurd (hfront _ List.mem_cons_self) hfails
      | ok loaded =>
          have hlegible : IsLegible text := load_isOk_iff.mp ⟨loaded, hload⟩
          refine ih.trans ?_
          constructor
          · rintro ⟨front, text', back, cause, rfl, hfront, hink, hparse, rfl⟩
            refine ⟨text :: front, text', back, cause, rfl,
              List.forall_mem_cons.mpr ⟨hlegible, hfront⟩, hink, hparse, ?_⟩
            rw [List.length_cons, Nat.add_assoc, Nat.add_comm 1]
          · rintro ⟨front, text', back, cause, hfile, hfront, hink, hparse, rfl⟩
            cases front with
            | nil =>
                cases hfile
                have herror : listing.load text = .error cause :=
                  load_eq_error_iff.mpr ⟨hink, hparse⟩
                rw [hload] at herror
                cases herror
            | cons t front =>
                cases hfile
                refine ⟨front, text', back, cause, rfl, (List.forall_mem_cons.mp hfront).2, hink,
                  hparse, ?_⟩
                rw [List.length_cons, Nat.add_assoc, Nat.add_comm 1]

theorem written?_load_eq_some_iff {number : LineNumber} {content? : Option String} :
    (Change.load text).written? number = some content? ↔
      ∃ l : Line, l.IsHeldBy text ∧ l.number = number ∧ kept l = content? := by
  unfold Change.written? Line.IsHeldBy
  dsimp only
  split
  · rename_i hblank
    simp [hblank]
  · rename_i hink
    cases Line.parse text with
    | error e => simp
    | ok l => simp [hink, eq_comm]

theorem lastWritten_load_eq_some_iff {number : LineNumber} {content : String} :
    lastWritten (file.map Change.load) number = some content ↔
      ∃ l : Line, l.IsLastIn file ∧ l.number = number ∧ kept l = some content := by
  rw [lastWritten, ← List.map_reverse, List.findSome?_map, Option.join_eq_some_iff,
    List.findSome?_eq_some_iff]
  constructor
  · rintro ⟨back, text, front, hfile, hwritten, hlater⟩
    obtain ⟨l, hheld, rfl, hkept⟩ := written?_load_eq_some_iff.mp hwritten
    refine ⟨l, ⟨front.reverse, text, back.reverse, ?_, hheld, ?_⟩, rfl, hkept⟩
    · rw [← List.reverse_inj, hfile]
      simp
    · intro later hmem k hk hnumber
      have hnone := hlater later (List.mem_reverse.mp hmem)
      have hsome := written?_load_eq_some_iff.mpr ⟨k, hk, hnumber, rfl⟩
      rw [Function.comp_apply, hsome] at hnone
      cases hnone
  · rintro ⟨l, ⟨front, text, back, rfl, hheld, hlater⟩, rfl, hkept⟩
    refine ⟨back.reverse, text, front.reverse, by simp,
      written?_load_eq_some_iff.mpr ⟨l, hheld, rfl, hkept⟩, ?_⟩
    intro later hmem
    refine Option.eq_none_iff_forall_ne_some.mpr fun content? hsome => ?_
    obtain ⟨k, hk, hnumber, -⟩ := written?_load_eq_some_iff.mp hsome
    exact hlater later (List.mem_reverse.mp hmem) k hk hnumber

theorem kept_eq_some_iff {l : Line} {content : String} :
    kept l = some content ↔ l.isEmpty = false ∧ l.content = content := by
  unfold kept
  cases l.isEmpty <;> simp

theorem mem_lines_of_read {l : Line} (h : read text = .ok listing) :
    l ∈ listing.lines ↔ l.IsLastIn (Text.lines text) ∧ l.isEmpty = false := by
  have hafter : listing = after ((Text.lines text).map Change.load) := eq_foldl_of_loadFrom h
  rw [mem_lines_iff, hafter, content?_after, lastWritten_load_eq_some_iff]
  constructor
  · rintro ⟨k, hlast, hnumber, hkept⟩
    obtain ⟨hink, hcontent⟩ := kept_eq_some_iff.mp hkept
    have heq : k = l := by
      cases k
      cases l
      cases hnumber
      cases hcontent
      rfl
    exact heq ▸ ⟨hlast, hink⟩
  · rintro ⟨hlast, hink⟩
    exact ⟨l, hlast, rfl, kept_eq_some_iff.mpr ⟨hink, rfl⟩⟩

/-- A program file is read as a whole or not at all. It is read if and only if every line of it that is not blank can be read, and
then a line is in the program if and only if it is the last one with its number in the file and not blank. If the file is not
read, the error is that of the first line that cannot be read, and it says the number of this line in the file. -/
theorem read_whole_or_refused (text : String) :
    ((∃ listing, read text = .ok listing) ↔
      ∀ line ∈ Text.lines text, isBlank line = false → ∃ l, Line.parse line = .ok l) ∧
    (∀ listing, read text = .ok listing →
      (listing.lines.map Line.number).Pairwise (· < ·) ∧
      ∀ l, l ∈ listing.lines ↔ l.IsLastIn (Text.lines text) ∧ l.isEmpty = false) ∧
    ∀ e, read text = .error e ↔
      ∃ front line back cause, Text.lines text = front ++ line :: back ∧
        (∀ earlier ∈ front, isBlank earlier = false → ∃ l, Line.parse earlier = .ok l) ∧
        isBlank line = false ∧ Line.parse line = .error cause ∧
        e = { cause with text := "LINE " ++ toString (front.length + 1) ++ " OF FILE" } := by
  refine ⟨loadFrom_isOk_iff 1 empty (Text.lines text), fun listing hread => ?_, fun e => ?_⟩
  · exact ⟨List.pairwise_map.mpr listing.ascending, fun l => mem_lines_of_read hread⟩
  · refine loadFrom_eq_error_iff.trans ?_
    simp only [Nat.add_comm 1]
    rfl

/-- A file out of order, with blank lines, both kinds of line break, and numbers that come again. -/
def jumble : String :=
  "30 END\r\n\n10 GOTO 30\n \t\r\n20 PRINT 1\n10 REM \n20  \n 30  PRINT 2\r\r\n0020"

/-- A file with a line without a number behind blank lines, and a line with too large a number behind that. -/
def torn : String :=
  "10 END\n\n \r\nPRINT 1\n65530 END\n10 PRINT 2"

theorem read_whole_or_refused_jumble :
    (∃ listing, read jumble = .ok listing ∧ listing.lines = [⟨10, "REM"⟩, ⟨30, " PRINT 2"⟩] ∧
      ∀ l, l ∈ listing.lines ↔ l.IsLastIn (Text.lines jumble) ∧ l.isEmpty = false) ∧
    read torn = .error { code := .directStatementInFile, text := "LINE 4 OF FILE" } ∧
    ∃ front line back cause, Text.lines torn = front ++ line :: back ∧
      (∀ earlier ∈ front, isBlank earlier = false → ∃ l, Line.parse earlier = .ok l) ∧
      isBlank line = false ∧ Line.parse line = .error cause ∧
      ({ code := .directStatementInFile, text := "LINE 4 OF FILE" } : Error) =
        { cause with text := "LINE " ++ toString (front.length + 1) ++ " OF FILE" } := by
  have hjumble : (read jumble).toOption.map Listing.lines =
      some [⟨10, "REM"⟩, ⟨30, " PRINT 2"⟩] := by
    decide +kernel
  have htorn : read torn = .error { code := .directStatementInFile, text := "LINE 4 OF FILE" } := by
    decide +kernel
  refine ⟨?_, htorn, ((read_whole_or_refused torn).2.2 _).mp htorn⟩
  cases hread : read jumble with
  | error e =>
      rw [hread] at hjumble
      cases hjumble
  | ok listing =>
      rw [hread] at hjumble
      exact ⟨listing, rfl, Option.some.inj hjumble, ((read_whole_or_refused jumble).2.1 listing hread).2⟩

end Listing

end LineBasic
