import LineBasic.Proofs.RenumberedListing
import LineBasic.Proofs.Saving

namespace LineBasic

open Text

namespace Line

theorem dropSeparator_append {cs : List Char} (h : cs ≠ []) (ds : List Char) :
    dropSeparator (cs ++ ds) = dropSeparator cs ++ ds := by
  obtain ⟨c, cs, rfl⟩ := List.exists_cons_of_ne_nil h
  by_cases hc : c = ' '
  · rw [hc]
    rfl
  · rw [dropSeparator.eq_def, dropSeparator.eq_def]
    simp [hc]

theorem trimRight_dropSeparator {rest back : List Char} (hrest : EndsInInk rest)
    (hback : ∀ c ∈ back, isSpace c) :
    trimRight (dropSeparator (rest ++ back)) = dropSeparator rest := by
  by_cases hnil : rest = []
  · have hblank : ∀ c ∈ dropSeparator back, isSpace c :=
      fun c hc => hback c ((dropSeparator_suffix back).mem hc)
    have hink : EndsInInk [] := nofun
    rw [hnil, List.nil_append]
    exact hink.trimRight_append hblank
  · have hcontent : EndsInInk (dropSeparator rest) := hrest.suffix (dropSeparator_suffix rest)
    rw [dropSeparator_append hnil, hcontent.trimRight_append hback]

theorem byteLength_dropBreaks_le (cs : List Char) : byteLength (dropBreaks cs) ≤ byteLength cs := by
  obtain ⟨back, hback⟩ := isPrefix_dropBreaks cs
  calc byteLength (dropBreaks cs) ≤ byteLength (dropBreaks cs) + byteLength back :=
        Nat.le_add_right _ _
    _ = byteLength cs := by rw [← byteLength_append, hback]

end Line

namespace Input.IsNumbered

variable {text : String} {digits rest : List Char}

theorem isBlank_eq_false (h : IsNumbered text.toList digits rest) : isBlank text = false := by
  obtain ⟨c, cs, hcons⟩ := List.exists_cons_of_ne_nil h.digits_ne
  have hmem : c ∈ text.toList := by
    refine trim_suffix ?_
    rw [h.trim_eq, hcons]
    exact List.mem_cons_self
  have hc : isSpace c = false := not_isSpace_of_isDigit (h.digits c (hcons ▸ List.mem_cons_self))
  rw [isBlank, List.all_eq_false]
  exact ⟨c, hmem, by simp [hc]⟩

theorem parse_eq (h : IsNumbered text.toList digits rest) :
    Line.parse text =
      if maxLineLength < byteLength (Line.dropBreaks text.toList) then
        .error { code := .lineBufferOverflow }
      else if value digits ≤ maxLineNumber then
        .ok ⟨value digits, String.ofList (Line.dropSeparator rest)⟩
      else .error Line.numberOverflow := by
  obtain ⟨front, back, hfront, hback, htext⟩ := exists_trim_append text.toList
  rw [h.trim_eq] at htext
  have hink : EndsInInk (digits ++ rest) := h.trim_eq ▸ endsInInk_trimRight _
  have hne : digits ++ rest ≠ [] := List.append_ne_nil_of_left_ne_nil h.digits_ne rest
  -- Line breaks are blanks, so they come off `back` only, and what is left of it is blank.
  have hblank : ∀ c ∈ Line.dropBreaks back, isSpace c :=
    fun c hc => hback c ((Line.isPrefix_dropBreaks back).mem hc)
  have hdrop : Line.dropBreaks text.toList =
      front ++ (digits ++ (rest ++ Line.dropBreaks back)) := by
    rw [← htext, ← List.append_assoc, Line.dropBreaks_append (hink.append hne),
      List.append_assoc, List.append_assoc]
  have hstop : ∀ c, (rest ++ Line.dropBreaks back).head? = some c → isDigit c = false := by
    intro c hc
    apply not_isDigit_of_isSpace
    cases hrest : rest with
    | nil =>
        rw [hrest, List.nil_append] at hc
        exact hblank c (List.mem_of_head? hc)
    | cons d ds =>
        rw [hrest] at hc
        exact h.rest c (hrest ▸ hc)
  have hcontent := Line.trimRight_dropSeparator hink.of_append hblank
  unfold Line.parse
  dsimp only
  rw [hdrop, Line.split_of_digits hfront h.digits_ne h.digits hstop]
  by_cases hle : value digits ≤ maxLineNumber
  · simp only [if_pos hle, hcontent]
  · simp only [if_neg hle]

end Input.IsNumbered

/-- A line that the shell takes for a numbered one is stored by the reader of program files, too, unless it is too long
or its number is too large. -/
theorem Listing.load_of_numbered {text content : String} {number : LineNumber}
    (h : Input.classify text = .numbered number content) (listing : Listing) :
    listing.load text =
      if maxLineLength < byteLength (Line.dropBreaks text.toList) then
        .error { code := .lineBufferOverflow }
      else if number ≤ maxLineNumber then .ok (listing.store ⟨number, content⟩)
      else .error Line.numberOverflow := by
  obtain ⟨digits, rest, hnumbered, hnumber, hcontent⟩ := Input.isNumbered_of_classify h
  unfold load
  rw [hnumbered.isBlank_eq_false, hnumbered.parse_eq, ← hcontent, String.ofList_toList]
  -- The shell cuts off numbers at 32 bits, which is far beyond the largest one of a line.
  by_cases hle : value digits ≤ maxLineNumber
  · have hsmall : number = value digits := by
      rw [hnumber, Nat.min_eq_left (hle.trans (by decide))]
    rw [hsmall]
    simp only [if_pos hle, Bool.false_eq_true, if_false]
    split <;> rfl
  · have hlarge : ¬number ≤ maxLineNumber := by
      rw [hnumber, Nat.not_le, Nat.lt_min]
      exact ⟨Nat.lt_of_not_le hle, by decide⟩
    simp only [if_neg hle, if_neg hlarge, Bool.false_eq_true, if_false]
    split <;> rfl

namespace Line

/-- The shell and the compiler find the number and the content of a line in its text. -/
structure ReadsBack (l : Line) : Prop where
  typed : Input.classify l.text = .numbered l.number l.content
  split : split l.text.toList = .ok (l.number, l.content.toList)
  lexed : LexedLine.lex l.text =
    match Token.lex l.content with
    | .error e => .error (e.inLine l.number)
    | .ok tokens => .ok [{ number := l.number, tokens }]

theorem lines_text {l : Line} (hbreak : HasNoBreak l.content) : lines l.text = [l.text] := by
  rw [lines, linesFrom_of_no_break (not_break_mem_text hbreak) l.text_ne_nil]
  simp

theorem readsBack_of_endsInInk {l : Line} (hnumber : l.number ≤ maxLineNumber)
    (hink : EndsInInk l.content.toList) (hbreak : HasNoBreak l.content) : l.ReadsBack where
  typed := Input.classify_text (hnumber.trans (by decide)) hink
  split := split_text hnumber
  lexed := by
    rw [LexedLine.lex, lines_text hbreak, LexedLine.lexAfter_text [] rfl, if_pos hnumber]
    rfl

end Line

section Agreement

variable {R W : Type} [NumberSystem R] {m : Type → Type} [Monad m]

theorem Shell.takeLine_of_large (storage : Storage m) (shell : Shell R W) {text content : String}
    {number : LineNumber} (h : Input.classify text = .numbered number content)
    (hlarge : maxLineNumber < number) :
    shell.takeLine storage text =
      pure (.done (.error (.command Line.numberOverflow)), shell) := by
  unfold takeLine Session.enterNumbered
  simp only [h, if_pos hlarge]

/-- What the shell takes for a numbered line is the same line for the compiler once it is written, and for the reader of
program files if it is no longer than a line may be without the line breaks at its end. A number that is too large is
refused by the shell, and by the reader of program files as well, which refuses the text for its length first. -/
theorem numbered_readers_agree (storage : Storage m) (shell : Shell R W) (listing : Listing)
    {text content : String} {number : LineNumber}
    (h : Input.classify text = .numbered number content) (hbreak : HasNoBreak text) :
    (number ≤ maxLineNumber → Line.ReadsBack ⟨number, content⟩) ∧
    (maxLineNumber < number →
      shell.takeLine storage text =
        pure (.done (.error (.command Line.numberOverflow)), shell)) ∧
    byteLength (Line.dropBreaks text.toList) ≤ byteLength text.toList ∧
    listing.load text =
      if maxLineLength < byteLength (Line.dropBreaks text.toList) then
        .error { code := .lineBufferOverflow }
      else if number ≤ maxLineNumber then .ok (listing.store ⟨number, content⟩)
      else .error Line.numberOverflow := by
  have hsuffix := Input.suffix_of_numbered h
  refine ⟨fun hnumber => ?_, shell.takeLine_of_large storage h, Line.byteLength_dropBreaks_le _,
    listing.load_of_numbered h⟩
  exact Line.readsBack_of_endsInInk (l := ⟨number, content⟩) hnumber
    (Input.endsInInk_of_suffix hsuffix) (Input.hasNoBreak_of_suffix hbreak hsuffix)

end Agreement

/-- A line with zeros in front of its number, a tab and a wide blank behind it and blanks at both ends; and a number that 32
bits do not hold. -/
theorem numbered_readers_agree_padded :
    Line.ReadsBack ⟨7, "\t\u00a0PRINT 1"⟩ ∧
    Listing.empty.load "  007\t\u00a0PRINT 1 \t" =
      .ok (Listing.empty.store ⟨7, "\t\u00a0PRINT 1"⟩) ∧
    (Shell.new {} .silent () [] : Shell Float Unit).takeLine FileTree.timeless "4294967296 END" =
      pure (.done (.error (.command Line.numberOverflow)), .new {} .silent () []) ∧
    Listing.empty.load "4294967296 END" = .error Line.numberOverflow := by
  obtain ⟨hback, -, -, hload⟩ := numbered_readers_agree FileTree.timeless
    (Shell.new {} .silent () [] : Shell Float Unit) .empty
    (show Input.classify "  007\t\u00a0PRINT 1 \t" = .numbered 7 "\t\u00a0PRINT 1" by decide +kernel)
    (show HasNoBreak "  007\t\u00a0PRINT 1 \t" by unfold HasNoBreak; decide +kernel)
  obtain ⟨-, htake, -, hrefuse⟩ := numbered_readers_agree FileTree.timeless
    (Shell.new {} .silent () [] : Shell Float Unit) .empty
    (show Input.classify "4294967296 END" = .numbered 4294967295 "END" by decide +kernel)
    (show HasNoBreak "4294967296 END" by unfold HasNoBreak; decide +kernel)
  refine ⟨hback (by decide), ?_, htake (by decide), ?_⟩
  · rw [hload, if_neg (by decide +kernel), if_pos (by decide)]
  · rw [hrefuse, if_neg (by decide +kernel), if_neg (by decide)]

/-- A remark under the first number that is too large, longer than a line of a program file may be. -/
def overlong : Line :=
  { Line.remark 1024 with number := 65530 }

theorem not_fits_overlong : ¬overlong.Fits := by
  have hcontent : byteLength overlong.content.toList = 1029 := Line.byteLength_remark 1024
  have hne : overlong.content.toList ≠ [] := (Line.isStored_remark 1024).content_ne
  rw [Line.Fits, Line.byteLength_text hne, hcontent, maxLineLength]
  omega

/-- The reader of program files refuses the line for its length and not for its number. -/
theorem load_overlong :
    Input.classify overlong.text = .numbered 65530 overlong.content ∧ HasNoBreak overlong.text ∧
    maxLineNumber < 65530 ∧
    Listing.empty.load overlong.text = .error { code := .lineBufferOverflow } ∧
    Listing.empty.load overlong.text ≠ .error Line.numberOverflow := by
  have hink : EndsInInk overlong.content.toList := (Line.isStored_remark 1024).ends_in_ink
  have hbreak : HasNoBreak overlong.text :=
    Line.not_break_mem_text (Line.isStored_remark 1024).no_break
  have htyped : Input.classify overlong.text = .numbered 65530 overlong.content :=
    Input.classify_text (l := overlong) (by decide) hink
  have hlong : maxLineLength < byteLength (Line.dropBreaks overlong.text.toList) := by
    rw [Line.dropBreaks_of_endsInInk (Line.endsInInk_text hink)]
    exact Nat.lt_of_not_le not_fits_overlong
  have hload : Listing.empty.load overlong.text = .error { code := .lineBufferOverflow } := by
    rw [Listing.load_of_numbered htyped, if_pos hlong]
  refine ⟨htyped, hbreak, by decide, hload, ?_⟩
  rw [hload]
  nofun

end LineBasic
