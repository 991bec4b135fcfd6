import LineBasic.Listing
import LineBasic.Proofs.ScriptText

namespace LineBasic

open Text

namespace Text

theorem isBlank_ofList (cs : List Char) : isBlank (String.ofList cs) = cs.all isSpace := by
  rw [isBlank, String.toList_ofList]

theorem not_isSpace_of_isDigit {c : Char} (h : isDigit c) : isSpace c = false :=
  ((isWord_of_isDigit (List.cons_ne_nil c []) (by simpa using h)).2 c List.mem_cons_self).1

theorem not_isDigit_of_isSpace {c : Char} (h : isSpace c) : isDigit c = false := by
  cases hdigit : isDigit c with
  | false => rfl
  | true => exact absurd h (Bool.eq_false_iff.mp (not_isSpace_of_isDigit hdigit))

theorem trimLeft_digits {digits : List Char} (hdigits : ∀ c ∈ digits, isDigit c)
    (hne : digits ≠ []) (rest : List Char) : trimLeft (digits ++ rest) = digits ++ rest := by
  obtain ⟨c, cs, rfl⟩ := List.exists_cons_of_ne_nil hne
  exact trimLeft_of_head (not_isSpace_of_isDigit (hdigits c List.mem_cons_self))

/-- A text that does not end in a blank. An empty one does not, either. -/
def EndsInInk (cs : List Char) : Prop :=
  ∀ c, cs.getLast? = some c → isSpace c = false

theorem EndsInInk.trimRight_eq {cs : List Char} (h : EndsInInk cs) : trimRight cs = cs := by
  cases hlast : cs.getLast? with
  | none =>
      rw [List.getLast?_eq_none_iff.mp hlast]
      rfl
  | some c => exact trimRight_of_last hlast (h c hlast)

theorem EndsInInk.trimRight_append {cs back : List Char} (h : EndsInInk cs)
    (hback : ∀ c ∈ back, isSpace c) : trimRight (cs ++ back) = cs := by
  rw [trimRight, List.reverse_append,
    List.dropWhile_append_of_pos fun c hc => hback c (List.mem_reverse.mp hc)]
  exact h.trimRight_eq

theorem endsInInk_trimRight (cs : List Char) : EndsInInk (trimRight cs) := by
  intro c hc
  rw [trimRight, List.getLast?_reverse] at hc
  have hnot := List.head?_dropWhile_not isSpace cs.reverse
  rw [hc] at hnot
  simpa using hnot

theorem endsInInk_toDigits (n : Nat) : EndsInInk (Nat.toDigits 10 n) := by
  intro c hc
  exact not_isSpace_of_isDigit (isDigit_of_mem_toDigits (List.mem_of_getLast? hc))

theorem EndsInInk.append {cs ds : List Char} (hds : EndsInInk ds) (hne : ds ≠ []) :
    EndsInInk (cs ++ ds) := by
  intro c hc
  apply hds c
  rw [List.getLast?_append] at hc
  cases hlast : ds.getLast? with
  | none => exact absurd (List.getLast?_eq_none_iff.mp hlast) hne
  | some d =>
      rw [hlast] at hc
      exact hc

theorem EndsInInk.of_append {cs ds : List Char} (h : EndsInInk (cs ++ ds)) : EndsInInk ds := by
  intro c hc
  apply h c
  rw [List.getLast?_append, hc]
  rfl

theorem EndsInInk.suffix {cs ds : List Char} (h : EndsInInk ds) (hsuffix : cs <:+ ds) :
    EndsInInk cs := by
  obtain ⟨front, rfl⟩ := hsuffix
  exact h.of_append

theorem mem_of_mem_trimRight {c : Char} {cs : List Char} (h : c ∈ trimRight cs) : c ∈ cs := by
  rw [trimRight, List.mem_reverse] at h
  exact List.mem_reverse.mp ((List.dropWhile_sublist isSpace).mem h)

/-- A text without line feeds. -/
def HasNoBreak (text : String) : Prop :=
  '\n' ∉ text.toList

theorem not_break_mem_linesFrom {cs : List Char} : ∀ {line : List Char}, '\n' ∉ line →
    ∀ cs' ∈ linesFrom line cs, '\n' ∉ cs' := by
  induction cs with
  | nil =>
      intro line hline cs' hcs'
      rw [linesFrom] at hcs'
      split at hcs'
      · cases hcs'
      · rw [List.mem_singleton] at hcs'
        subst hcs'
        simpa using hline
  | cons c cs ih =>
      intro line hline cs' hcs'
      rw [linesFrom.eq_def] at hcs'
      dsimp only at hcs'
      split at hcs'
      · rcases List.mem_cons.mp hcs' with rfl | hmem
        · split
          · simp only [List.mem_cons, not_or] at hline
            simpa using hline.2
          · simpa using hline
        · exact ih (by simp) cs' hmem
      · rename_i hc
        refine ih ?_ cs' hcs'
        simp only [List.mem_cons, not_or]
        exact ⟨fun heq => hc heq.symm, hline⟩

theorem not_break_mem_lines {s text : String} (h : text ∈ lines s) : '\n' ∉ text.toList := by
  rw [lines, List.mem_map] at h
  obtain ⟨cs, hcs, rfl⟩ := h
  rw [String.toList_ofList]
  exact not_break_mem_linesFrom (by simp) cs hcs

end Text

namespace Line

theorem toList_toString (n : Nat) : (toString n).toList = Nat.toDigits 10 n :=
  Nat.toList_repr

def tail (l : Line) : List Char :=
  if l.content = "" then [] else ' ' :: l.content.toList

theorem toList_text (l : Line) : l.text.toList = Nat.toDigits 10 l.number ++ l.tail := by
  unfold text tail
  split
  · rw [toList_toString, List.append_nil]
  · rw [String.toList_append, String.toList_append, toList_toString]
    exact List.append_assoc _ _ _

theorem dropSeparator_tail (l : Line) : dropSeparator l.tail = l.content.toList := by
  unfold tail
  split
  · rename_i hempty
    rw [hempty]
    rfl
  · rfl

theorem head?_tail_blank (l : Line) : ∀ c, l.tail.head? = some c → isSpace c := by
  intro c hc
  unfold tail at hc
  split at hc
  · cases hc
  · rw [List.head?_cons, Option.some.injEq] at hc
    subst hc
    decide

theorem head?_tail_not_digit (l : Line) : ∀ c, l.tail.head? = some c → isDigit c = false :=
  fun c hc => not_isDigit_of_isSpace (l.head?_tail_blank c hc)

theorem exists_toDigits_cons (n : Nat) :
    ∃ c cs, Nat.toDigits 10 n = c :: cs ∧ isDigit c := by
  obtain ⟨c, cs, hcs⟩ := List.exists_cons_of_ne_nil (Nat.toDigits_ne_nil (n := n) (b := 10))
  refine ⟨c, cs, hcs, isDigit_of_mem_toDigits (n := n) ?_⟩
  rw [hcs]
  exact List.mem_cons_self

/-- A number behind blanks is found, and what is behind it, unless the number is too large. -/
theorem split_of_digits {front digits rest : List Char} (hfront : ∀ c ∈ front, isSpace c)
    (hne : digits ≠ []) (hdigits : ∀ c ∈ digits, isDigit c)
    (hrest : ∀ c, rest.head? = some c → isDigit c = false) :
    split (front ++ (digits ++ rest)) =
      if value digits ≤ maxLineNumber then .ok (value digits, dropSeparator rest)
      else .error .tooLarge := by
  have htrim : trimLeft (front ++ (digits ++ rest)) = digits ++ rest := by
    rw [trimLeft_spaces hfront, trimLeft_digits hdigits hne]
  obtain ⟨htake, hdrop⟩ := takeWhile_span hdigits hrest
  unfold split
  simp only [htrim, htake, hdrop, List.isEmpty_iff, hne, if_false]

theorem split_of_number {n : Nat} {text rest : List Char} (h : text = Nat.toDigits 10 n ++ rest)
    (hrest : ∀ c, rest.head? = some c → isDigit c = false) :
    split text = if n ≤ maxLineNumber then .ok (n, dropSeparator rest) else .error .tooLarge := by
  have hdigits : ∀ c ∈ Nat.toDigits 10 n, isDigit c := fun c hc => isDigit_of_mem_toDigits hc
  have hsplit := split_of_digits (List.forall_mem_nil _) Nat.toDigits_ne_nil hdigits hrest
  rwa [List.nil_append, ← h, value_toDigits] at hsplit

theorem isBlank_of_number {n : Nat} {text : String} {rest : List Char}
    (h : text.toList = Nat.toDigits 10 n ++ rest) : isBlank text = false := by
  obtain ⟨c, cs, hcons, hc⟩ := exists_toDigits_cons n
  rw [isBlank, h, hcons, List.cons_append, List.all_cons, not_isSpace_of_isDigit hc]
  rfl

/-- The number and the content are found again in the text of a line, unless the number is too large. -/
theorem split_text_eq (l : Line) : split l.text.toList =
    if l.number ≤ maxLineNumber then .ok (l.number, l.content.toList) else .error .tooLarge := by
  rw [split_of_number l.toList_text l.head?_tail_not_digit, dropSeparator_tail]

theorem split_text {l : Line} (h : l.number ≤ maxLineNumber) :
    split l.text.toList = .ok (l.number, l.content.toList) := by
  rw [split_text_eq, if_pos h]

theorem text_ne_nil (l : Line) : l.text.toList ≠ [] := by
  rw [toList_text]
  exact List.append_ne_nil_of_left_ne_nil Nat.toDigits_ne_nil _

theorem isBlank_text (l : Line) : isBlank l.text = false :=
  isBlank_of_number l.toList_text

/-- What makes a line one that a program file can hold, apart from its length. -/
structure IsStored (l : Line) : Prop where
  number_le : l.number ≤ maxLineNumber
  not_empty : l.isEmpty = false
  ends_in_ink : EndsInInk l.content.toList
  no_break : '\n' ∉ l.content.toList

/-- What makes a line one of a program, whatever characters are in it. -/
structure IsProper (l : Line) : Prop where
  number_le : l.number ≤ maxLineNumber
  not_empty : l.isEmpty = false
  ends_in_ink : EndsInInk l.content.toList

theorem IsStored.isProper {l : Line} (h : l.IsStored) : l.IsProper :=
  ⟨h.number_le, h.not_empty, h.ends_in_ink⟩

theorem IsProper.isStored {l : Line} (h : l.IsProper) (hbreak : '\n' ∉ l.content.toList) :
    l.IsStored :=
  ⟨h.number_le, h.not_empty, h.ends_in_ink, hbreak⟩

/-- A line is not too long for a program file. -/
def Fits (l : Line) : Prop :=
  byteLength l.text.toList ≤ maxLineLength

instance (l : Line) : Decidable l.Fits :=
  inferInstanceAs (Decidable (_ ≤ _))

theorem IsProper.content_ne {l : Line} (h : l.IsProper) : l.content.toList ≠ [] := by
  intro hnil
  have hblank := h.not_empty
  rw [isEmpty, isBlank, hnil] at hblank
  cases hblank

theorem IsStored.content_ne {l : Line} (h : l.IsStored) : l.content.toList ≠ [] :=
  h.isProper.content_ne

theorem tail_of_ne {l : Line} (h : l.content.toList ≠ []) : l.tail = ' ' :: l.content.toList := by
  rw [tail, if_neg]
  intro hempty
  exact h (by rw [hempty]; rfl)

theorem byteLength_text {l : Line} (h : l.content.toList ≠ []) :
    byteLength l.text.toList =
      byteLength (Nat.toDigits 10 l.number) + (byteLength l.content.toList + 1) := by
  have hblank : ' '.utf8Size = 1 := by decide
  rw [toList_text, tail_of_ne h, byteLength_append, byteLength_cons, hblank, Nat.add_comm 1]

theorem of_mem_text {l : Line} {c : Char} (h : c ∈ l.text.toList) :
    isDigit c ∨ c = ' ' ∨ c ∈ l.content.toList := by
  rw [toList_text, List.mem_append] at h
  rcases h with h | h
  · exact .inl (isDigit_of_mem_toDigits h)
  · unfold tail at h
    split at h
    · cases h
    · exact .inr (List.mem_cons.mp h)

/-- What the text of a line ends in, its content ends in, unless it is a digit or a blank. -/
theorem getLast?_of_text {l : Line} {c : Char} (hdigit : isDigit c = false) (hblank : c ≠ ' ')
    (h : l.text.toList.getLast? = some c) : l.content.toList.getLast? = some c := by
  rw [toList_text, List.getLast?_append, Option.or_eq_some_iff] at h
  rcases h with h | ⟨-, h⟩
  · unfold tail at h
    split at h
    · cases h
    · rw [List.getLast?_cons, Option.some.injEq] at h
      cases hlast : l.content.toList.getLast? with
      | none =>
          rw [hlast] at h
          exact absurd h.symm hblank
      | some d =>
          rw [hlast] at h
          exact congrArg some h
  · rw [isDigit_of_mem_toDigits (List.mem_of_getLast? h)] at hdigit
    cases hdigit

theorem not_break_mem_text {l : Line} (h : '\n' ∉ l.content.toList) : '\n' ∉ l.text.toList := by
  intro hmem
  rcases of_mem_text hmem with hdigit | hblank | hcontent
  · exact absurd hdigit (by decide)
  · exact absurd hblank (by decide)
  · exact h hcontent

theorem IsStored.no_break_text {l : Line} (h : l.IsStored) : '\n' ∉ l.text.toList :=
  not_break_mem_text h.no_break

theorem endsInInk_text {l : Line} (h : EndsInInk l.content.toList) : EndsInInk l.text.toList := by
  rw [toList_text]
  unfold tail
  split
  · rw [List.append_nil]
    exact endsInInk_toDigits l.number
  · rename_i hne
    rw [← List.singleton_append, ← List.append_assoc]
    exact h.append fun hnil => hne (String.toList_eq_nil_iff.mp hnil)

theorem IsStored.text_ends_in_ink {l : Line} (h : l.IsStored) : EndsInInk l.text.toList :=
  endsInInk_text h.ends_in_ink

theorem dropBreaks_of_endsInInk {cs : List Char} (h : EndsInInk cs) : dropBreaks cs = cs := by
  unfold dropBreaks
  cases hlast : cs.getLast? with
  | none =>
      rw [List.getLast?_eq_none_iff.mp hlast]
      rfl
  | some c =>
      have hnot : isBreak c = false := by
        have hc := h c hlast
        rw [isBreak, Bool.or_eq_false_iff, beq_eq_false_iff_ne, beq_eq_false_iff_ne]
        constructor <;>
        · rintro rfl
          exact absurd hc (by decide)
      obtain ⟨front, rfl⟩ := List.getLast?_eq_some_iff.mp hlast
      simp [hnot]

theorem dropBreaks_append {cs : List Char} (h : EndsInInk cs) (back : List Char) :
    dropBreaks (cs ++ back) = cs ++ dropBreaks back := by
  have hcs : (cs.reverse.dropWhile isBreak).reverse = cs := dropBreaks_of_endsInInk h
  rw [dropBreaks, dropBreaks, List.reverse_append, List.dropWhile_append]
  split
  · rename_i hback
    rw [List.isEmpty_iff.mp hback, List.reverse_nil, List.append_nil, hcs]
  · rw [List.reverse_append, List.reverse_reverse]

theorem IsStored.parse_text {l : Line} (h : l.IsStored) :
    Line.parse l.text =
      if l.Fits then .ok l else .error { code := .lineBufferOverflow } := by
  unfold Line.parse
  simp only [dropBreaks_of_endsInInk h.text_ends_in_ink, split_text h.number_le,
    h.ends_in_ink.trimRight_eq, String.ofList_toList]
  by_cases hfits : l.Fits
  · rw [if_pos hfits, if_neg (Nat.not_lt.mpr hfits)]
  · rw [if_neg hfits, if_pos (Nat.lt_of_not_le hfits)]

theorem dropSeparator_suffix (cs : List Char) : dropSeparator cs <:+ cs := by
  unfold dropSeparator
  split
  · exact List.suffix_cons _ _
  · exact List.suffix_rfl

theorem of_split {cs content : List Char} {number : LineNumber}
    (h : split cs = .ok (number, content)) : number ≤ maxLineNumber ∧ content <:+ cs := by
  unfold split at h
  dsimp only at h
  split at h
  · cases h
  · split at h
    · rename_i hle
      cases h
      refine ⟨hle, ?_⟩
      exact (dropSeparator_suffix _).trans
        ((List.dropWhile_suffix _).trans (List.dropWhile_suffix _))
    · cases h

theorem isPrefix_dropBreaks (cs : List Char) : dropBreaks cs <+: cs := by
  rw [dropBreaks, ← List.reverse_suffix, List.reverse_reverse]
  exact List.dropWhile_suffix _

/-- What the reader of program files makes of a line is proper, and has no characters of its own. -/
theorem of_parse {text : String} {l : Line} (h : Line.parse text = .ok l)
    (hempty : l.isEmpty = false) : l.IsProper ∧ ∀ c ∈ l.content.toList, c ∈ text.toList := by
  unfold Line.parse at h
  dsimp only at h
  split at h
  · cases h
  · split at h
    · cases h
    · cases h
    · rename_i number content hsplit
      obtain ⟨hnumber, hcontent⟩ := of_split hsplit
      cases h
      refine ⟨⟨hnumber, hempty, ?_⟩, fun c hc => ?_⟩
      · rw [String.toList_ofList]
        exact endsInInk_trimRight content
      · rw [String.toList_ofList] at hc
        exact (isPrefix_dropBreaks _).mem (hcontent.mem (mem_of_mem_trimRight hc))

theorem isStored_of_parse {text : String} {l : Line} (h : Line.parse text = .ok l)
    (hbreak : '\n' ∉ text.toList) (hempty : l.isEmpty = false) : l.IsStored := by
  obtain ⟨hproper, hmem⟩ := of_parse h hempty
  exact hproper.isStored fun hc => hbreak (hmem _ hc)

end Line

namespace Listing

/-- A program that a program file can hold, apart from the lengths of its lines. -/
def IsStored (listing : Listing) : Prop :=
  ∀ l ∈ listing.lines, l.IsStored

theorem linesFrom_text {l : Line} (h : l.IsStored) (rest : List Char) :
    linesFrom [] (l.text.toList ++ '\n' :: rest) = l.text.toList :: linesFrom [] rest :=
  linesFrom_line h.no_break_text
    (fun hlast => absurd (h.text_ends_in_ink '\r' hlast) (by decide)) rest

/-- A program file has a line for every line of the program. -/
theorem lines_text {listing : Listing} (h : listing.IsStored) :
    Text.lines listing.text = listing.lines.map Line.text := by
  have htoList : listing.text.toList = listing.lines.flatMap fun l => l.text.toList ++ ['\n'] := by
    rw [text, String.toList_join, List.flatMap_map]
    simp
  have hlines : ∀ ls : List Line, (∀ l ∈ ls, l.IsStored) →
      linesFrom [] (ls.flatMap fun l => l.text.toList ++ ['\n']) =
        ls.map fun l => l.text.toList := by
    intro ls
    induction ls with
    | nil => intro _; rfl
    | cons l ls ih =>
        intro hls
        rw [List.forall_mem_cons] at hls
        rw [List.flatMap_cons, List.append_assoc, List.singleton_append, linesFrom_text hls.1,
          ih hls.2, List.map_cons]
  rw [Text.lines, htoList, hlines listing.lines h, List.map_map]
  simp

theorem place_of_before {l : Line} {ks : List Line} (h : ∀ k ∈ ks, k.Before l) :
    place l ks = ks ++ [l] := by
  induction ks with
  | nil => rfl
  | cons k ks ih =>
      rw [List.forall_mem_cons] at h
      have hlt : k.number < l.number := h.1
      rw [place, if_neg (Nat.lt_asymm hlt), if_neg (Nat.ne_of_gt hlt), ih h.2]
      rfl

theorem load_text {l : Line} (h : l.IsStored) (listing : Listing) :
    listing.load l.text =
      if l.Fits then .ok (listing.insert l) else .error { code := .lineBufferOverflow } := by
  unfold load
  rw [Line.isBlank_text, h.parse_text]
  split
  · contradiction
  · split
    · show Except.ok (listing.store l) = _
      rw [store, h.not_empty]
      rfl
    · rfl

theorem loadFrom_map_text {listing : Listing} (h : listing.IsStored) (index : Nat)
    {front : Listing} {ls : List Line} (hlines : listing.lines = front.lines ++ ls) :
    loadFrom index front (ls.map Line.text) = .ok listing ↔ ∀ l ∈ ls, l.Fits := by
  induction ls generalizing index front with
  | nil =>
      have heq : front = listing := eq_of_lines (by rw [hlines, List.append_nil])
      simp [loadFrom, heq]
  | cons l ls ih =>
      have hl : l ∈ listing.lines := by
        rw [hlines]
        simp
      rw [List.map_cons, loadFrom, load_text (h l hl), List.forall_mem_cons]
      by_cases hfits : l.Fits
      · have hbefore : ∀ k ∈ front.lines, k.Before l := by
          have hascending := listing.ascending
          rw [hlines, List.pairwise_append] at hascending
          intro k hk
          exact hascending.2.2 k hk l List.mem_cons_self
        have hfront : listing.lines = (front.insert l).lines ++ ls := by
          show listing.lines = place l front.lines ++ ls
          rw [place_of_before hbefore, hlines, List.append_assoc]
          rfl
        rw [if_pos hfits, ih (index + 1) hfront, and_iff_right hfits]
      · rw [if_neg hfits]
        simp [hfits]

/-- A program is read back from its own text if and only if none of its lines is too long. -/
theorem read_text_iff {listing : Listing} (h : listing.IsStored) :
    read listing.text = .ok listing ↔ ∀ l ∈ listing.lines, l.Fits := by
  rw [read, lines_text h]
  exact loadFrom_map_text h 1 rfl

def Each (P : Line → Prop) (listing : Listing) : Prop :=
  ∀ l ∈ listing.lines, P l

section Each

variable {P : Line → Prop} {listing listing' : Listing}

theorem each_empty : empty.Each P := by
  intro l hl
  cases hl

theorem Each.keep (h : listing.Each P) (condition : Line → Bool) :
    (listing.keep condition).Each P := by
  intro l hl
  exact h l (List.mem_filter.mp hl).1

theorem Each.insert (h : listing.Each P) {l : Line} (hl : P l) : (listing.insert l).Each P := by
  intro k hk
  rcases mem_place hk with rfl | hk
  · exact hl
  · exact h k hk

theorem Each.store (h : listing.Each P) {l : Line} (hl : l.isEmpty = false → P l) :
    (listing.store l).Each P := by
  unfold Listing.store
  split
  · exact h.keep _
  · rename_i hempty
    exact h.insert (hl (Bool.eq_false_iff.mpr hempty))

theorem Each.load (h : listing.Each P) {text : String}
    (hparse : ∀ l, Line.parse text = .ok l → l.isEmpty = false → P l)
    (hload : listing.load text = .ok listing') : listing'.Each P := by
  unfold Listing.load at hload
  split at hload
  · cases hload
    exact h
  · cases hline : Line.parse text with
    | error e =>
        rw [hline] at hload
        cases hload
    | ok l =>
        rw [hline] at hload
        cases hload
        exact h.store (hparse l hline)

theorem Each.loadFrom {index : Nat} {texts : List String} (h : listing.Each P)
    (hparse : ∀ text ∈ texts, ∀ l, Line.parse text = .ok l → l.isEmpty = false → P l)
    (hload : loadFrom index listing texts = .ok listing') : listing'.Each P := by
  induction texts generalizing index listing with
  | nil =>
      cases hload
      exact h
  | cons text rest ih =>
      rw [List.forall_mem_cons] at hparse
      unfold Listing.loadFrom at hload
      split at hload
      · rename_i listing₁ hfirst
        exact ih (h.load hparse.1 hfirst) hparse.2 hload
      · cases hload

theorem each_of_read {text : String}
    (hparse : ∀ line, '\n' ∉ line.toList → ∀ l, Line.parse line = .ok l → l.isEmpty = false → P l)
    (h : read text = .ok listing) : listing.Each P :=
  each_empty.loadFrom (fun line hline => hparse line (not_break_mem_lines hline)) h

theorem Each.foldl_insert (h : listing.Each P) {f : Line → Line} {ls : List Line}
    (hls : ∀ l ∈ ls, P (f l)) : (ls.foldl (fun new l => new.insert (f l)) listing).Each P := by
  induction ls generalizing listing with
  | nil => exact h
  | cons l ls ih =>
      rw [List.forall_mem_cons] at hls
      exact ih (h.insert hls.1) hls.2

end Each

theorem IsStored.store {listing : Listing} (h : listing.IsStored) {l : Line}
    (hl : l.isEmpty = false → l.IsStored) : (listing.store l).IsStored :=
  Each.store h hl

theorem isStored_empty : empty.IsStored :=
  each_empty

theorem IsStored.keep {listing : Listing} (h : listing.IsStored) (condition : Line → Bool) :
    (listing.keep condition).IsStored :=
  Each.keep h condition

theorem isStored_of_read {text : String} {listing : Listing} (h : read text = .ok listing) :
    listing.IsStored :=
  each_of_read (fun _ hbreak _ hparse hempty => Line.isStored_of_parse hparse hbreak hempty) h

end Listing

namespace Line

theorem splitBytes_append (count : Nat) (cs : List Char) :
    (splitBytes count cs).1 ++ (splitBytes count cs).2 = cs := by
  induction cs generalizing count with
  | nil => rfl
  | cons c cs ih =>
      unfold splitBytes
      split
      · rfl
      · dsimp only
        rw [List.cons_append, ih]

theorem replaceFrom_cons (start : Nat) (column : Column) (new : String)
    (edits : List (Column × String)) (cs : List Char) :
    ∃ front rest, (∃ old, front ++ (old ++ rest) = cs) ∧
      replaceFrom start ((column, new) :: edits) cs =
        front ++ (new.toList ++ replaceFrom column.stop edits rest) := by
  refine ⟨(splitBytes (column.start - start) cs).1,
    (splitBytes (column.stop - column.start) (splitBytes (column.start - start) cs).2).2,
    ⟨(splitBytes (column.stop - column.start) (splitBytes (column.start - start) cs).2).1, ?_⟩, ?_⟩
  · rw [splitBytes_append, splitBytes_append]
  · rw [← List.append_assoc]
    rfl

def AllNumbers (edits : List (Column × String)) : Prop :=
  ∀ edit ∈ edits, ∃ n : Nat, edit.2.toList = Nat.toDigits 10 n

section Replacing

variable {edits : List (Column × String)}

/-- Nothing but digits is new. -/
theorem mem_of_mem_replaceFrom (hedits : AllNumbers edits) {start : Nat} {cs : List Char} {c : Char}
    (hc : isDigit c = false) (h : c ∈ replaceFrom start edits cs) : c ∈ cs := by
  induction edits generalizing start cs with
  | nil => exact h
  | cons edit edits ih =>
      obtain ⟨⟨n, hnew⟩, hedits⟩ := List.forall_mem_cons.mp hedits
      obtain ⟨front, rest, ⟨old, rfl⟩, heq⟩ := replaceFrom_cons start edit.1 edit.2 edits cs
      rw [heq, hnew, List.mem_append, List.mem_append] at h
      rw [List.mem_append, List.mem_append]
      rcases h with h | h | h
      · exact .inl h
      · rw [isDigit_of_mem_toDigits h] at hc
        cases hc
      · exact .inr (.inr (ih hedits h))

theorem replaceFrom_ne_nil (hedits : AllNumbers edits) (start : Nat) {cs : List Char}
    (h : cs ≠ []) : replaceFrom start edits cs ≠ [] := by
  cases edits with
  | nil => exact h
  | cons edit edits =>
      obtain ⟨n, hnew⟩ := hedits edit List.mem_cons_self
      obtain ⟨front, rest, -, heq⟩ := replaceFrom_cons start edit.1 edit.2 edits cs
      rw [heq, hnew]
      simp [Nat.toDigits_ne_nil]

/-- What the text ends in then, it ended in before, unless it is a digit. -/
theorem getLast?_of_replaceFrom (hedits : AllNumbers edits) {start : Nat} {cs : List Char} {c : Char}
    (hc : isDigit c = false) (h : (replaceFrom start edits cs).getLast? = some c) :
    cs.getLast? = some c := by
  induction edits generalizing start cs with
  | nil => exact h
  | cons edit edits ih =>
      obtain ⟨⟨n, hnew⟩, hedits⟩ := List.forall_mem_cons.mp hedits
      obtain ⟨front, rest, ⟨old, rfl⟩, heq⟩ := replaceFrom_cons start edit.1 edit.2 edits cs
      rw [heq, hnew, ← List.append_assoc, List.getLast?_append, Option.or_eq_some_iff] at h
      rcases h with h | ⟨-, h⟩
      · rw [List.getLast?_append, List.getLast?_append, ih hedits h]
        rfl
      · rw [List.getLast?_append_of_ne_nil _ Nat.toDigits_ne_nil] at h
        rw [isDigit_of_mem_toDigits (List.mem_of_getLast? h)] at hc
        cases hc

theorem endsInInk_replaceFrom (hedits : AllNumbers edits) (start : Nat) {cs : List Char}
    (h : EndsInInk cs) : EndsInInk (replaceFrom start edits cs) := by
  intro c hc
  cases hdigit : isDigit c with
  | true => exact not_isSpace_of_isDigit hdigit
  | false => exact h c (getLast?_of_replaceFrom hedits hdigit hc)

end Replacing

theorem not_isBlank_of_endsInInk {cs : List Char} (h : EndsInInk cs) (hne : cs ≠ []) :
    isBlank (String.ofList cs) = false := by
  rw [isBlank_ofList, List.all_eq_false]
  refine ⟨cs.getLast hne, List.getLast_mem hne, ?_⟩
  rw [h _ (List.getLast?_eq_some_getLast hne)]
  decide

theorem allNumbers_references (l : Line) (change : LineNumber → Option LineNumber) :
    AllNumbers (l.references.filterMap fun (column, old) =>
      (change old).map fun new => (column, toString new)) := by
  intro edit hedit
  obtain ⟨⟨column, old⟩, -, hmap⟩ := List.mem_filterMap.mp hedit
  obtain ⟨new, -, rfl⟩ := Option.map_eq_some_iff.mp hmap
  exact ⟨new, toList_toString new⟩

theorem IsProper.renumber {l : Line} (h : l.IsProper) {change : LineNumber → Option LineNumber}
    (hchange : ∀ old new, change old = some new → new ≤ maxLineNumber) :
    (l.renumber change).IsProper := by
  have hedits := allNumbers_references l change
  have hink := endsInInk_replaceFrom hedits 0 h.ends_in_ink
  refine ⟨?_, not_isBlank_of_endsInInk hink (replaceFrom_ne_nil hedits 0 h.content_ne), ?_⟩
  · show (change l.number).getD l.number ≤ maxLineNumber
    cases hnew : change l.number with
    | none => exact h.number_le
    | some new => exact hchange l.number new hnew
  · show EndsInInk (String.toList (String.ofList _))
    rw [String.toList_ofList]
    exact hink

theorem IsStored.renumber {l : Line} (h : l.IsStored) {change : LineNumber → Option LineNumber}
    (hchange : ∀ old new, change old = some new → new ≤ maxLineNumber) :
    (l.renumber change).IsStored := by
  refine (h.isProper.renumber hchange).isStored ?_
  show '\n' ∉ String.toList (String.ofList _)
  rw [String.toList_ofList]
  exact fun hmem =>
    h.no_break (mem_of_mem_replaceFrom (allNumbers_references l change) (by decide) hmem)

end Line

namespace Listing

theorem le_of_newNumbers {start increment : Nat} {numbers : List LineNumber}
    {changes : List (LineNumber × LineNumber)} (h : newNumbers start increment numbers = .ok changes) :
    ∀ change ∈ changes, change.2 ≤ maxLineNumber := by
  induction numbers generalizing start changes with
  | nil =>
      cases h
      simp
  | cons old rest ih =>
      unfold newNumbers at h
      split at h
      · cases h
      · split at h
        · cases h
        · rename_i hstart _
          cases hrest : newNumbers (start + increment) increment rest with
          | error e =>
              rw [hrest] at h
              cases h
          | ok changes' =>
              rw [hrest] at h
              cases h
              rw [List.forall_mem_cons]
              exact ⟨Nat.le_of_not_lt hstart, ih hrest⟩

theorem le_of_renumbering {listing : Listing} {start increment first : Nat}
    {changes : List (LineNumber × LineNumber)}
    (h : listing.renumbering start increment first = .ok changes) :
    ∀ old new, changes.lookup old = some new → new ≤ maxLineNumber := by
  unfold renumbering at h
  dsimp only at h
  split at h
  · cases h
  · split at h
    · cases h
    · intro old new hlookup
      obtain ⟨front, back, hsplit, -⟩ := List.lookup_eq_some_iff.mp hlookup
      refine le_of_newNumbers h (old, new) ?_
      rw [hsplit]
      simp

theorem Each.renumber {P : Line → Prop} {listing listing' : Listing} (h : listing.Each P)
    (hrenumber : ∀ l change, P l → (∀ old new, change old = some new → new ≤ maxLineNumber) →
      P (l.renumber change))
    {start increment first : Nat} (h' : listing.renumber start increment first = .ok listing') :
    listing'.Each P := by
  unfold Listing.renumber at h'
  cases hchanges : listing.renumbering start increment first with
  | error e =>
      rw [hchanges] at h'
      cases h'
  | ok changes =>
      rw [hchanges] at h'
      cases h'
      exact each_empty.foldl_insert fun l hl =>
        hrenumber l _ (h l hl) (le_of_renumbering hchanges)

theorem IsStored.renumber {listing listing' : Listing} (h : listing.IsStored)
    {start increment first : Nat} (hrenumber : listing.renumber start increment first = .ok listing') :
    listing'.IsStored :=
  Each.renumber h (fun _ _ hl hchange => Line.IsStored.renumber hl hchange) hrenumber

end Listing

end LineBasic
