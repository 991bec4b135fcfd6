import Mathlib.Data.List.Forall2
import LineBasic.Proofs.Rescanning

namespace LineBasic

open Text Line

namespace Listing

/-- What the new numbers of ascending lines are like. -/
structure Ascends (start : Nat) (numbers : List LineNumber)
    (changes : List (LineNumber × LineNumber)) : Prop where
  stays : ∀ n ∉ numbers, newNumber (changes.lookup ·) n = n
  start_le : ∀ n ∈ numbers, start ≤ newNumber (changes.lookup ·) n
  ascends : ∀ n ∈ numbers, ∀ m ∈ numbers, n < m → newNumber (changes.lookup ·) n < newNumber (changes.lookup ·) m

theorem newNumber_cons_self (n new : LineNumber) (changes : List (LineNumber × LineNumber)) :
    newNumber (List.lookup · ((n, new) :: changes)) n = new := by
  rw [newNumber, List.lookup_cons_self]
  rfl

theorem newNumber_cons_of_ne {n old : LineNumber} (h : n ≠ old) (new : LineNumber)
    (changes : List (LineNumber × LineNumber)) :
    newNumber (List.lookup · ((old, new) :: changes)) n = newNumber (changes.lookup ·) n := by
  rw [newNumber, List.lookup_cons, beq_false_of_ne h]
  rfl

theorem ascends_newNumbers {start increment : Nat} {numbers : List LineNumber}
    {changes : List (LineNumber × LineNumber)} (hincrement : 0 < increment)
    (hnumbers : numbers.Pairwise (· < ·)) (h : newNumbers start increment numbers = .ok changes) :
    Ascends start numbers changes := by
  induction numbers generalizing start changes with
  | nil =>
      cases h
      exact ⟨fun n _ => rfl, nofun, nofun⟩
  | cons old rest ih =>
      obtain ⟨hfirst, hrest⟩ := List.pairwise_cons.mp hnumbers
      unfold newNumbers at h
      split at h
      · cases h
      · split at h
        · cases h
        · cases hchanges : newNumbers (start + increment) increment rest with
          | error e =>
              rw [hchanges] at h
              cases h
          | ok changes' =>
              rw [hchanges] at h
              cases h
              have hascends := ih hrest hchanges
              have hlater : ∀ n ∈ rest, newNumber (List.lookup · ((old, start) :: changes')) n = newNumber (changes'.lookup ·) n :=
                fun n hn => newNumber_cons_of_ne (Nat.ne_of_gt (hfirst n hn)) _ _
              have hstart : ∀ n ∈ rest, start < newNumber (List.lookup · ((old, start) :: changes')) n := by
                intro n hn
                have hle := hascends.start_le n hn
                rw [hlater n hn]
                omega
              refine ⟨fun n hn => ?_, ?_, ?_⟩
              · rw [List.mem_cons, not_or] at hn
                rw [newNumber_cons_of_ne hn.1]
                exact hascends.stays n hn.2
              · rw [List.forall_mem_cons, newNumber_cons_self]
                exact ⟨Nat.le_refl _, fun n hn => Nat.le_of_lt (hstart n hn)⟩
              · intro n hn m hm hlt
                rcases List.mem_cons.mp hn with rfl | hnrest
                · rcases List.mem_cons.mp hm with rfl | hmrest
                  · exact absurd hlt (Nat.lt_irrefl _)
                  · rw [newNumber_cons_self]
                    exact hstart m hmrest
                · rcases List.mem_cons.mp hm with rfl | hmrest
                  · exact absurd hlt (Nat.lt_asymm (hfirst n hnrest))
                  · rw [hlater n hnrest, hlater m hmrest]
                    exact hascends.ascends n hnrest m hmrest hlt

theorem le_getLast? {numbers : List LineNumber} (h : numbers.Pairwise (· < ·)) {n last : LineNumber}
    (hn : n ∈ numbers) (hlast : numbers.getLast? = some last) : n ≤ last := by
  obtain ⟨front, rfl⟩ := List.getLast?_eq_some_iff.mp hlast
  rcases List.mem_append.mp hn with hn | hn
  · exact Nat.le_of_lt ((List.pairwise_append.mp h).2.2 n hn last List.mem_cons_self)
  · exact Nat.le_of_eq (List.mem_singleton.mp hn)

variable {listing listing' : Listing} {start increment first : Nat}
  {changes : List (LineNumber × LineNumber)}

theorem pairwise_numbers (listing : Listing) :
    (listing.lines.map Line.number).Pairwise (· < ·) :=
  List.pairwise_map.mpr listing.ascending

theorem newNumber_lt (h : listing.renumbering start increment first = .ok changes) {n m : LineNumber}
    (hn : n ∈ listing.lines.map Line.number) (hm : m ∈ listing.lines.map Line.number) (hlt : n < m) :
    newNumber (changes.lookup ·) n < newNumber (changes.lookup ·) m := by
  have hnumbers := listing.pairwise_numbers
  unfold renumbering at h
  dsimp only at h
  split at h
  · cases h
  · rename_i hincrement
    split at h
    · cases h
    · rename_i horder
      have hascends := ascends_newNumbers (Nat.pos_of_ne_zero hincrement)
        (hnumbers.sublist List.filter_sublist) h
      have hmoved {k : LineNumber} (hk : k ∈ listing.lines.map Line.number) (hle : first ≤ k) :
          k ∈ (listing.lines.map Line.number).filter (first ≤ ·) :=
        List.mem_filter.mpr ⟨hk, decide_eq_true hle⟩
      have hstays {k : LineNumber} (hk : k < first) : newNumber (changes.lookup ·) k = k := by
        refine hascends.stays k fun hmem => ?_
        exact absurd (of_decide_eq_true (List.mem_filter.mp hmem).2) (Nat.not_le_of_lt hk)
      rcases Nat.lt_or_ge n first with hnfirst | hnfirst
      · rw [hstays hnfirst]
        rcases Nat.lt_or_ge m first with hmfirst | hmfirst
        · rwa [hstays hmfirst]
        · -- the line in front of the moved ones stays in front of them
          have hstart := hascends.start_le m (hmoved hm hmfirst)
          have hn' : n ∈ (listing.lines.map Line.number).filter (· < first) :=
            List.mem_filter.mpr ⟨hn, decide_eq_true hnfirst⟩
          obtain ⟨last, hlast⟩ := Option.isSome_iff_exists.mp
            (List.getLast?_isSome.mpr (List.ne_nil_of_mem hn'))
          have hle := le_getLast? (hnumbers.sublist List.filter_sublist) hn' hlast
          have hne : ((listing.lines.map Line.number).filter (first ≤ ·)).isEmpty = false :=
            List.isEmpty_eq_false_iff.mpr (List.ne_nil_of_mem (hmoved hm hmfirst))
          rw [hne, hlast] at horder
          simp only [Bool.not_false, Bool.true_and, Option.any_some, decide_eq_true_eq] at horder
          exact Nat.lt_of_le_of_lt hle (Nat.lt_of_lt_of_le (Nat.lt_of_not_le horder) hstart)
      · exact hascends.ascends n (hmoved hn hnfirst) m
          (hmoved hm (Nat.le_trans hnfirst (Nat.le_of_lt hlt))) hlt

theorem newNumber_injective (h : listing.renumbering start increment first = .ok changes)
    {n m : LineNumber} (hn : n ∈ listing.lines.map Line.number)
    (hm : m ∈ listing.lines.map Line.number) (heq : newNumber (changes.lookup ·) n = newNumber (changes.lookup ·) m) :
    n = m := by
  rcases Nat.lt_trichotomy n m with hlt | rfl | hlt
  · exact absurd heq (Nat.ne_of_lt (newNumber_lt h hn hm hlt))
  · rfl
  · exact absurd heq (Nat.ne_of_gt (newNumber_lt h hm hn hlt))

theorem lines_foldl_insert {f : Line → Line} {ls : List Line} {front : Listing}
    (h : (front.lines ++ ls.map f).Pairwise Line.Before) :
    (ls.foldl (fun new l => new.insert (f l)) front).lines = front.lines ++ ls.map f := by
  induction ls generalizing front with
  | nil => exact (List.append_nil _).symm
  | cons l ls ih =>
      have hplace : (front.insert (f l)).lines = front.lines ++ [f l] := by
        refine place_of_before fun k hk => ?_
        exact (List.pairwise_append.mp h).2.2 k hk (f l) List.mem_cons_self
      have hsplit : (front.insert (f l)).lines ++ ls.map f = front.lines ++ (l :: ls).map f := by
        rw [hplace, List.append_assoc]
        rfl
      rw [List.foldl_cons, ih (by rwa [hsplit]), hsplit]

/-- A renumbered program has the lines it had, each under its new number. -/
theorem lines_of_renumber (h : listing.renumber start increment first = .ok listing') :
    ∃ changes, listing.renumbering start increment first = .ok changes ∧
      listing'.lines = listing.lines.map (Line.renumber (changes.lookup ·)) := by
  unfold renumber at h
  cases hchanges : listing.renumbering start increment first with
  | error e =>
      rw [hchanges] at h
      cases h
  | ok changes =>
      rw [hchanges] at h
      cases h
      have hbefore : (listing.lines.map (Line.renumber (changes.lookup ·))).Pairwise Line.Before :=
        List.pairwise_map.mpr (listing.ascending.imp_of_mem fun hk hl hlt =>
          newNumber_lt hchanges (List.mem_map_of_mem hk) (List.mem_map_of_mem hl) hlt)
      exact ⟨changes, rfl, lines_foldl_insert hbefore⟩

end Listing

/-- A line that stays one line in the text of a program: there is no line feed in its content, and no carriage return at
the end. -/
structure Line.Unbroken (l : Line) : Prop where
  no_break : HasNoBreak l.content
  no_return : l.content.toList.getLast? ≠ some '\r'

namespace Line

variable {l : Line} {change : LineNumber → Option LineNumber} {text : String}

theorem Unbroken.renumber (h : l.Unbroken) : (l.renumber change).Unbroken where
  no_break hmem := by
    rw [Line.renumber, String.toList_ofList] at hmem
    exact h.no_break (mem_of_mem_replaceFrom (allNumbers_references l change) (by decide) hmem)
  no_return hlast := by
    rw [Line.renumber, String.toList_ofList] at hlast
    exact h.no_return (getLast?_of_replaceFrom (allNumbers_references l change) (by decide) hlast)

/-- What the compiler gets of the text of a line: all of it, but for a carriage return at the end. -/
def IsShownBy (l : Line) (text : String) : Prop :=
  text = l.text ∨ l.text.toList = text.toList ++ ['\r']

theorem getLast?_of_return (h : l.text.toList = text.toList ++ ['\r']) :
    l.content.toList.getLast? = some '\r' :=
  getLast?_of_text (by decide) (by decide) (by rw [h, List.getLast?_concat])

theorem Unbroken.eq_text (h : l.Unbroken) (hshown : l.IsShownBy text) : text = l.text :=
  hshown.resolve_right fun hreturn => h.no_return (getLast?_of_return hreturn)

theorem exists_linesFrom_text (h : HasNoBreak l.content) (rest : List Char) :
    ∃ text, l.IsShownBy text ∧
      linesFrom [] (l.text.toList ++ '\n' :: rest) = text.toList :: linesFrom [] rest := by
  have hfeed := not_break_mem_text h
  by_cases hlast : l.text.toList.getLast? = some '\r'
  · obtain ⟨cs, hcs⟩ := List.getLast?_eq_some_iff.mp hlast
    refine ⟨String.ofList cs, .inr (by rw [hcs, String.toList_ofList]), ?_⟩
    rw [linesFrom_append hfeed, hcs, List.reverse_append, List.append_nil, String.toList_ofList]
    exact congrArg (· :: _) (List.reverse_reverse cs)
  · exact ⟨l.text, .inl rfl, linesFrom_line hfeed hlast rest⟩

end Line

namespace Listing

theorem exists_linesFrom_texts {ls : List Line} (h : ∀ l ∈ ls, HasNoBreak l.content) :
    ∃ texts : List String, List.Forall₂ Line.IsShownBy ls texts ∧
      linesFrom [] ("\n".intercalate (ls.map Line.text)).toList = texts.map String.toList := by
  induction ls with
  | nil => exact ⟨[], .nil, rfl⟩
  | cons l ls ih =>
      obtain ⟨hl, hls⟩ := List.forall_mem_cons.mp h
      cases ls with
      | nil =>
          exact ⟨[l.text], .cons (.inl rfl) .nil,
            linesFrom_of_no_break (Line.not_break_mem_text hl) l.text_ne_nil⟩
      | cons l' ls =>
          obtain ⟨texts, hshown, htexts⟩ := ih hls
          obtain ⟨text, htext, hcons⟩ := Line.exists_linesFrom_text hl
            ("\n".intercalate ((l' :: ls).map Line.text)).toList
          have hsource : ("\n".intercalate ((l :: l' :: ls).map Line.text)).toList =
              l.text.toList ++ '\n' :: ("\n".intercalate ((l' :: ls).map Line.text)).toList := by
            rw [List.map_cons, List.map_cons, String.intercalate_cons_cons]
            simp
          refine ⟨text :: texts, .cons htext hshown, ?_⟩
          rw [hsource, hcons, htexts, List.map_cons]

/-- The compiler gets a line for every line of the program. -/
theorem forall₂_lines_source {listing : Listing} (h : ∀ l ∈ listing.lines, HasNoBreak l.content) :
    List.Forall₂ Line.IsShownBy listing.lines (Text.lines listing.source) := by
  obtain ⟨texts, hshown, htexts⟩ := exists_linesFrom_texts h
  have htexts : Text.lines listing.source = texts := by
    rw [Text.lines, source, htexts, List.map_map]
    simp
  rwa [htexts]

theorem lines_source {listing : Listing} (h : ∀ l ∈ listing.lines, l.Unbroken) :
    Text.lines listing.source = listing.lines.map Line.text := by
  have hshown := forall₂_lines_source fun l hl => (h l hl).no_break
  have hsame : List.Forall₂ (fun l text => l.text = text) listing.lines (Text.lines listing.source) :=
    ((List.forall₂_and_left _ _).mpr ⟨h, hshown⟩).imp fun _ _ h => (h.1.eq_text h.2).symm
  rw [← List.forall₂_map_left_iff, List.forall₂_eq_eq_eq] at hsame
  exact hsame.symm

end Listing

/-- A line is broken into the given tokens. -/
structure Line.LexesTo (l : Line) (lexed : LexedLine) : Prop where
  number_le : l.number ≤ maxLineNumber
  number : lexed.number = l.number
  tokens : Token.lex l.content = .ok lexed.tokens

namespace LexedLine

theorem numbers_of_lexesTo {ls : List Line} {lexed : List LexedLine}
    (h : List.Forall₂ Line.LexesTo ls lexed) : lexed.map number = ls.map Line.number := by
  induction h with
  | nil => rfl
  | cons hline _ ih => rw [List.map_cons, List.map_cons, hline.number, ih]

theorem lexAfter_of_split {previous : Option LineNumber} {text : String} {number : LineNumber}
    {content : List Char} (texts : List String) (hblank : isBlank text = false)
    (hsplit : Line.split text.toList = .ok (number, content)) (h : previous.any (number ≤ ·) = false) :
    lexAfter previous (text :: texts) =
      match Token.lex (String.ofList content) with
      | .error e => .error (e.inLine number)
      | .ok tokens => (lexAfter (some number) texts).map ({ number, tokens } :: ·) := by
  rw [lexAfter, hblank, hsplit]
  simp only [h, Bool.false_eq_true, if_false]
  rfl

theorem lexAfter_text {previous : Option LineNumber} {l : Line} (texts : List String)
    (h : previous.any (l.number ≤ ·) = false) :
    lexAfter previous (l.text :: texts) =
      if l.number ≤ maxLineNumber then
        match Token.lex l.content with
        | .error e => .error (e.inLine l.number)
        | .ok tokens =>
            (lexAfter (some l.number) texts).map ({ number := l.number, tokens } :: ·)
      else .error Line.numberOverflow := by
  by_cases hle : l.number ≤ maxLineNumber
  · rw [lexAfter_of_split texts l.isBlank_text (Line.split_text hle) h, if_pos hle, String.ofList_toList]
  · rw [lexAfter, Line.isBlank_text, Line.split_text_eq]
    simp only [if_neg hle]
    rfl

theorem lexAfter_texts_iff {previous : Option LineNumber} {ls : List Line} {lexed : List LexedLine}
    (hascending : ls.Pairwise Line.Before) (hprevious : ∀ m ∈ previous, ∀ l ∈ ls, m < l.number) :
    lexAfter previous (ls.map Line.text) = .ok lexed ↔ List.Forall₂ Line.LexesTo ls lexed := by
  induction ls generalizing previous lexed with
  | nil =>
      cases lexed with
      | nil => exact ⟨fun _ => .nil, fun _ => rfl⟩
      | cons line lexed => exact ⟨nofun, nofun⟩
  | cons l ls ih =>
      obtain ⟨hfirst, hrest⟩ := List.pairwise_cons.mp hascending
      have hbehind : previous.any (l.number ≤ ·) = false := by
        rw [Option.any_eq_false]
        intro m hm
        rw [decide_eq_false_iff_not]
        exact Nat.not_le_of_lt (hprevious m hm l List.mem_cons_self)
      have hlater : ∀ m ∈ some l.number, ∀ k ∈ ls, m < k.number := by
        intro m hm k hk
        cases hm
        exact hfirst k hk
      rw [List.map_cons, lexAfter_text _ hbehind]
      constructor
      · intro h
        split at h
        · rename_i hle
          cases hlex : Token.lex l.content with
          | error e =>
              rw [hlex] at h
              cases h
          | ok tokens =>
              rw [hlex] at h
              cases htail : lexAfter (some l.number) (ls.map Line.text) with
              | error e =>
                  rw [htail] at h
                  cases h
              | ok lexed' =>
                  rw [htail] at h
                  cases h
                  exact .cons ⟨hle, rfl, hlex⟩ ((ih hrest hlater).mp htail)
        · cases h
      · intro h
        cases h with
        | @cons _ line _ lexed' hline hlines =>
            rw [if_pos hline.number_le, hline.tokens, (ih hrest hlater).mpr hlines, ← hline.number]
            rfl

/-- Broken lines that differ in the columns of their tokens, the second one under new numbers. -/
structure Renumbers (change : LineNumber → Option LineNumber) (line line' : LexedLine) : Prop where
  number : line'.number = newNumber change line.number
  tokens : line'.tokens.map Prod.snd = renumberTokens change false (line.tokens.map Prod.snd)

theorem exists_lexesTo_renumber {change : LineNumber → Option LineNumber}
    (hchange : ∀ old new, change old = some new → new ≤ maxLineNumber) {ls : List Line}
    {lexed : List LexedLine} (h : List.Forall₂ Line.LexesTo ls lexed) :
    ∃ lexed', List.Forall₂ Line.LexesTo (ls.map (Line.renumber change)) lexed' ∧
      List.Forall₂ (Renumbers change) lexed lexed' := by
  induction h with
  | nil => exact ⟨[], .nil, .nil⟩
  | @cons l line ls lexed hline _ ih =>
      obtain ⟨lexed', hlexes, hrenumbers⟩ := ih
      obtain ⟨tokens', hlex, htokens⟩ := Token.lex_renumber hline.tokens
      have hle : newNumber change l.number ≤ maxLineNumber := by
        unfold newNumber
        cases hnew : change l.number with
        | none => exact hline.number_le
        | some new => exact hchange l.number new hnew
      refine ⟨⟨newNumber change l.number, tokens'⟩ :: lexed', .cons ⟨hle, rfl, hlex⟩ hlexes,
        .cons ⟨?_, htokens⟩ hrenumbers⟩
      rw [hline.number]

end LexedLine

namespace Listing

variable {listing listing' : Listing}

theorem lex_source_iff (h : ∀ l ∈ listing.lines, l.Unbroken) {lexed : List LexedLine} :
    LexedLine.lex listing.source = .ok lexed ↔ List.Forall₂ Line.LexesTo listing.lines lexed := by
  rw [LexedLine.lex, lines_source h]
  exact LexedLine.lexAfter_texts_iff listing.ascending nofun

/-- A renumbered program is broken into the tokens it had, under its new numbers. -/
theorem lex_renumber {start increment first : Nat} (hbreaks : ∀ l ∈ listing.lines, l.Unbroken)
    (hrenumber : listing.renumber start increment first = .ok listing') {lexed : List LexedLine}
    (hlex : LexedLine.lex listing.source = .ok lexed) :
    ∃ changes lexed', listing.renumbering start increment first = .ok changes ∧
      listing'.lines = listing.lines.map (Line.renumber (changes.lookup ·)) ∧
      LexedLine.lex listing'.source = .ok lexed' ∧
      List.Forall₂ (LexedLine.Renumbers (changes.lookup ·)) lexed lexed' := by
  obtain ⟨changes, hchanges, hlines⟩ := lines_of_renumber hrenumber
  have hbreaks' : ∀ l ∈ listing'.lines, l.Unbroken := by
    rw [hlines, List.forall_mem_map]
    exact fun l hl => (hbreaks l hl).renumber
  rw [lex_source_iff hbreaks] at hlex
  obtain ⟨lexed', hlexes, hrenumbers⟩ :=
    LexedLine.exists_lexesTo_renumber (le_of_renumbering hchanges) hlex
  rw [← hlines] at hlexes
  exact ⟨changes, lexed', hchanges, hlines, (lex_source_iff hbreaks').mpr hlexes, hrenumbers⟩

end Listing

end LineBasic
