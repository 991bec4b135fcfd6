import LineBasic.Script
import LineBasic.Proofs.Coherence
import LineBasic.Proofs.Spelling

namespace LineBasic

open Text

variable {R T : Type} [NumberSystem R]

def Value.reread : Value R → Value R
  | number n => number ((NumberSystem.read? (NumberSystem.write n)).getD n)
  | string s => string s

theorem NumberSystem.read?_write (n : R) :
    read? (write n) = some ((read? (write n)).getD n) := by
  have hsome : (read? (write n) : Option R).isSome := by
    rw [read?, write, Option.isSome_map]
    exact Numeral.read?_text_isSome _
  obtain ⟨m, hm⟩ := Option.isSome_iff_exists.mp hsome
  rw [hm, Option.getD_some]

namespace Instruction

def reread : Instruction R T → Instruction R T
  | literal v => literal v.reread
  | i => i

/-- An instruction that can be read from its text: its operands are words, and
its numbers are small enough. -/
def Writable : Instruction R String → Prop
  | label name | push name | pop name | jump name | ifNot name | gosub name =>
      IsWord name.toList
  | line number => number ≤ maxWord32
  | next var limit step body =>
      IsWord var.toList ∧ IsWord limit.toList ∧ IsWord step.toList ∧ IsWord body.toList
  | call name count | exec name count => IsWord name.toList ∧ count ≤ maxWord64
  | literal _ | .return | .end | unary _ | binary _ => True

/-- A text that does not end in a colon. What ends in one is read as a label. -/
def EndsNoLabel (cs : List Char) : Prop :=
  cs.getLast? ≠ some ':'

/-- An instruction that can be read from some text: there are no blanks in its names, its last one
does not end in a colon, and its numbers are small enough. -/
def Legible : Instruction R String → Prop
  | label name => IsSolid name.toList
  | push name | pop name | jump name | ifNot name | gosub name =>
      IsSolid name.toList ∧ EndsNoLabel name.toList
  | line number => number ≤ maxWord32
  | next var limit step body =>
      IsSolid var.toList ∧ IsSolid limit.toList ∧ IsSolid step.toList ∧ IsSolid body.toList ∧
        EndsNoLabel body.toList
  | call name count | exec name count => IsSolid name.toList ∧ count ≤ maxWord64
  | literal _ | .return | .end | unary _ | binary _ => True

theorem endsNoLabel_of_isWord {cs : List Char} (h : IsWord cs) : EndsNoLabel cs := fun hlast =>
  (h.2 ':' (List.mem_of_getLast? hlast)).2.1 rfl

omit [NumberSystem R] in
theorem Writable.legible {i : Instruction R String} (h : i.Writable) : i.Legible := by
  cases i with
  | label name => exact h.isSolid
  | next var limit step body =>
      obtain ⟨hvar, hlimit, hstep, hbody⟩ := h
      exact ⟨hvar.isSolid, hlimit.isSolid, hstep.isSolid, hbody.isSolid,
        endsNoLabel_of_isWord hbody⟩
  | call name count | exec name count => exact ⟨h.1.isSolid, h.2⟩
  | push name | pop name | jump name | ifNot name | gosub name =>
      exact ⟨h.isSolid, endsNoLabel_of_isWord h⟩
  | _ => exact h

/-- The word and the operands of an instruction, unless it is a label or a
literal. -/
def parts? : Instruction R String → Option (String × List String)
  | label _ | literal _ => none
  | line number => some (".LINE", [toString number])
  | push name => some ("PUSH", [name])
  | pop name => some ("POP", [name])
  | jump t => some ("JUMP", [t])
  | ifNot t => some ("IFNOT", [t])
  | gosub t => some ("GOSUB", [t])
  | .return => some ("RETURN", [])
  | next var limit step t => some ("NEXT", [var, limit, step, t])
  | .end => some ("END", [])
  | call name count => some ("CALL", [name, toString count])
  | exec name count => some ("EXEC", [name, toString count])
  | unary op => some (unaryWord op, [])
  | binary op => some (binaryWord op, [])

theorem toList_text_of_parts? {i : Instruction R String} {word : String}
    {operands : List String} (h : i.parts? = some (word, operands)) :
    (i.text id).toList = word.toList ++ spaced operands := by
  cases i with
  | label name | literal v => cases h
  | _ =>
      cases h
      simp [text, spaced]

omit [NumberSystem R] in
theorem isWord_of_parts? {i : Instruction R String} {word : String} {operands : List String}
    (h : i.parts? = some (word, operands)) : IsWord word.toList ∧ word ≠ "LIT" := by
  cases i with
  | label name | literal v => cases h
  | unary op =>
      cases h
      cases op <;> exact ⟨⟨by decide, by decide⟩, by decide⟩
  | binary op =>
      cases h
      cases op <;> exact ⟨⟨by decide, by decide⟩, by decide⟩
  | _ =>
      cases h
      exact ⟨⟨by decide, by decide⟩, by decide⟩

theorem isWord_toString (n : Nat) : IsWord (toString n).toList := by
  rw [show (toString n).toList = Nat.toDigits 10 n from Nat.toList_repr]
  exact isWord_of_isDigit Nat.toDigits_ne_nil fun c hc => isDigit_of_mem_toDigits hc

omit [NumberSystem R] in
theorem Legible.isSolid_operands {i : Instruction R String} (hi : i.Legible) {word : String}
    {operands : List String} (h : i.parts? = some (word, operands)) :
    ∀ operand ∈ operands, IsSolid operand.toList := by
  cases i with
  | label name | literal v => cases h
  | line number =>
      cases h
      simpa using (isWord_toString number).isSolid
  | next var limit step body =>
      cases h
      obtain ⟨hvar, hlimit, hstep, hbody, -⟩ := hi
      simp [hvar, hlimit, hstep, hbody]
  | call name count | exec name count =>
      cases h
      rw [List.forall_mem_cons, List.forall_mem_singleton]
      exact ⟨hi.1, (isWord_toString count).isSolid⟩
  | «return» | «end» | unary op | binary op =>
      cases h
      simp
  | _ =>
      cases h
      simpa using hi.1

omit [NumberSystem R] in
theorem Legible.endsNoLabel {i : Instruction R String} (hi : i.Legible) {word : String}
    {operands : List String} (h : i.parts? = some (word, operands)) :
    ∀ operand, operands.getLast? = some operand → EndsNoLabel operand.toList := by
  rintro operand hlast
  cases i with
  | label name | literal v => cases h
  | line number =>
      cases h
      cases hlast
      exact endsNoLabel_of_isWord (isWord_toString number)
  | next var limit step body =>
      cases h
      cases hlast
      exact hi.2.2.2.2
  | call name count | exec name count =>
      cases h
      cases hlast
      exact endsNoLabel_of_isWord (isWord_toString count)
  | «return» | «end» | unary op | binary op =>
      cases h
      cases hlast
  | _ =>
      cases h
      cases hlast
      exact hi.2

omit [NumberSystem R] in
theorem Legible.ofWords?_eq {i : Instruction R String} (hi : i.Legible) {word : String}
    {operands : List String} (h : i.parts? = some (word, operands)) :
    ofWords? word operands = some i := by
  cases i with
  | label name | literal v => cases h
  | line number =>
      cases h
      rw [ofWords?, readNat?_toString hi]
      rfl
  | call name count | exec name count =>
      cases h
      rw [ofWords?, readNat?_toString hi.2]
      rfl
  | unary op | binary op =>
      cases h
      cases op <;> rfl
  | _ =>
      cases h
      rfl

/-- A text that no blanks surround is read as an instruction. -/
structure Spells (cs : List Char) (i : Instruction R String) : Prop where
  isTrim : IsTrim cs
  readTrimmed?_eq : readTrimmed? cs = some i

/-- A text that is read as an instruction, and can stand on a line of a script. -/
structure Reads (cs : List Char) (i : Instruction R String) : Prop extends Spells cs i where
  head_ne : cs.head? ≠ some ';'
  no_break : '\n' ∉ cs

theorem exists_head {cs : List Char} (h : IsWord cs) (rest : List Char) :
    ∃ c, (cs ++ rest).head? = some c ∧ isSpace c = false ∧ c ≠ ';' := by
  obtain ⟨hne, hall⟩ := h
  obtain ⟨c, cs, rfl⟩ := List.exists_cons_of_ne_nil hne
  exact ⟨c, rfl, (hall c List.mem_cons_self).1, (hall c List.mem_cons_self).2.2⟩

theorem exists_last {cs : List Char} (h : IsSolid cs) (hends : EndsNoLabel cs)
    (front : List Char) :
    ∃ c, (front ++ cs).getLast? = some c ∧ isSpace c = false ∧ c ≠ ':' := by
  obtain ⟨hne, hall⟩ := h
  have hlast := List.getLast?_eq_some_getLast hne
  refine ⟨cs.getLast hne, ?_, hall _ (List.getLast_mem hne), ?_⟩
  · rw [List.getLast?_append, hlast, Option.some_or]
  · intro hcolon
    exact hends (hcolon ▸ hlast)

theorem not_mem_of_isSolid {cs : List Char} (h : IsSolid cs) {c : Char} (hc : isSpace c) :
    c ∉ cs := by
  intro hmem
  rw [h.2 c hmem] at hc
  cases hc

theorem takeWhile_word {word : List Char} (h : IsSolid word) {rest : List Char}
    (hrest : rest = [] ∨ ∃ cs, rest = ' ' :: cs) :
    (word ++ rest).takeWhile (· != ' ') = word ∧ (word ++ rest).dropWhile (· != ' ') = rest := by
  have hword : ∀ c ∈ word, (c != ' ') = true := by
    intro c hc
    rw [bne_iff_ne]
    rintro rfl
    exact not_mem_of_isSolid h (by decide) hc
  refine takeWhile_span hword ?_
  rcases hrest with rfl | ⟨cs, rfl⟩ <;> simp

theorem spaced_eq (operands : List String) :
    spaced operands = [] ∨ ∃ cs, spaced operands = ' ' :: cs := by
  cases operands with
  | nil => exact .inl rfl
  | cons operand operands => exact .inr ⟨_, rfl⟩

theorem exists_last_spaced {word : List Char} (hword : IsWord word) {operands : List String}
    (h : ∀ operand ∈ operands, IsSolid operand.toList)
    (hends : ∀ operand, operands.getLast? = some operand → EndsNoLabel operand.toList) :
    ∃ c, (word ++ spaced operands).getLast? = some c ∧ isSpace c = false ∧ c ≠ ':' := by
  rcases List.eq_nil_or_concat operands with rfl | ⟨front, last, rfl⟩
  · have hlast := exists_last hword.isSolid (endsNoLabel_of_isWord hword) []
    rwa [spaced, List.flatMap_nil, List.append_nil]
  · have hlast := exists_last (h last (by simp)) (hends last (by simp))
      (word ++ spaced front ++ [' '])
    simpa [spaced, List.append_assoc] using hlast

theorem not_break_mem_spaced {operands : List String}
    (h : ∀ operand ∈ operands, IsSolid operand.toList) : '\n' ∉ spaced operands := by
  rw [spaced, List.mem_flatMap]
  rintro ⟨operand, hoperand, hmem⟩
  rcases List.mem_cons.mp hmem with hblank | hmem
  · exact absurd hblank (by decide)
  · exact not_mem_of_isSolid (h operand hoperand) (by decide) hmem

theorem reads_of_parts? {i : Instruction R String} (hi : i.Legible) {word : String}
    {operands : List String} (h : i.parts? = some (word, operands)) :
    Reads (i.text id).toList i := by
  obtain ⟨hword, hlit⟩ := isWord_of_parts? h
  have hoperands := hi.isSolid_operands h
  rw [toList_text_of_parts? h]
  obtain ⟨c, hhead, hc, hsemicolon⟩ := exists_head hword (spaced operands)
  obtain ⟨d, hlast, hd, hcolon⟩ := exists_last_spaced hword hoperands (hi.endsNoLabel h)
  refine ⟨⟨⟨⟨c, hhead, hc⟩, d, hlast, hd⟩, ?_⟩, ?_, ?_⟩
  · obtain ⟨htake, hdrop⟩ := takeWhile_word hword.isSolid (spaced_eq operands)
    rw [readTrimmed?, hlast, if_neg (by simpa using hcolon), htake, hdrop, String.ofList_toList]
    dsimp only
    rw [if_neg hlit, words_trim, words_spaced hoperands, hi.ofWords?_eq h]
  · rw [hhead]
    simpa using hsemicolon
  · rw [List.mem_append, not_or]
    exact ⟨not_mem_of_isSolid hword.isSolid (by decide), not_break_mem_spaced hoperands⟩

theorem toList_text_label (name : String) :
    ((label name : Instruction R String).text id).toList = name.toList ++ [':'] := by
  simp [text]

theorem spells_label {name : String} (h : IsSolid name.toList) :
    Spells ((label name : Instruction R String).text id).toList
      (label name : Instruction R String) := by
  obtain ⟨c, rest, hname⟩ := List.exists_cons_of_ne_nil h.1
  have hc : isSpace c = false := h.2 c (hname ▸ List.mem_cons_self)
  have hlast : (name.toList ++ [':']).getLast? = some ':' := by simp
  rw [toList_text_label]
  refine ⟨⟨⟨c, by rw [hname]; rfl, hc⟩, ':', hlast, by decide⟩, ?_⟩
  have hspace : name.toList.any isSpace = false := by
    rw [List.any_eq_false]
    intro c hc
    simp [h.2 c hc]
  have hempty : name.toList.isEmpty = false := by simpa using h.1
  rw [readTrimmed?, hlast, if_pos rfl, List.dropLast_concat]
  simp [hspace, hempty]

theorem reads_label {name : String} (h : IsWord name.toList) :
    Reads ((label name : Instruction R String).text id).toList
      (label name : Instruction R String) := by
  refine ⟨spells_label h.isSolid, ?_, ?_⟩
  · obtain ⟨c, hhead, -, hsemicolon⟩ := exists_head h [':']
    rw [toList_text_label, hhead]
    simpa using hsemicolon
  · rw [toList_text_label, List.mem_append, not_or]
    exact ⟨not_mem_of_isSolid h.isSolid (by decide), by decide⟩

theorem not_break_mem_encode (cs : List Char) : '\n' ∉ Quoted.encode cs := by
  induction cs with
  | nil => simp [Quoted.encode]
  | cons c cs ih =>
      rw [Quoted.encode, List.mem_append, not_or]
      refine ⟨?_, ih⟩
      unfold Quoted.encodeChar
      split <;> simp_all [eq_comm]

theorem toList_write (s : String) :
    (Quoted.write s).toList = '"' :: (Quoted.encode s.toList ++ ['"']) := by
  simp [Quoted.write]

theorem isTrim_literalText (v : Value R) :
    IsTrim (literalText v).toList ∧ '\n' ∉ (literalText v).toList ∧
      (literalText v).toList.getLast? ≠ some ':' := by
  cases v with
  | number n =>
      have hword : IsWord (literalText (.number n : Value R)).toList := by
        rw [literalText, NumberSystem.write, Numeral.text, String.toList_ofList]
        exact Numeral.isWord_of_isNumeric (Numeral.spelling_ne_nil _)
          (Numeral.isNumeric_spelling _)
      obtain ⟨c, hhead, hc, -⟩ := exists_head hword []
      obtain ⟨d, hlast, hd, hcolon⟩ := exists_last hword.isSolid (endsNoLabel_of_isWord hword) []
      rw [List.append_nil] at hhead
      rw [List.nil_append] at hlast
      refine ⟨⟨⟨c, hhead, hc⟩, d, hlast, hd⟩, not_mem_of_isSolid hword.isSolid (by decide), ?_⟩
      rw [hlast]
      simpa using hcolon
  | string s =>
      have hlast : ('"' :: (Quoted.encode s.toList ++ ['"'])).getLast? = some '"' := by
        simp [List.getLast?_cons]
      rw [literalText, toList_write]
      refine ⟨⟨⟨'"', rfl, by decide⟩, '"', hlast, by decide⟩, ?_, by rw [hlast]; decide⟩
      simp [not_break_mem_encode]

theorem readLiteral?_literalText (v : Value R) :
    readLiteral? (literalText v).toList = some v.reread := by
  cases v with
  | number n =>
      have hread := NumberSystem.read?_write n
      have hquote : '"' ∉ (literalText (.number n : Value R)).toList := by
        rw [literalText, NumberSystem.write, Numeral.text, String.toList_ofList]
        intro hmem
        exact absurd (Numeral.isNumeric_spelling _ _ hmem) (by decide)
      rw [readLiteral?.eq_def]
      split
      · rename_i rest heq
        exact absurd (heq ▸ List.mem_cons_self) hquote
      · rw [String.ofList_toList, literalText, hread]
        rfl
  | string s =>
      rw [literalText, toList_write, readLiteral?, Quoted.read?]
      simp [Quoted.decode?_encode, Value.reread]

theorem reads_literal (v : Value R) :
    Reads ((literal v : Instruction R String).text id).toList (literal v.reread) := by
  have htext : ((literal v : Instruction R String).text id).toList =
      "LIT".toList ++ ' ' :: (literalText v).toList := by
    simp [text]
  obtain ⟨htrim, hbreak, hcolon⟩ := isTrim_literalText v
  obtain ⟨c, hlast, hc⟩ := htrim.last
  have hlast' : ("LIT".toList ++ ' ' :: (literalText v).toList).getLast? = some c := by
    rw [List.getLast?_append, List.getLast?_cons, hlast]
    rfl
  have hlit : IsWord "LIT".toList := ⟨by decide, by decide⟩
  obtain ⟨d, hhead, hd, hsemicolon⟩ := exists_head hlit (' ' :: (literalText v).toList)
  rw [htext]
  refine ⟨⟨⟨⟨d, hhead, hd⟩, c, hlast', hc⟩, ?_⟩, ?_, ?_⟩
  · obtain ⟨htake, hdrop⟩ := takeWhile_word hlit.isSolid (.inr ⟨(literalText v).toList, rfl⟩)
    have hblank : trim (' ' :: (literalText v).toList) = (literalText v).toList :=
      htrim.trim_spaces [' '] (by decide)
    rw [readTrimmed?, hlast', if_neg (hlast ▸ hcolon), htake, hdrop, String.ofList_toList]
    dsimp only
    rw [if_pos rfl, hblank, readLiteral?_literalText]
    rfl
  · rw [hhead]
    simpa using hsemicolon
  · rw [List.mem_append, List.mem_cons, not_or, not_or]
    exact ⟨by decide, by decide, hbreak⟩

theorem Writable.reads {i : Instruction R String} (h : i.Writable) :
    Reads (i.text id).toList i.reread := by
  cases i with
  | label name => exact reads_label h
  | literal v => exact reads_literal v
  | _ => exact reads_of_parts? h.legible rfl

theorem Legible.spells {i : Instruction R String} (h : i.Legible) :
    Spells (i.text id).toList i.reread := by
  cases i with
  | label name => exact spells_label h
  | literal v => exact (reads_literal v).toSpells
  | _ => exact (reads_of_parts? h rfl).toSpells

theorem Spells.read_eq {cs : List Char} {i : Instruction R String} (h : Spells cs i) :
    read (String.ofList cs) = .ok i := by
  rw [read, String.toList_ofList, h.isTrim.trim_eq, h.readTrimmed?_eq]

end Instruction

theorem linesFrom_append {cs : List Char} (h : '\n' ∉ cs) (line rest : List Char) :
    linesFrom line (cs ++ rest) = linesFrom (cs.reverse ++ line) rest := by
  induction cs generalizing line with
  | nil => rfl
  | cons c cs ih =>
      rw [List.mem_cons, not_or] at h
      rw [List.cons_append, linesFrom.eq_def line (c :: (cs ++ rest))]
      dsimp only
      rw [if_neg (Ne.symm h.1), ih h.2, List.reverse_cons, List.append_assoc]
      rfl

theorem linesFrom_break {line : List Char} (h : line.head? ≠ some '\r') (rest : List Char) :
    linesFrom line ('\n' :: rest) = line.reverse :: linesFrom [] rest := by
  rw [linesFrom.eq_def line ('\n' :: rest)]
  dsimp only
  rw [if_pos rfl]
  split
  · exact absurd rfl h
  · rfl

/-- A line ends at the first line feed, which takes no carriage return along if there is none. -/
theorem linesFrom_line {cs : List Char} (h : '\n' ∉ cs) (hlast : cs.getLast? ≠ some '\r')
    (rest : List Char) : linesFrom [] (cs ++ '\n' :: rest) = cs :: linesFrom [] rest := by
  have hhead : cs.reverse.head? ≠ some '\r' := by rwa [List.head?_reverse]
  rw [linesFrom_append h, List.append_nil, linesFrom_break hhead, List.reverse_reverse]

/-- A text without a line feed is one line. -/
theorem linesFrom_of_no_break {cs : List Char} (h : '\n' ∉ cs) (hne : cs ≠ []) :
    linesFrom [] cs = [cs] := by
  have hsplit := linesFrom_append h [] []
  rw [List.append_nil, List.append_nil] at hsplit
  rw [hsplit, linesFrom, List.reverse_reverse, if_neg (by simpa using hne)]

namespace Script

/-- A line of a script as it is cut off in front of its line feed. -/
def margined (i : Instruction R String) : List Char :=
  match i with
  | .label _ => (i.text id).toList
  | _ => "    ".toList ++ (i.text id).toList

theorem toList_lineOf (i : Instruction R String) :
    (lineOf i).toList = margined i ++ ['\n'] := by
  cases i <;> simp [lineOf, margined]

theorem exists_spaces (i : Instruction R String) :
    ∃ spaces, (∀ c ∈ spaces, isSpace c) ∧ '\n' ∉ spaces ∧
      margined i = spaces ++ (i.text id).toList := by
  cases i with
  | label name => exact ⟨[], by simp, by simp, rfl⟩
  | _ => exact ⟨"    ".toList, by decide, by decide, rfl⟩

theorem linesFrom_margined {i : Instruction R String} (h : i.Writable) (rest : List Char) :
    linesFrom [] (margined i ++ '\n' :: rest) = margined i :: linesFrom [] rest := by
  obtain ⟨spaces, -, hspaces, hmargined⟩ := exists_spaces i
  have hreads := h.reads
  obtain ⟨c, hlast, hc⟩ := hreads.isTrim.last
  have hbreak : '\n' ∉ margined i := by
    rw [hmargined, List.mem_append, not_or]
    exact ⟨hspaces, hreads.no_break⟩
  refine linesFrom_line hbreak ?_ rest
  rw [hmargined, List.getLast?_append, hlast]
  rintro heq
  cases heq
  exact absurd hc (by decide)

theorem lines_join {code : List (Instruction R String)} (h : ∀ i ∈ code, i.Writable) :
    lines (String.join (code.map lineOf)) = code.map fun i => String.ofList (margined i) := by
  have htoList : (String.join (code.map lineOf)).toList =
      code.flatMap fun i => margined i ++ ['\n'] := by
    simp [String.toList_join, List.flatMap_map, toList_lineOf]
  have hlines : linesFrom [] (code.flatMap fun i => margined i ++ ['\n']) =
      code.map margined := by
    clear htoList
    induction code with
    | nil => rfl
    | cons i code ih =>
        rw [List.forall_mem_cons] at h
        rw [List.flatMap_cons, List.append_assoc, List.singleton_append,
          linesFrom_margined h.1, ih h.2, List.map_cons]
  rw [lines, htoList, hlines, List.map_map]
  rfl

theorem instructionLines_join {code : List (Instruction R String)}
    (h : ∀ i ∈ code, i.Writable) :
    instructionLines (String.join (code.map lineOf)) = code.map (Instruction.text id) := by
  have htrimmed : ∀ i ∈ code, trimmed (String.ofList (margined i)) = i.text id := by
    intro i hi
    obtain ⟨spaces, hspaces, -, hmargined⟩ := exists_spaces i
    rw [trimmed, String.toList_ofList, hmargined,
      (h i hi).reads.isTrim.trim_spaces spaces hspaces, String.ofList_toList]
  have hmap : (code.map fun i => String.ofList (margined i)).map trimmed =
      code.map (Instruction.text id) := by
    rw [List.map_map]
    exact List.map_congr_left htrimmed
  rw [instructionLines, lines_join h, hmap, List.filter_eq_self]
  intro text htext
  obtain ⟨i, hi, rfl⟩ := List.mem_map.mp htext
  have hreads := (h i hi).reads
  obtain ⟨c, hhead, -⟩ := hreads.isTrim.head
  have hne : i.text id ≠ "" := by
    intro hempty
    rw [hempty] at hhead
    cases hhead
  simpa [hne] using hreads.head_ne

theorem readFrom_text {code : List (Instruction R String)} (h : ∀ i ∈ code, i.Writable)
    (done : Array (Instruction R String)) :
    readFrom done (code.map (Instruction.text id)) =
      .ok (done ++ (code.map Instruction.reread).toArray) := by
  induction code generalizing done with
  | nil => simp [readFrom]
  | cons i code ih =>
      rw [List.forall_mem_cons] at h
      have hread := h.1.reads.read_eq
      rw [String.ofList_toList] at hread
      rw [List.map_cons, readFrom, hread]
      dsimp only
      rw [ih h.2]
      simp

/-- A script that was emitted is read as the instructions it was emitted for. -/
theorem read_of_emit {code : List (Instruction R String)} (h : ∀ i ∈ code, i.Writable)
    {script : Script} (hemit : emit code = .ok script) :
    read script.text = .ok (code.map Instruction.reread) := by
  rw [emit] at hemit
  obtain ⟨linked, -, hscript⟩ := Stmt.bind_eq_ok hemit
  cases hscript
  rw [read, instructionLines_join h, readFrom_text h]
  simp [bind, Except.bind, pure, Except.pure]

end Script

end LineBasic
