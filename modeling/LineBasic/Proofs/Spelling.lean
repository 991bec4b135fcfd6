import Mathlib.Algebra.Group.Nat.Defs
import Mathlib.Data.List.TakeWhile
import LineBasic.Instruction.Text

namespace LineBasic

namespace Text

/-- What holds of some characters is decided by looking at these alone. -/
instance (priority := 2000) decidableForallMem (p : Char → Prop) [DecidablePred p]
    (cs : List Char) : Decidable (∀ c ∈ cs, p c) :=
  List.decidableBAll p cs

/-- A run of characters is taken off in front of one that is not of the kind. -/
theorem takeWhile_span {p : Char → Bool} {front rest : List Char} (hfront : ∀ c ∈ front, p c)
    (hrest : ∀ c, rest.head? = some c → p c = false) :
    (front ++ rest).takeWhile p = front ∧ (front ++ rest).dropWhile p = rest := by
  rw [List.takeWhile_append_of_pos hfront, List.dropWhile_append_of_pos hfront]
  cases rest with
  | nil => simp
  | cons c rest => simp [hrest c rfl]

theorem trimLeft_of_head {c : Char} {cs : List Char} (h : isSpace c = false) :
    trimLeft (c :: cs) = c :: cs := by
  simp [trimLeft, h]

theorem trimLeft_spaces {spaces : List Char} (h : ∀ c ∈ spaces, isSpace c) (cs : List Char) :
    trimLeft (spaces ++ cs) = trimLeft cs := by
  rw [trimLeft, trimLeft, List.dropWhile_append_of_pos h]

theorem trimRight_of_last {c : Char} {cs : List Char} (h : cs.getLast? = some c)
    (hc : isSpace c = false) : trimRight cs = cs := by
  obtain ⟨front, rfl⟩ := List.getLast?_eq_some_iff.mp h
  simp [trimRight, hc]

/-- Nothing but blanks is cut off behind a text. -/
theorem exists_trimRight_append (cs : List Char) :
    ∃ back, (∀ c ∈ back, isSpace c) ∧ trimRight cs ++ back = cs := by
  refine ⟨(cs.reverse.takeWhile isSpace).reverse, fun c hc => ?_, ?_⟩
  · exact List.all_eq_true.mp List.all_takeWhile c (List.mem_reverse.mp hc)
  · rw [trimRight, ← List.reverse_append, List.takeWhile_append_dropWhile, List.reverse_reverse]

/-- Nothing but blanks is cut off at either end. -/
theorem exists_trim_append (cs : List Char) :
    ∃ front back, (∀ c ∈ front, isSpace c) ∧ (∀ c ∈ back, isSpace c) ∧
      front ++ (trim cs ++ back) = cs := by
  obtain ⟨back, hback, hsplit⟩ := exists_trimRight_append (trimLeft cs)
  refine ⟨cs.takeWhile isSpace, back, fun c hc => ?_, hback, ?_⟩
  · exact List.all_eq_true.mp List.all_takeWhile c hc
  · rw [trim, hsplit, trimLeft, List.takeWhile_append_dropWhile]

/-- A text that blanks neither start nor end. -/
structure IsTrim (cs : List Char) : Prop where
  head : ∃ c, cs.head? = some c ∧ isSpace c = false
  last : ∃ c, cs.getLast? = some c ∧ isSpace c = false

theorem IsTrim.trim_spaces {cs : List Char} (h : IsTrim cs) (spaces : List Char)
    (hspaces : ∀ c ∈ spaces, isSpace c) : trim (spaces ++ cs) = cs := by
  obtain ⟨c, hhead, hc⟩ := h.head
  obtain ⟨d, hlast, hd⟩ := h.last
  obtain ⟨rest, rfl⟩ := List.head?_eq_some_iff.mp hhead
  rw [trim, trimLeft_spaces hspaces, trimLeft_of_head hc, trimRight_of_last hlast hd]

theorem IsTrim.trim_eq {cs : List Char} (h : IsTrim cs) : trim cs = cs := by
  have htrim := h.trim_spaces [] (by simp)
  rwa [List.nil_append] at htrim

/-- A word that an instruction may have as an operand. -/
def IsWord (cs : List Char) : Prop :=
  cs ≠ [] ∧ ∀ c ∈ cs, isSpace c = false ∧ c ≠ ':' ∧ c ≠ ';'

/-- A text that is one word: there are characters in it, and no blank. -/
def IsSolid (cs : List Char) : Prop :=
  cs ≠ [] ∧ ∀ c ∈ cs, isSpace c = false

theorem IsWord.isSolid {cs : List Char} (h : IsWord cs) : IsSolid cs :=
  ⟨h.1, fun c hc => (h.2 c hc).1⟩

theorem wordsFrom_blank {c : Char} (h : isSpace c) (cs : List Char) :
    wordsFrom [] (c :: cs) = wordsFrom [] cs := by
  rw [wordsFrom, if_pos h]
  rfl

theorem wordsFrom_append {word : List Char} (h : ∀ c ∈ word, isSpace c = false)
    (before rest : List Char) :
    wordsFrom before (word ++ rest) = wordsFrom (word.reverse ++ before) rest := by
  induction word generalizing before with
  | nil => rfl
  | cons c word ih =>
      rw [List.forall_mem_cons] at h
      rw [List.cons_append, wordsFrom, if_neg (by simp [h.1]), ih h.2, List.reverse_cons,
        List.append_assoc]
      rfl

def spaced (words : List String) : List Char :=
  words.flatMap fun word => ' ' :: word.toList

theorem wordsFrom_spaced {ws : List String} (h : ∀ w ∈ ws, IsSolid w.toList)
    {word : List Char} (hword : word ≠ []) :
    wordsFrom word (spaced ws) = String.ofList word.reverse :: ws := by
  induction ws generalizing word with
  | nil =>
      rw [spaced, List.flatMap_nil, wordsFrom, if_neg (by simpa using hword)]
  | cons w ws ih =>
      rw [List.forall_mem_cons] at h
      obtain ⟨⟨hne, hw⟩, hws⟩ := h
      rw [spaced, List.flatMap_cons, List.cons_append, wordsFrom, if_pos (by decide),
        if_neg (by simpa using hword), wordsFrom_append hw]
      rw [List.append_nil, ← spaced, ih hws (by simpa using hne), List.reverse_reverse,
        String.ofList_toList]

theorem words_spaced {ws : List String} (h : ∀ w ∈ ws, IsSolid w.toList) :
    words (spaced ws) = ws := by
  cases ws with
  | nil => rfl
  | cons w ws =>
      rw [List.forall_mem_cons] at h
      obtain ⟨⟨hne, hw⟩, hws⟩ := h
      rw [words, spaced, List.flatMap_cons, List.cons_append, wordsFrom_blank (by decide),
        wordsFrom_append hw, List.append_nil, ← spaced,
        wordsFrom_spaced hws (by simpa using hne), List.reverse_reverse, String.ofList_toList]

theorem words_trimLeft (cs : List Char) : words (trimLeft cs) = words cs := by
  induction cs with
  | nil => rfl
  | cons c cs ih =>
      by_cases hc : isSpace c
      · rw [trimLeft, List.dropWhile_cons_of_pos hc, ← trimLeft, ih, words, words,
          wordsFrom_blank hc]
      · rw [trimLeft_of_head (by simpa using hc)]

theorem wordsFrom_spaces {spaces : List Char} (h : ∀ c ∈ spaces, isSpace c)
    (word : List Char) : wordsFrom word spaces = wordsFrom word [] := by
  induction spaces generalizing word with
  | nil => rfl
  | cons c spaces ih =>
      rw [List.forall_mem_cons] at h
      rw [wordsFrom.eq_def word (c :: spaces)]
      dsimp only
      rw [if_pos h.1, ih h.2]
      cases word <;> rfl

theorem wordsFrom_append_spaces {spaces : List Char} (h : ∀ c ∈ spaces, isSpace c)
    (word cs : List Char) : wordsFrom word (cs ++ spaces) = wordsFrom word cs := by
  induction cs generalizing word with
  | nil => exact wordsFrom_spaces h word
  | cons c cs ih => simp only [List.cons_append, wordsFrom, ih]

theorem words_trim (cs : List Char) : words (trim cs) = words cs := by
  obtain ⟨back, hback, hsplit⟩ := exists_trimRight_append (trimLeft cs)
  rw [← words_trimLeft cs, ← hsplit, words, words, wordsFrom_append_spaces hback]
  rfl

theorem isSolid_of_mem_wordsFrom {word : List Char} (hword : ∀ c ∈ word, isSpace c = false)
    (cs : List Char) : ∀ w ∈ wordsFrom word cs, IsSolid w.toList := by
  have hsolid {word : List Char} (hword : ∀ c ∈ word, isSpace c = false)
      (hne : ¬word.isEmpty) : IsSolid (String.ofList word.reverse).toList := by
    rw [String.toList_ofList]
    exact ⟨by simpa using hne, fun c hc => hword c (List.mem_reverse.mp hc)⟩
  induction cs generalizing word with
  | nil =>
      intro w hw
      rw [wordsFrom] at hw
      split at hw
      · cases hw
      · rename_i hne
        rw [List.mem_singleton] at hw
        exact hw ▸ hsolid hword hne
  | cons c cs ih =>
      intro w hw
      rw [wordsFrom] at hw
      split at hw
      · split at hw
        · exact ih (by simp) w hw
        · rename_i hne
          rcases List.mem_cons.mp hw with rfl | hw
          · exact hsolid hword hne
          · exact ih (by simp) w hw
      · rename_i hc
        exact ih (List.forall_mem_cons.mpr ⟨by simpa using hc, hword⟩) w hw

theorem isSolid_of_mem_words {cs : List Char} {w : String} (h : w ∈ words cs) :
    IsSolid w.toList :=
  isSolid_of_mem_wordsFrom (by simp) cs w h

/-- If a text does not end in a blank, then its last word ends as the text does. -/
theorem getLast?_wordsFrom {cs : List Char} {c : Char} (hlast : cs.getLast? = some c)
    (hc : isSpace c = false) (word : List Char) :
    ∃ w, (wordsFrom word cs).getLast? = some w ∧ w.toList.getLast? = some c := by
  induction cs generalizing word with
  | nil => cases hlast
  | cons d cs ih =>
      cases cs with
      | nil =>
          obtain rfl : d = c := by simpa using hlast
          refine ⟨String.ofList (d :: word).reverse, ?_, by simp⟩
          rw [wordsFrom, if_neg (by simp [hc])]
          rfl
      | cons e cs =>
          have hlast : (e :: cs).getLast? = some c := by simpa using hlast
          rw [wordsFrom]
          split
          · obtain ⟨w, hw, hwlast⟩ := ih hlast []
            refine ⟨w, ?_, hwlast⟩
            split
            · exact hw
            · rw [List.getLast?_cons, hw]
              rfl
          · exact ih hlast _

theorem isDigit_of_mem_toDigits {n : Nat} {c : Char} (h : c ∈ Nat.toDigits 10 n) :
    isDigit c := by
  have hdigit := Nat.isDigit_of_mem_toDigits (by decide) (by decide) h
  rw [Char.isDigit, Bool.and_eq_true, decide_eq_true_eq, decide_eq_true_eq] at hdigit
  rw [isDigit, Bool.and_eq_true, decide_eq_true_eq, decide_eq_true_eq]
  exact hdigit

theorem isWord_of_isDigit {cs : List Char} (hne : cs ≠ []) (h : ∀ c ∈ cs, isDigit c) :
    IsWord cs := by
  refine ⟨hne, fun c hc => ?_⟩
  have hdigit := h c hc
  rw [isDigit, Bool.and_eq_true, decide_eq_true_eq, decide_eq_true_eq] at hdigit
  obtain ⟨hlow, hhigh⟩ := hdigit
  have hlow : 48 ≤ c.toNat := hlow
  have hhigh : c.toNat ≤ 57 := hhigh
  refine ⟨?_, ?_, ?_⟩
  · simp only [isSpace, Bool.or_eq_false_iff, Bool.and_eq_false_iff, beq_eq_false_iff_ne,
      decide_eq_false_iff_not]
    omega
  · rintro rfl
    exact absurd hhigh (by decide)
  · rintro rfl
    exact absurd hhigh (by decide)

theorem digitValue_digitChar : ∀ n < 10, digitValue (Nat.digitChar n) = n := by
  decide

theorem value_toDigits (n : Nat) : value (Nat.toDigits 10 n) = n := by
  induction n using Nat.strongRecOn with
  | ind n ih =>
      rcases Nat.lt_or_ge n 10 with hlt | hge
      · rw [Nat.toDigits_of_lt_base hlt, value, valueFrom, valueFrom, digitValue_digitChar n hlt]
        omega
      · have hquotient := ih (n / 10) (Nat.div_lt_self (by omega) (by decide))
        rw [value] at hquotient
        rw [Nat.toDigits_of_base_le (by decide) hge, value, valueFrom_append, hquotient,
          valueFrom, valueFrom, digitValue_digitChar _ (Nat.mod_lt n (by decide))]
        omega

theorem readDigits?_toDigits {bound n : Nat} (h : n ≤ bound) :
    readDigits? bound (Nat.toDigits 10 n) = some n := by
  have hdigits : ∀ c ∈ Nat.toDigits 10 n, isDigit c := fun c hc => isDigit_of_mem_toDigits hc
  rw [readDigits?, value_toDigits, if_pos h, if_neg]
  simpa [Nat.toDigits_ne_nil] using hdigits

theorem readNat?_toString {bound n : Nat} (h : n ≤ bound) :
    readNat? bound (toString n) = some n := by
  rw [readNat?, show (toString n).toList = Nat.toDigits 10 n from Nat.toList_repr]
  split
  · rename_i cs hcs
    have hplus : isDigit '+' := isDigit_of_mem_toDigits (n := n) (hcs ▸ List.mem_cons_self)
    exact absurd hplus (by decide)
  · exact readDigits?_toDigits h

theorem isDigit_zeros {n : Nat} {c : Char} (h : c ∈ List.replicate n '0') : isDigit c := by
  rw [(List.mem_replicate.mp h).2]
  decide

theorem valueFrom_zeros (n count : Nat) :
    valueFrom n (List.replicate count '0') = n * 10 ^ count := by
  induction count generalizing n with
  | zero => exact (Nat.mul_one n).symm
  | succ count ih =>
      rw [List.replicate_succ, valueFrom, ih, show digitValue '0' = 0 from rfl, Nat.add_zero,
        Nat.pow_succ', Nat.mul_comm 10, Nat.mul_assoc]

/-- Zeros in front of digits do not count, and each one behind them is a factor of ten. -/
theorem value_zeros_append (count : Nat) (cs : List Char) :
    value (List.replicate count '0' ++ cs) = value cs := by
  rw [value, valueFrom_append, valueFrom_zeros, Nat.zero_mul, value]

theorem value_append_zeros (cs : List Char) (count : Nat) :
    value (cs ++ List.replicate count '0') = value cs * 10 ^ count := by
  rw [value, valueFrom_append, valueFrom_zeros, value]

end Text

namespace Numeral

open Text

/-- A decimal fraction as it is written: digits, or digits around a point. -/
inductive IsFraction : List Char → Prop where
  | whole {ds : List Char} : ds ≠ [] → (∀ c ∈ ds, isDigit c) → IsFraction ds
  | pointed {ds es : List Char} : ds ≠ [] → (∀ c ∈ ds, isDigit c) → (∀ c ∈ es, isDigit c) →
      IsFraction (ds ++ '.' :: es)

theorem exists_pointed {digits : List Char} (h : ∀ c ∈ digits, isDigit c) (places : Nat) :
    ∃ ds es, Numeral.pointed digits places = ds ++ '.' :: es ∧ ds ≠ [] ∧ (∀ c ∈ ds, isDigit c) ∧
      (∀ c ∈ es, isDigit c) ∧ es.length = places ∧ value (ds ++ es) = value digits := by
  have hvalue := value_zeros_append (places + 1 - digits.length) digits
  have hpadded : ∀ c ∈ List.replicate (places + 1 - digits.length) '0' ++ digits,
      isDigit c := by
    intro c hc
    rcases List.mem_append.mp hc with hc | hc
    · exact isDigit_zeros hc
    · exact h c hc
  have hlength : places + 1 ≤
      (List.replicate (places + 1 - digits.length) '0' ++ digits).length := by
    rw [List.length_append, List.length_replicate]
    omega
  refine ⟨_, _, rfl, ?_, fun c hc => hpadded c (List.mem_of_mem_take hc),
    fun c hc => hpadded c (List.mem_of_mem_drop hc), ?_, ?_⟩
  · rw [ne_eq, List.take_eq_nil_iff, ← List.length_eq_zero_iff]
    omega
  · rw [List.length_drop]
    omega
  · rw [List.take_append_drop, hvalue]

theorem isFraction_positional (digits : Nat) (exponent : Int) :
    IsFraction (positional digits exponent) := by
  have hdigits : ∀ c ∈ Nat.toDigits 10 digits, isDigit c :=
    fun c hc => isDigit_of_mem_toDigits hc
  cases exponent with
  | ofNat zeros =>
      rw [positional]
      split
      · exact .whole (by simp) (by decide)
      · refine .whole (by simp [Nat.toDigits_ne_nil]) fun c hc => ?_
        rcases List.mem_append.mp hc with hc | hc
        · exact hdigits c hc
        · exact isDigit_zeros hc
  | negSucc places =>
      obtain ⟨ds, es, hpointed, hne, hds, hes, -⟩ := exists_pointed hdigits (places + 1)
      rw [positional, hpointed]
      exact .pointed hne hds hes

theorem readDecimal?_whole {ds : List Char} (hne : ds ≠ []) (h : ∀ c ∈ ds, isDigit c)
    (negative : Bool) : readDecimal? negative ds = some (decimal negative (value ds) 0) := by
  have htake : ds.takeWhile isDigit = ds := List.takeWhile_eq_self_iff.mpr h
  have hdrop : ds.dropWhile isDigit = [] := List.dropWhile_eq_nil_iff.mpr h
  simp [readDecimal?, htake, hdrop, hne, readExponent?]

theorem readDecimal?_pointed {ds es : List Char} (hne : ds ≠ []) (h : ∀ c ∈ ds, isDigit c)
    (h' : ∀ c ∈ es, isDigit c) (negative : Bool) :
    readDecimal? negative (ds ++ '.' :: es) =
      some (decimal negative (value (ds ++ es)) (-es.length)) := by
  have hpoint : ∀ c, ('.' :: es).head? = some c → isDigit c = false := by
    rintro c ⟨⟩
    decide
  obtain ⟨htake, hdrop⟩ := takeWhile_span h hpoint
  have htake' : es.takeWhile isDigit = es := List.takeWhile_eq_self_iff.mpr h'
  have hdrop' : es.dropWhile isDigit = [] := List.dropWhile_eq_nil_iff.mpr h'
  simp [readDecimal?, htake, hdrop, htake', hdrop', hne, readExponent?]

/-- A numeral as it is read from its text: the zeros that a positive exponent is written as are digits. -/
def respelled : Numeral → Numeral
  | decimal negative digits (.ofNat zeros) => decimal negative (digits * 10 ^ zeros) 0
  | n => n

theorem readDecimal?_positional (negative : Bool) (digits : Nat) (exponent : Int) :
    readDecimal? negative (positional digits exponent) =
      some (decimal negative digits exponent).respelled := by
  have hdigits : ∀ c ∈ Nat.toDigits 10 digits, isDigit c :=
    fun c hc => isDigit_of_mem_toDigits hc
  cases exponent with
  | ofNat zeros =>
      rw [positional, respelled]
      split
      · rename_i hzero
        rw [hzero, Nat.zero_mul]
        rfl
      · rw [readDecimal?_whole (by simp [Nat.toDigits_ne_nil]) fun c hc =>
          (List.mem_append.mp hc).elim (hdigits c) isDigit_zeros, value_append_zeros, value_toDigits]
  | negSucc places =>
      obtain ⟨ds, es, hpointed, hne, hds, hes, hlength, hvalue⟩ :=
        exists_pointed hdigits (places + 1)
      rw [positional, hpointed, readDecimal?_pointed hne hds hes, hvalue, value_toDigits, hlength]
      rfl

def isNumeric (c : Char) : Bool :=
  isDigit c || c ∈ ['-', '.', 'N', 'a', 'i', 'n', 'f']

theorem IsFraction.isNumeric {cs : List Char} (h : IsFraction cs) :
    ∀ c ∈ cs, Numeral.isNumeric c := by
  intro c hc
  cases h with
  | whole hne h => simp [Numeral.isNumeric, h c hc]
  | pointed hne h h' =>
      rcases List.mem_append.mp hc with hc | hc
      · simp [Numeral.isNumeric, h c hc]
      · rcases List.mem_cons.mp hc with rfl | hc
        · decide
        · simp [Numeral.isNumeric, h' c hc]

theorem IsFraction.exists_head {cs : List Char} (h : IsFraction cs) :
    ∃ c rest, cs = c :: rest ∧ isDigit c := by
  cases h with
  | whole hne h =>
      obtain ⟨c, rest, rfl⟩ := List.exists_cons_of_ne_nil hne
      exact ⟨c, rest, rfl, h c List.mem_cons_self⟩
  | pointed hne h h' =>
      obtain ⟨c, rest, rfl⟩ := List.exists_cons_of_ne_nil hne
      exact ⟨c, _, rfl, h c List.mem_cons_self⟩

theorem isNumeric_spelling (n : Numeral) : ∀ c ∈ n.spelling, isNumeric c := by
  have hsigned : ∀ negative cs, (∀ c ∈ cs, isNumeric c) → ∀ c ∈ signed negative cs, isNumeric c := by
    intro negative cs hcs
    cases negative with
    | false => exact hcs
    | true =>
        rw [signed, if_pos rfl, List.forall_mem_cons]
        exact ⟨by decide, hcs⟩
  cases n with
  | undefined => decide
  | infinity negative => exact hsigned negative _ (by decide)
  | decimal negative digits exponent =>
      exact hsigned negative _ (isFraction_positional digits exponent).isNumeric

theorem isWord_signs : ∀ c ∈ ['-', '.', 'N', 'a', 'i', 'n', 'f'],
    isSpace c = false ∧ c ≠ ':' ∧ c ≠ ';' := by
  decide

theorem isWord_of_isNumeric {cs : List Char} (hne : cs ≠ []) (h : ∀ c ∈ cs, isNumeric c) :
    IsWord cs := by
  refine ⟨hne, fun c hc => ?_⟩
  have hnumeric := h c hc
  rw [isNumeric, Bool.or_eq_true, decide_eq_true_eq] at hnumeric
  rcases hnumeric with hdigit | hmem
  · exact (isWord_of_isDigit (List.cons_ne_nil c []) (by simpa using hdigit)).2 c (by simp)
  · exact isWord_signs c hmem

theorem spelling_ne_nil (n : Numeral) : n.spelling ≠ [] := by
  cases n with
  | undefined => decide
  | infinity negative => cases negative <;> decide
  | decimal negative digits exponent =>
      obtain ⟨c, rest, hcs, -⟩ := (isFraction_positional digits exponent).exists_head
      cases negative <;> simp [spelling, signed, hcs]

/-- What is written as a number is read as the number. -/
theorem read?_text (n : Numeral) : read? n.text = some n.respelled := by
  rw [read?, text, String.toList_ofList]
  cases n with
  | undefined => decide
  | infinity negative => cases negative <;> decide
  | decimal negative digits exponent =>
      have hunsigned (negative : Bool) : readUnsigned? negative (positional digits exponent) =
          some (decimal negative digits exponent).respelled := by
        rw [readUnsigned?, readDecimal?_positional]
      cases negative with
      | true => exact hunsigned true
      | false =>
          obtain ⟨c, rest, hcs, hc⟩ := (isFraction_positional digits exponent).exists_head
          rw [spelling, signed, if_neg Bool.false_ne_true]
          split
          · rename_i hminus
            rw [hcs, List.cons.injEq] at hminus
            exact absurd (hminus.1 ▸ hc) (by decide)
          · rename_i hplus
            rw [hcs, List.cons.injEq] at hplus
            exact absurd (hplus.1 ▸ hc) (by decide)
          · exact hunsigned false

theorem read?_text_isSome (n : Numeral) : (read? n.text).isSome := by
  rw [read?_text]
  rfl

end Numeral

end LineBasic
