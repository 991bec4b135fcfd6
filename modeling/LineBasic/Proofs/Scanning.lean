import LineBasic.Proofs.StoredLines
import LineBasic.Proofs.Names

namespace LineBasic.Token

open Text

/-- Two texts that a scanner tells nothing apart by: they start with the same character, or both with a digit. -/
def SameFront (cs ds : List Char) : Prop :=
  cs.head? = ds.head? ∨ ∃ c d, cs.head? = some c ∧ ds.head? = some d ∧ isDigit c ∧ isDigit d

theorem SameFront.cons (c : Char) (cs ds : List Char) : SameFront (c :: cs) (c :: ds) :=
  .inl rfl

theorem SameFront.of_head {cs ds : List Char} (h : SameFront cs ds) {p : Char → Bool}
    (hdigit : ∀ c, isDigit c → p c) (hcs : ∀ c, cs.head? = some c → p c) :
    ∀ c, ds.head? = some c → p c := by
  intro c hc
  rcases h with heq | ⟨-, d, -, hd, -, hdigit'⟩
  · exact hcs c (heq.trans hc)
  · rw [hd, Option.some.injEq] at hc
    exact hdigit c (hc ▸ hdigit')

/-- If the one text does not start with a digit, the other one starts with the same character. -/
theorem SameFront.head?_eq {cs ds : List Char} (h : SameFront cs ds)
    (hcs : ∀ c, cs.head? = some c → isDigit c = false) : cs.head? = ds.head? := by
  rcases h with heq | ⟨c, -, hc, -, hdigit, -⟩
  · exact heq
  · rw [hcs c hc] at hdigit
    cases hdigit

theorem SameFront.head?_eq_some_iff {cs ds : List Char} (h : SameFront cs ds) {d : Char}
    (hd : isDigit d = false) : cs.head? = some d ↔ ds.head? = some d := by
  rcases h with heq | ⟨c, c', hc, hc', hdigit, hdigit'⟩
  · rw [heq]
  · refine iff_of_false ?_ ?_
    · rintro heq
      rw [hc, Option.some.injEq] at heq
      rw [heq, hd] at hdigit
      cases hdigit
    · rintro heq
      rw [hc', Option.some.injEq] at heq
      rw [heq, hd] at hdigit'
      cases hdigit'

theorem SameFront.append {cs ds : List Char} (h : SameFront cs ds) (front : List Char) :
    SameFront (front ++ cs) (front ++ ds) := by
  cases front with
  | nil => exact h
  | cons c front => exact .cons c _ _

theorem takeWhile_append_of_head {p : Char → Bool} (front : List Char) {rest : List Char}
    (h : ∀ c, rest.head? = some c → p c = false) :
    (front ++ rest).takeWhile p = front.takeWhile p := by
  induction front with
  | nil =>
      cases rest with
      | nil => rfl
      | cons c rest => simp [h c rfl]
  | cons c front ih =>
      rw [List.cons_append, List.takeWhile_cons, List.takeWhile_cons, ih]

theorem head_of_takeWhile_append {p : Char → Bool} {front rest : List Char}
    (h : (front ++ rest).takeWhile p = front) : ∀ c, rest.head? = some c → p c = false := by
  intro c hc
  have hfront : ∀ d ∈ front, p d := fun d hd => List.mem_takeWhile_imp (h.symm ▸ hd)
  cases rest with
  | nil => cases hc
  | cons d rest =>
      cases hc
      rw [List.takeWhile_append_of_pos hfront, List.append_right_eq_self, List.takeWhile_cons] at h
      cases hp : p c with
      | false => rfl
      | true =>
          rw [hp] at h
          cases h

theorem head?_append_congr (front : List Char) {rest rest' : List Char}
    (h : rest.head? = rest'.head?) : (front ++ rest).head? = (front ++ rest').head? := by
  cases front with
  | nil => exact h
  | cons c front => rfl

theorem prefix_numberSpan (point exponent : Bool) (cs : List Char) :
    numberSpan point exponent cs <+: cs := by
  fun_induction numberSpan point exponent cs with
  | case1 => exact List.nil_prefix
  | case2 point exponent c cs hc ih => exact List.cons_prefix_cons.mpr ⟨rfl, ih⟩
  | case3 point exponent c cs _ _ ih => exact List.cons_prefix_cons.mpr ⟨rfl, ih⟩
  | case4 point exponent c _ _ _ cs ih =>
      exact List.cons_prefix_cons.mpr ⟨rfl, List.cons_prefix_cons.mpr ⟨rfl, ih⟩⟩
  | case5 point exponent c _ _ _ cs ih =>
      exact List.cons_prefix_cons.mpr ⟨rfl, List.cons_prefix_cons.mpr ⟨rfl, ih⟩⟩
  | case6 point exponent c cs _ _ _ _ _ ih => exact List.cons_prefix_cons.mpr ⟨rfl, ih⟩
  | case7 => exact List.nil_prefix

theorem numberSpan_cons (point exponent : Bool) (c : Char) (cs : List Char) :
    numberSpan point exponent (c :: cs) =
      if isDigit c then c :: numberSpan point exponent cs
      else if c == '.' && !point && !exponent then c :: numberSpan true exponent cs
      else if (c == 'E' || c == 'e') && !exponent then
        match cs with
        | '+' :: cs => c :: '+' :: numberSpan point true cs
        | '-' :: cs => c :: '-' :: numberSpan point true cs
        | cs => c :: numberSpan point true cs
      else [] :=
  numberSpan.eq_def point exponent (c :: cs)

/-- A number ends in front of a character in whatever text that character starts. -/
theorem numberSpan_congr {point exponent : Bool} {taken rest rest' : List Char}
    (h : numberSpan point exponent (taken ++ rest) = taken) (hhead : rest.head? = rest'.head?) :
    numberSpan point exponent (taken ++ rest') = taken := by
  generalize hcs : taken ++ rest = cs at h
  fun_induction numberSpan point exponent cs generalizing taken with
  | case1 point exponent =>
      obtain ⟨rfl, rfl⟩ := List.append_eq_nil_iff.mp hcs
      rw [List.head?_nil, eq_comm, List.head?_eq_none_iff] at hhead
      rw [hhead]
      rfl
  | case2 point exponent c cs hc ih =>
      subst h
      rw [List.cons_append, numberSpan_cons, if_pos hc, ih (List.cons.inj hcs).2 rfl]
  | case3 point exponent c cs hc hpoint ih =>
      subst h
      rw [List.cons_append, numberSpan_cons, if_neg hc, if_pos hpoint, ih (List.cons.inj hcs).2 rfl]
  | case4 point exponent c hc hpoint hexponent cs ih =>
      subst h
      have hcs : numberSpan point true cs ++ rest = cs := by simpa using hcs
      rw [List.cons_append, List.cons_append, numberSpan_cons, if_neg hc, if_neg hpoint,
        if_pos hexponent]
      simp only [ih hcs rfl]
  | case5 point exponent c hc hpoint hexponent cs ih =>
      subst h
      have hcs : numberSpan point true cs ++ rest = cs := by simpa using hcs
      rw [List.cons_append, List.cons_append, numberSpan_cons, if_neg hc, if_neg hpoint,
        if_pos hexponent]
      simp only [ih hcs rfl]
  | case6 point exponent c hc hpoint hexponent cs hplus hminus ih =>
      subst h
      have hcs : numberSpan point true cs ++ rest = cs := (List.cons.inj hcs).2
      have hhead' := head?_append_congr (numberSpan point true cs) hhead
      rw [hcs] at hhead'
      rw [List.cons_append, numberSpan_cons, if_neg hc, if_neg hpoint, if_pos hexponent]
      split
      · rename_i hsign
        rw [hsign] at hhead'
        obtain ⟨_, heq⟩ := List.head?_eq_some_iff.mp hhead'
        exact absurd heq (hplus _)
      · rename_i hsign
        rw [hsign] at hhead'
        obtain ⟨_, heq⟩ := List.head?_eq_some_iff.mp hhead'
        exact absurd heq (hminus _)
      · rw [ih hcs rfl]
  | case7 point exponent c cs hc hpoint hexponent =>
      subst h
      obtain rfl : rest = c :: cs := hcs
      obtain ⟨cs', rfl⟩ := List.head?_eq_some_iff.mp hhead.symm
      rw [List.nil_append, numberSpan_cons, if_neg hc, if_neg hpoint, if_neg hexponent]

/-- No digit is left behind a number. -/
theorem not_isDigit_of_numberSpan {point exponent : Bool} {taken rest : List Char}
    (h : numberSpan point exponent (taken ++ rest) = taken) :
    ∀ c, rest.head? = some c → isDigit c = false := by
  generalize hcs : taken ++ rest = cs at h
  fun_induction numberSpan point exponent cs generalizing taken with
  | case1 =>
      obtain ⟨rfl, rfl⟩ := List.append_eq_nil_iff.mp hcs
      simp
  | case2 point exponent c cs hc ih =>
      subst h
      exact ih (List.cons.inj hcs).2 rfl
  | case3 point exponent c cs hc hpoint ih =>
      subst h
      exact ih (List.cons.inj hcs).2 rfl
  | case4 point exponent c hc hpoint hexponent cs ih =>
      subst h
      exact ih (List.cons.inj (List.cons.inj hcs).2).2 rfl
  | case5 point exponent c hc hpoint hexponent cs ih =>
      subst h
      exact ih (List.cons.inj (List.cons.inj hcs).2).2 rfl
  | case6 point exponent c hc hpoint hexponent cs hplus hminus ih =>
      subst h
      exact ih (List.cons.inj hcs).2 rfl
  | case7 point exponent c cs hc hpoint hexponent =>
      subst h
      obtain rfl : rest = c :: cs := hcs
      rintro _ ⟨⟩
      simpa using hc

theorem not_isLetter_of_not_isNamePart {c : Char} (h : isNamePart c = false) : isLetter c = false := by
  rw [isNamePart, Bool.or_eq_false_iff] at h
  exact h.1

theorem lt_of_isDigit {c : Char} (h : isDigit c) : c.toNat < 58 := by
  rw [isDigit, Bool.and_eq_true, decide_eq_true_eq, decide_eq_true_eq] at h
  have hhigh : c.toNat ≤ 57 := h.2
  omega

theorem not_isLetter_of_isDigit {c : Char} (h : isDigit c) : isLetter c = false :=
  char_of_lt (P := fun c => isDigit c → isLetter c = false) (by decide) (lt_of_isDigit h) h

theorem prefix_wordSpan (cs : List Char) : wordSpan cs <+: cs := by
  unfold wordSpan
  extract_lets letters name
  split
  · exact List.takeWhile_prefix _
  · split
    · rename_i rest hrest
      refine ⟨rest, ?_⟩
      have hname := List.prefix_iff_eq_append.mp (List.takeWhile_prefix (l := cs) isNamePart)
      rw [hrest] at hname
      rw [List.append_assoc]
      exact hname
    · exact List.takeWhile_prefix _

theorem wordSpan_eq (cs : List Char) :
    wordSpan cs =
      if (ofWord? (upper (String.ofList (cs.takeWhile isLetter)))).isSome then cs.takeWhile isLetter
      else if (cs.dropWhile isNamePart).head? = some '$' then cs.takeWhile isNamePart ++ ['$']
      else cs.takeWhile isNamePart := by
  have hdrop : cs.drop (cs.takeWhile isNamePart).length = cs.dropWhile isNamePart := by
    rw [← List.append_cancel_left_eq (cs.takeWhile isNamePart), List.takeWhile_append_dropWhile]
    exact List.prefix_iff_eq_append.mp (List.takeWhile_prefix _)
  unfold wordSpan
  extract_lets letters name
  rw [hdrop]
  cases ofWord? (upper (String.ofList letters)) with
  | some token => rfl
  | none =>
      dsimp only [Option.isSome_none]
      rw [if_neg Bool.false_ne_true]
      cases hrest : cs.dropWhile isNamePart with
      | nil => rfl
      | cons c rest =>
          rw [List.head?_cons]
          split
          · rename_i heq
            rw [if_pos (by rw [(List.cons.inj heq).1])]
          · rename_i hne
            rw [if_neg]
            rintro ⟨⟩
            exact hne _ rfl

/-- A word ends where a text goes on with no letter, digit or dollar sign. A reserved word ends in front of a digit, too. -/
theorem wordSpan_congr {taken rest rest' : List Char} (h : wordSpan (taken ++ rest) = taken)
    (hfront : SameFront rest rest') : wordSpan (taken ++ rest') = taken := by
  rw [wordSpan_eq] at h ⊢
  split at h
  · rename_i hword
    have hletter := head_of_takeWhile_append h
    have hletter' : ∀ c, rest'.head? = some c → isLetter c = false := by
      simpa using hfront.of_head (p := fun c => !isLetter c)
        (fun c hc => by simp [not_isLetter_of_isDigit hc]) (by simpa using hletter)
    rw [takeWhile_append_of_head _ hletter] at h hword
    rw [takeWhile_append_of_head _ hletter', if_pos hword, h]
  · rename_i hword
    split at h
    · rename_i hdollar
      have hname : ∀ c ∈ (taken ++ rest).takeWhile isNamePart, isNamePart c :=
        fun c hc => List.mem_takeWhile_imp hc
      generalize (taken ++ rest).takeWhile isNamePart = name at h hname
      subst h
      have hletter (rest : List Char) : ∀ c, ('$' :: rest).head? = some c → isLetter c = false := by
        rintro _ ⟨⟩
        decide
      simp only [List.append_assoc, List.singleton_append] at hword ⊢
      rw [takeWhile_append_of_head _ (hletter rest)] at hword
      rw [takeWhile_append_of_head _ (hletter rest'), if_neg hword,
        List.takeWhile_append_of_pos hname, List.dropWhile_append_of_pos hname,
        List.takeWhile_cons_of_neg (by decide), List.dropWhile_cons_of_neg (by decide)]
      simp
    · rename_i hdollar
      have hname := head_of_takeWhile_append h
      have hhead : rest.head? = rest'.head? := by
        refine hfront.head?_eq fun c hc => ?_
        have hc := hname c hc
        rw [isNamePart, Bool.or_eq_false_iff] at hc
        exact hc.2
      have hdrop : ∀ {behind : List Char}, (taken ++ behind).takeWhile isNamePart = taken →
          (taken ++ behind).dropWhile isNamePart = behind := by
        intro behind htake
        rw [← List.append_cancel_left_eq taken]
        nth_rewrite 1 [← htake]
        exact List.takeWhile_append_dropWhile
      have h' : (taken ++ rest').takeWhile isNamePart = taken := by
        rw [takeWhile_append_of_head _ (hhead ▸ hname), ← takeWhile_append_of_head _ hname, h]
      have hletter : ∀ c, rest.head? = some c → isLetter c = false :=
        fun c hc => not_isLetter_of_not_isNamePart (hname c hc)
      rw [takeWhile_append_of_head _ hletter] at hword
      rw [takeWhile_append_of_head _ (hhead ▸ hletter), if_neg hword, h', hdrop h', if_neg]
      rwa [← hhead, ← hdrop h]

theorem sign?_length {cs : List Char} {token : Token} {length : Nat}
    (h : sign? cs = some (token, length)) : 0 < length ∧ length ≤ cs.length := by
  unfold sign? at h
  split at h <;> cases h <;> simp

theorem sign?_cons (c : Char) (cs : List Char) :
    sign? (c :: cs) =
      if c = '<' then
        if cs.head? = some '>' then some (operator .notEqual, 2)
        else if cs.head? = some '=' then some (operator .lessEqual, 2)
        else some (operator .less, 1)
      else if c = '>' then
        if cs.head? = some '=' then some (operator .greaterEqual, 2) else some (operator .greater, 1)
      else sign? [c] := by
  unfold sign?
  split <;> simp_all [List.head?_eq_some_iff]

theorem sign?_congr (c : Char) {cs ds : List Char} (h : SameFront cs ds) :
    sign? (c :: cs) = sign? (c :: ds) := by
  rw [sign?_cons, sign?_cons c ds]
  simp only [h.head?_eq_some_iff (by decide : isDigit '>' = false),
    h.head?_eq_some_iff (by decide : isDigit '=' = false)]

theorem append_quote {cs : List Char} (h : (cs.takeWhile (· != '"')).length < cs.length) :
    ∃ rest, cs.takeWhile (· != '"') ++ '"' :: rest = cs := by
  have hsplit := List.takeWhile_append_dropWhile (p := (· != '"')) (l := cs)
  cases hdrop : cs.dropWhile (· != '"') with
  | nil =>
      rw [hdrop, List.append_nil] at hsplit
      rw [hsplit] at h
      exact absurd h (Nat.lt_irrefl _)
  | cons c rest =>
      have hc := List.head?_dropWhile_not (· != '"') cs
      rw [hdrop] at hc hsplit
      obtain rfl : c = '"' := by simpa using hc
      exact ⟨rest, hsplit⟩

theorem prefix_taken (cs : List Char) : (scan cs).taken <+: cs := by
  unfold scan
  split
  · exact List.nil_prefix
  · rename_i c rest
    split
    · exact prefix_numberSpan _ _ _
    · split
      · exact prefix_wordSpan _
      · split
        · rename_i hquote
          extract_lets inside
          split
          · rename_i hlength
            obtain ⟨behind, hbehind⟩ := append_quote hlength
            refine ⟨behind, ?_⟩
            rw [eq_of_beq hquote, List.cons_append, List.append_assoc]
            exact congrArg ('"' :: ·) hbehind
          · exact List.prefix_rfl
        · split
          · exact List.take_prefix _ _
          · exact List.cons_prefix_cons.mpr ⟨rfl, List.nil_prefix⟩

theorem taken_ne_nil {cs taken : List Char} {token : Token}
    (h : scan cs = ⟨.ok token, taken⟩) : taken ≠ [] := by
  unfold scan at h
  split at h
  · cases h
  · rename_i c rest
    split at h
    · rename_i hnumber
      rw [← (Lexeme.mk.inj h).2, numberSpan_cons]
      rcases Bool.or_eq_true_iff.mp hnumber with hdigit | hpoint
      · rw [if_pos hdigit]
        exact List.cons_ne_nil _ _
      · rw [eq_of_beq hpoint, if_neg (by decide), if_pos (by decide)]
        exact List.cons_ne_nil _ _
    · split at h
      · rename_i hletter
        rw [← (Lexeme.mk.inj h).2]
        exact wordSpan_ne_nil hletter rest
      · split at h
        · extract_lets inside at h
          split at h
          · rw [← (Lexeme.mk.inj h).2]
            exact List.cons_ne_nil _ _
          · cases h
        · split at h
          · rename_i hsign
            obtain ⟨hpos, hle⟩ := sign?_length hsign
            rw [← (Lexeme.mk.inj h).2, ← List.length_pos_iff, List.length_take]
            omega
          · cases h

theorem takeWhile_quote {inside : List Char} (h : ∀ c ∈ inside, c != '"') (rest : List Char) :
    (inside ++ '"' :: rest).takeWhile (· != '"') = inside := by
  rw [List.takeWhile_append_of_pos h, List.takeWhile_cons_of_neg (by decide), List.append_nil]

/-- A token stays what it is in front of any text that starts alike. -/
theorem scan_congr {taken rest rest' : List Char} {token : Token}
    (h : scan (taken ++ rest) = ⟨.ok token, taken⟩) (hfront : SameFront rest rest') :
    scan (taken ++ rest') = ⟨.ok token, taken⟩ := by
  obtain ⟨c, cs, rfl⟩ := List.exists_cons_of_ne_nil (taken_ne_nil h)
  unfold scan at h ⊢
  dsimp only [List.cons_append] at h ⊢
  split at h
  · rename_i hnumber
    obtain ⟨htoken, htaken⟩ := Lexeme.mk.inj h
    have hspan : numberSpan false false ((c :: cs) ++ rest) = c :: cs := htaken
    have hspan' := numberSpan_congr hspan (hfront.head?_eq (not_isDigit_of_numberSpan hspan))
    rw [List.cons_append] at hspan'
    rw [htaken] at htoken
    rw [if_pos hnumber, hspan', htoken]
  · rename_i hnumber
    rw [if_neg hnumber]
    split at h
    · rename_i hletter
      obtain ⟨htoken, htaken⟩ := Lexeme.mk.inj h
      have hspan : wordSpan ((c :: cs) ++ rest) = c :: cs := htaken
      have hspan' := wordSpan_congr hspan hfront
      rw [List.cons_append] at hspan'
      rw [htaken] at htoken
      rw [if_pos hletter, hspan', htoken]
    · rename_i hletter
      rw [if_neg hletter]
      split at h
      · rename_i hquote
        rw [if_pos hquote]
        split at h
        · obtain ⟨htoken, htaken⟩ := Lexeme.mk.inj h
          have hinside : ∀ d ∈ (cs ++ rest).takeWhile (· != '"'), d != '"' :=
            fun d hd => List.mem_takeWhile_imp (p := (· != '"')) hd
          generalize (cs ++ rest).takeWhile (· != '"') = inside at htoken htaken hinside
          obtain ⟨rfl, rfl⟩ := List.cons.inj htaken
          rw [List.append_assoc, List.singleton_append, takeWhile_quote hinside, if_pos (by simp),
            htoken]
        · cases h
      · rename_i hquote
        rw [if_neg hquote]
        have hsame := sign?_congr c (hfront.append cs)
        split at h
        · rename_i hsign
          obtain ⟨htoken, htaken⟩ := Lexeme.mk.inj h
          have hlength := congrArg List.length htaken
          rw [List.length_take, Nat.min_eq_left (sign?_length hsign).2] at hlength
          rw [← hsame, hsign]
          dsimp only
          rw [hlength, ← List.cons_append, List.take_left, htoken]
        · cases h

theorem isDigit_of_toUpper {c : Char} (h : isDigit c.toUpper) : isDigit c := by
  rcases Nat.lt_or_ge c.toNat 123 with hlt | hge
  · exact char_of_lt (P := fun c => isDigit c.toUpper → isDigit c) (by decide) hlt h
  · rwa [toUpper_of_ge hge] at h

theorem toUpper_of_isDigit {c : Char} (h : isDigit c) : c.toUpper = c :=
  char_of_lt (P := fun c => isDigit c → c.toUpper = c) (by decide) (lt_of_isDigit h) h

theorem upper_digits {digits : List Char} (h : ∀ c ∈ digits, isDigit c) :
    upper (String.ofList digits) = String.ofList digits := by
  rw [upper, String.toList_ofList, List.map_congr_left fun c hc => toUpper_of_isDigit (h c hc),
    List.map_id']

theorem numberSpan_digits {digits : List Char} (h : ∀ c ∈ digits, isDigit c) (rest : List Char) :
    numberSpan false false (digits ++ rest) = digits ++ numberSpan false false rest := by
  induction digits with
  | nil => rfl
  | cons c digits ih =>
      rw [List.forall_mem_cons] at h
      rw [List.cons_append, numberSpan_cons, if_pos h.1, ih h.2, List.cons_append]

theorem read?_toDigits (n : Nat) :
    (Numeral.read? (String.ofList (Nat.toDigits 10 n))).isSome := by
  have htext : (Numeral.decimal false n 0).text = String.ofList (Nat.toDigits 10 n) := by
    show String.ofList (if n = 0 then ['0'] else Nat.toDigits 10 n ++ []) = _
    split
    · rename_i hzero
      rw [hzero]
      rfl
    · rw [List.append_nil]
  rw [← htext]
  exact Numeral.read?_text_isSome _

/-- A number is scanned wherever digits stand in front of a text that does not go on with the number. -/
theorem scan_toDigits (n : Nat) {rest : List Char} (h : numberSpan false false rest = []) :
    scan (Nat.toDigits 10 n ++ rest) = ⟨.ok (number (toString n)), Nat.toDigits 10 n⟩ := by
  obtain ⟨c, cs, hcons, hc⟩ := Line.exists_toDigits_cons n
  have hdigits : ∀ c ∈ Nat.toDigits 10 n, isDigit c := fun c hc => isDigit_of_mem_toDigits hc
  have htaken : numberSpan false false (Nat.toDigits 10 n ++ rest) = Nat.toDigits 10 n := by
    rw [numberSpan_digits hdigits, h, List.append_nil]
  have htext : String.ofList (Nat.toDigits 10 n) = toString n := by
    rw [← Line.toList_toString, String.ofList_toList]
  have hstart : Nat.toDigits 10 n ++ rest = c :: (cs ++ rest) := by
    rw [hcons, List.cons_append]
  rw [hstart] at htaken ⊢
  unfold scan
  dsimp only
  rw [if_pos (by simp [hc]), htaken, upper_digits hdigits, if_pos (read?_toDigits n), htext]

theorem ofWord?_ne_number (word s : String) : ofWord? word ≠ some (number s) := by
  unfold ofWord?
  split <;> simp

theorem sign?_ne_number (cs : List Char) (s : String) (n : Nat) : sign? cs ≠ some (number s, n) := by
  unfold sign?
  split <;> simp

theorem of_scan_number {cs taken : List Char} {s : String}
    (h : scan cs = ⟨.ok (number s), taken⟩) :
    numberSpan false false cs = taken ∧ s = upper (String.ofList taken) := by
  unfold scan at h
  split at h
  · cases h
  · rename_i c rest
    split at h
    · obtain ⟨htoken, htaken⟩ := Lexeme.mk.inj h
      split at htoken
      · cases htoken
        exact ⟨htaken, by rw [htaken]⟩
      · cases htoken
    · split at h
      · obtain ⟨htoken, -⟩ := Lexeme.mk.inj h
        cases hword : ofWord? (upper (String.ofList (wordSpan (c :: rest)))) with
        | none =>
            rw [hword] at htoken
            cases htoken
        | some token =>
            rw [hword, Option.getD_some, Except.ok.injEq] at htoken
            exact absurd (htoken ▸ hword) (ofWord?_ne_number _ _)
      · split at h
        · extract_lets inside at h
          split at h <;> cases h
        · split at h
          · rename_i hsign
            obtain ⟨htoken, -⟩ := Lexeme.mk.inj h
            rw [Except.ok.injEq] at htoken
            exact absurd (htoken ▸ hsign) (sign?_ne_number _ _ _)
          · cases h

theorem head_numberSpan {point exponent : Bool} {c : Char} {cs taken : List Char}
    (h : numberSpan point exponent cs = c :: taken) : isDigit c ∨ c = '.' ∨ c = 'E' ∨ c = 'e' := by
  cases cs with
  | nil => cases h
  | cons c' cs =>
      rw [numberSpan_cons] at h
      split at h
      · rename_i hdigit
        obtain rfl := (List.cons.inj h).1
        exact .inl hdigit
      · split at h
        · rename_i hpoint
          obtain rfl := (List.cons.inj h).1
          simp only [Bool.and_eq_true, beq_iff_eq] at hpoint
          exact .inr (.inl hpoint.1.1)
        · split at h
          · rename_i hexponent
            simp only [Bool.and_eq_true, Bool.or_eq_true, beq_iff_eq] at hexponent
            obtain rfl : c' = c := by
              split at h <;> exact (List.cons.inj h).1
            exact .inr (.inr hexponent.1)
          · cases h

theorem toUpper_head_numberSpan {point exponent : Bool} {c : Char} {cs taken : List Char}
    (h : numberSpan point exponent cs = c :: taken) : c.toUpper ≠ '+' := by
  rcases head_numberSpan h with hdigit | rfl | rfl | rfl
  · rw [toUpper_of_isDigit hdigit]
    rintro rfl
    exact absurd hdigit (by decide)
  all_goals decide

/-- A number in a text has no plus sign in front, which is an operator there. -/
theorem readNat?_of_scan {cs taken : List Char} {s : String} (bound : Nat)
    (h : scan cs = ⟨.ok (number s), taken⟩) : readNat? bound s = readDigits? bound s.toList := by
  obtain ⟨hspan, rfl⟩ := of_scan_number h
  unfold readNat?
  split
  · rename_i digits hplus
    rw [upper, String.toList_ofList, String.toList_ofList] at hplus
    obtain ⟨c, rest, rfl, hc, -⟩ := List.map_eq_cons_iff.mp hplus
    exact absurd hc (toUpper_head_numberSpan hspan)
  · rfl

theorem digits_of_scan {cs taken : List Char} {s : String} {bound n : Nat}
    (h : scan cs = ⟨.ok (number s), taken⟩) (hread : readNat? bound s = some n) :
    ∀ c ∈ taken, isDigit c := by
  rw [readNat?_of_scan bound h] at hread
  obtain ⟨-, rfl⟩ := of_scan_number h
  intro c hc
  unfold readDigits? at hread
  split at hread
  · cases hread
  · rename_i hall
    rw [Bool.or_eq_true, not_or, Bool.not_eq_true', Bool.not_eq_false, List.all_eq_true,
      upper, String.toList_ofList, String.toList_ofList] at hall
    exact isDigit_of_toUpper (hall.2 _ (List.mem_map_of_mem hc))

/-- What stands behind a number of digits only does not go on with it. -/
theorem numberSpan_behind {taken rest : List Char} {s : String} {bound n : Nat}
    (h : scan (taken ++ rest) = ⟨.ok (number s), taken⟩)
    (hread : readNat? bound s = some n) : numberSpan false false rest = [] := by
  have htaken := (of_scan_number h).1
  rw [numberSpan_digits (digits_of_scan h hread), List.append_right_eq_self] at htaken
  exact htaken

end LineBasic.Token
