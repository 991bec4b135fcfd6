import LineBasic.Proofs.References

namespace LineBasic

open Text

namespace Token

/-- How a token shows the slice of a line that it was read from: a string and a remark as it is, a question mark as the keyword it
stands for, and everything else in upper case. -/
def shown (slice : String) : Token → String
  | string _ | remark _ => slice
  | _ => if slice = "?" then Keyword.print.text else upper slice

/-- The text of a token says what its slice was. -/
def Shows (taken : List Char) (token : Token) : Prop :=
  token.text = token.shown (String.ofList taken)

theorem shows_of_upper {taken : List Char} {token : Token} (htext : token.text = upper (String.ofList taken))
    (hslice : taken ≠ ['?']) (hstring : ∀ s, token ≠ string s) (hremark : ∀ s, token ≠ remark s) :
    token.Shows taken := by
  have hslice : String.ofList taken ≠ "?" := fun h => hslice (String.ofList_inj.mp h)
  unfold Shows shown
  split
  · exact absurd rfl (hstring _)
  · exact absurd rfl (hremark _)
  · rw [if_neg hslice, htext]

theorem ofWord?_ne_string (word s : String) : ofWord? word ≠ some (string s) := by
  unfold ofWord?
  split <;> simp

theorem ofWord?_ne_remark (word s : String) : ofWord? word ≠ some (remark s) := by
  unfold ofWord?
  split <;> simp

theorem shows_of_word {taken : List Char} (hslice : taken ≠ ['?']) :
    ((ofWord? (upper (String.ofList taken))).getD (name (upper (String.ofList taken)))).Shows taken := by
  cases hword : ofWord? (upper (String.ofList taken)) with
  | none => exact shows_of_upper rfl hslice nofun nofun
  | some token =>
      refine shows_of_upper (text_of_ofWord? hword) hslice ?_ ?_
      · rintro s rfl
        exact ofWord?_ne_string _ _ hword
      · rintro s rfl
        exact ofWord?_ne_remark _ _ hword

theorem shows_of_string (inside : List Char) :
    (string (String.ofList inside)).Shows ('"' :: (inside ++ ['"'])) := by
  show "\"" ++ String.ofList inside ++ "\"" = String.ofList ('"' :: (inside ++ ['"']))
  simp [← String.toList_inj]

theorem shows_of_sign {cs : List Char} {token : Token} {length : Nat} (h : sign? cs = some (token, length)) :
    token.Shows (cs.take length) := by
  unfold sign? at h
  split at h <;> cases h <;> simp [Shows, shown, text, upper, Operator.text, Keyword.text]

theorem shows_of_scan {cs taken : List Char} {token : Token} (h : scan cs = ⟨.ok token, taken⟩) :
    token.Shows taken := by
  have hprefix := prefix_taken cs
  rw [h] at hprefix
  unfold scan at h
  split at h
  · cases h
  · rename_i c rest
    have hslice (hc : c ≠ '?') : taken ≠ ['?'] := by
      rintro rfl
      exact hc (List.cons_prefix_cons.mp hprefix).1.symm
    split at h
    · rename_i hnumber
      obtain ⟨htoken, rfl⟩ := Lexeme.mk.inj h
      split at htoken
      · cases htoken
        refine shows_of_upper rfl (hslice ?_) nofun nofun
        rintro rfl
        exact absurd hnumber (by decide)
      · cases htoken
    · split at h
      · rename_i hletter
        obtain ⟨htoken, rfl⟩ := Lexeme.mk.inj h
        rw [← Except.ok.inj htoken]
        refine shows_of_word (hslice ?_)
        rintro rfl
        exact absurd hletter (by decide)
      · split at h
        · extract_lets inside at h
          split at h
          · obtain ⟨htoken, rfl⟩ := Lexeme.mk.inj h
            rw [← Except.ok.inj htoken]
            exact shows_of_string inside
          · cases h
        · split at h
          · rename_i hsign
            cases h
            exact shows_of_sign hsign
          · cases h

/-- A token is taken from a text that starts at byte `start` of its line: its column is that of a slice, which it shows. -/
def TakenFrom (start : Nat) (cs : List Char) (t : Column × Token) : Prop :=
  ∃ front slice back, cs = front ++ (slice ++ back) ∧ slice ≠ [] ∧
    t.1 = ⟨start + byteLength front, start + byteLength front + byteLength slice⟩ ∧ t.2.Shows slice

variable {start : Nat} {cs rest : List Char} {tokens : List (Column × Token)} {t : Column × Token}

theorem TakenFrom.append (taken : List Char) (h : TakenFrom (start + byteLength taken) rest t) :
    TakenFrom start (taken ++ rest) t := by
  obtain ⟨front, slice, back, rfl, hne, hcolumn, hshows⟩ := h
  refine ⟨taken ++ front, slice, back, (List.append_assoc _ _ _).symm, hne, ?_, hshows⟩
  rw [hcolumn, byteLength_append]
  simp only [Nat.add_assoc]

theorem takenFrom_remarkFrom : ∀ t ∈ remarkFrom start cs, TakenFrom start cs t := by
  intro t ht
  unfold remarkFrom at ht
  split at ht
  · cases ht
  · rename_i hne
    rw [List.mem_singleton] at ht
    subst ht
    exact ⟨[], cs, [], (List.append_nil cs).symm, by simpa using hne, rfl, rfl⟩

theorem takenFrom_of_scan {taken : List Char} {token : Token} (h : scan (taken ++ rest) = ⟨.ok token, taken⟩) :
    TakenFrom start (taken ++ rest) (⟨start, start + byteLength taken⟩, token) :=
  ⟨[], taken, rest, rfl, taken_ne_nil h, rfl, shows_of_scan h⟩

theorem Lexes.takenFrom (h : Lexes start cs tokens) : ∀ t ∈ tokens, TakenFrom start cs t := by
  induction h with
  | nil => exact nofun
  | @separator start c cs tokens _ _ ih => exact fun t ht => (ih t ht).append [c]
  | apostrophe => exact takenFrom_remarkFrom
  | @rem start taken rest _ hscan =>
      refine List.forall_mem_cons.mpr ⟨takenFrom_of_scan hscan, fun t ht => ?_⟩
      exact (takenFrom_remarkFrom t ht).append taken
  | @token start taken rest _ tokens _ hscan _ _ ih =>
      exact List.forall_mem_cons.mpr ⟨takenFrom_of_scan hscan, fun t ht => (ih t ht).append taken⟩

/-- The bytes of a character are some of a token's. -/
def Covers (t : Column × Token) (start : Nat) (c : Char) : Prop :=
  t.1.start ≤ start ∧ start + c.utf8Size ≤ t.1.stop

theorem part_of_append {taken front back : List Char} {c : Char} (h : taken ++ rest = front ++ c :: back) :
    byteLength front + c.utf8Size ≤ byteLength taken ∨
      ∃ front', front = taken ++ front' ∧ rest = front' ++ c :: back := by
  rcases List.append_eq_append_iff.mp h with ⟨front', hfront, hrest⟩ | ⟨more, htaken, hmore⟩
  · exact .inr ⟨front', hfront, hrest⟩
  · cases more with
    | nil => exact .inr ⟨[], by simpa using htaken.symm, hmore.symm⟩
    | cons d more =>
        obtain ⟨rfl, -⟩ := List.cons.inj hmore
        rw [htaken, byteLength_append, byteLength_cons]
        omega

theorem covers_remarkFrom {front back : List Char} {c : Char} :
    ∃ t ∈ remarkFrom start (front ++ c :: back), Covers t (start + byteLength front) c := by
  unfold remarkFrom
  rw [if_neg (by simp)]
  refine ⟨_, List.mem_singleton_self _, ?_, ?_⟩
  · exact Nat.le_add_right _ _
  · simp only [byteLength_append, byteLength_cons]
    omega

/-- Each character of a line is a separator or stands in a token. -/
theorem Lexes.covers (h : Lexes start cs tokens) {front back : List Char} {c : Char}
    (hcs : cs = front ++ c :: back) :
    isSeparator c ∨ ∃ t ∈ tokens, Covers t (start + byteLength front) c := by
  induction h generalizing front with
  | nil => simp at hcs
  | @separator start d cs tokens hseparator _ ih =>
      cases front with
      | nil => exact .inl ((List.cons.inj hcs).1 ▸ hseparator)
      | cons d' front =>
          obtain ⟨rfl, hrest⟩ := List.cons.inj hcs
          rw [byteLength_cons, ← Nat.add_assoc]
          exact ih hrest
  | apostrophe => exact .inr (hcs ▸ covers_remarkFrom)
  | @rem start taken rest _ hscan =>
      refine .inr ?_
      rcases part_of_append hcs with hle | ⟨front', rfl, rfl⟩
      · refine ⟨_, List.mem_cons_self, Nat.le_add_right _ _, ?_⟩
        show _ ≤ start + byteLength taken
        omega
      · obtain ⟨t, ht, hcovers⟩ : ∃ t ∈ remarkFrom (start + byteLength taken) (front' ++ c :: back),
            Covers t (start + byteLength taken + byteLength front') c := covers_remarkFrom
        rw [byteLength_append, ← Nat.add_assoc]
        exact ⟨t, List.mem_cons_of_mem _ ht, hcovers⟩
  | @token start taken rest _ tokens _ hscan _ _ ih =>
      rcases part_of_append hcs with hle | ⟨front', rfl, hrest⟩
      · refine .inr ⟨_, List.mem_cons_self, Nat.le_add_right _ _, ?_⟩
        show _ ≤ start + byteLength taken
        omega
      · rw [byteLength_append, ← Nat.add_assoc]
        rcases ih hrest with hseparator | ⟨t, ht, hcovers⟩
        · exact .inl hseparator
        · exact .inr ⟨t, List.mem_cons_of_mem _ ht, hcovers⟩

theorem utf8Encode_size (cs : List Char) : cs.utf8Encode.size = byteLength cs := by
  induction cs with
  | nil => rfl
  | cons c cs ih =>
      rw [List.utf8Encode_cons, ByteArray.size_append, ih, byteLength_cons, List.utf8Encode_singleton,
        List.size_toByteArray, String.length_utf8EncodeChar]

theorem exists_char_of_lt {cs : List Char} {i : Nat} (hi : i < byteLength cs) :
    ∃ front c back, cs = front ++ c :: back ∧ byteLength front ≤ i ∧ i < byteLength front + c.utf8Size := by
  induction cs generalizing i with
  | nil => exact absurd hi (Nat.not_lt_zero _)
  | cons c cs ih =>
      rcases Nat.lt_or_ge i c.utf8Size with hlt | hge
      · exact ⟨[], c, cs, rfl, Nat.zero_le _, by simpa using hlt⟩
      · rw [byteLength_cons] at hi
        obtain ⟨front, d, back, rfl, hle, hlt⟩ := ih (i := i - c.utf8Size) (by omega)
        refine ⟨c :: front, d, back, rfl, ?_, ?_⟩
        · rw [byteLength_cons]
          omega
        · rw [byteLength_cons]
          omega

theorem byte_of_utf8Encode {front back : List Char} {c : Char} {byte : UInt8} (hc : [c].utf8Encode = ⟨#[byte]⟩)
    {i : Nat} (hi : i < (front ++ c :: back).utf8Encode.size) (hle : byteLength front ≤ i)
    (hlt : i < byteLength front + c.utf8Size) : (front ++ c :: back).utf8Encode[i] = byte := by
  have hone : c.utf8Size = 1 := by
    have hsize := utf8Encode_size [c]
    rw [hc] at hsize
    exact hsize.symm
  obtain rfl : i = front.utf8Encode.size := by
    rw [utf8Encode_size]
    omega
  have hbytes : (front ++ c :: back).utf8Encode = front.utf8Encode ++ (⟨#[byte]⟩ ++ back.utf8Encode) := by
    rw [List.utf8Encode_append, List.utf8Encode_cons, hc]
  simp only [hbytes]
  rw [ByteArray.getElem_append_right (Nat.le_refl _)]
  simp only [Nat.sub_self]
  rw [ByteArray.getElem_append_left (Nat.one_pos : 0 < (ByteArray.mk #[byte]).size)]
  rfl

theorem byte_of_isSeparator {front back : List Char} {c : Char} (h : isSeparator c) {i : Nat}
    (hi : i < (front ++ c :: back).utf8Encode.size) (hle : byteLength front ≤ i)
    (hlt : i < byteLength front + c.utf8Size) :
    (front ++ c :: back).utf8Encode[i] = 0x20 ∨ (front ++ c :: back).utf8Encode[i] = 0x09 := by
  rcases Bool.or_eq_true_iff.mp h with hblank | htab
  · rw [beq_iff_eq] at hblank
    exact .inl (byte_of_utf8Encode (hblank ▸ rfl) hi hle hlt)
  · rw [beq_iff_eq] at htab
    exact .inr (byte_of_utf8Encode (htab ▸ rfl) hi hle hlt)

theorem extract_utf8Encode (front slice back : List Char) :
    (front ++ (slice ++ back)).utf8Encode.extract (byteLength front) (byteLength front + byteLength slice) =
      slice.utf8Encode := by
  have hfront : front.utf8Encode.extract front.utf8Encode.size
      (front.utf8Encode.size + slice.utf8Encode.size) = ByteArray.empty :=
    ByteArray.extract_eq_empty_iff.mpr (Nat.min_le_right _ _)
  rw [← utf8Encode_size, ← utf8Encode_size, List.utf8Encode_append, List.utf8Encode_append,
    ByteArray.extract_append, hfront, ByteArray.empty_append, Nat.sub_self, Nat.add_sub_cancel_left,
    ByteArray.extract_append_eq_left rfl]

theorem byteLength_pos {cs : List Char} (h : cs ≠ []) : 0 < byteLength cs := by
  obtain ⟨c, cs, rfl⟩ := List.exists_cons_of_ne_nil h
  rw [byteLength_cons]
  exact Nat.add_pos_left c.utf8Size_pos _

end Token

open Token

/-- A token of a line: its column is a range of the content, and it shows the bytes there. -/
structure Token.IsCutFrom (content : String) (t : Column × Token) : Prop where
  nonempty : t.1.start < t.1.stop
  lies : t.1.LiesIn content
  shown : ∃ slice : String, slice.toUTF8 = content.toUTF8.extract t.1.start t.1.stop ∧ t.2.text = t.2.shown slice

/-- The lexer loses nothing of a line that it accepts. The tokens stand one behind the other, each at a range of bytes that is
not empty and starts and stops between two characters; it shows the bytes there. Every byte that belongs to no token is a blank or
a tab. -/
theorem lex_lossless {content : String} {tokens : List (Column × Token)} (h : Token.lex content = .ok tokens) :
    tokens.Pairwise Behind ∧ (∀ t ∈ tokens, IsCutFrom content t) ∧
      ∀ i (hi : i < content.toUTF8.size), (∀ t ∈ tokens, i < t.1.start ∨ t.1.stop ≤ i) →
        content.toUTF8[i] = 0x20 ∨ content.toUTF8[i] = 0x09 := by
  have hlexes : Lexes 0 content.toList tokens := lexes_of_lexFrom h (Nat.le_refl _)
  have hbytes : content.toUTF8 = content.toList.utf8Encode := String.utf8Encode_toList.symm
  refine ⟨hlexes.pairwise, fun t ht => ?_, fun i hi houtside => ?_⟩
  · obtain ⟨front, slice, back, hcs, hne, hcolumn, hshows⟩ := hlexes.takenFrom t ht
    have hlies := locates_lex content
    rw [h] at hlies
    refine ⟨?_, hlies t ht, String.ofList slice, ?_, hshows⟩
    · rw [hcolumn]
      exact Nat.lt_add_of_pos_right (byteLength_pos hne)
    · rw [hcolumn, hbytes, hcs, Nat.zero_add, extract_utf8Encode]
      exact String.toByteArray_ofList
  · have hlt : i < byteLength content.toList := by
      rwa [← utf8Encode_size, ← hbytes]
    obtain ⟨front, c, back, hcs, hle, hlt⟩ := exists_char_of_lt hlt
    simp only [hbytes, hcs] at hi ⊢
    rcases hlexes.covers hcs with hseparator | ⟨t, ht, hstart, hstop⟩
    · exact byte_of_isSeparator hseparator hi hle hlt
    · have hoff := houtside t ht
      omega

/-- A line with all kinds of tokens, and characters of one, two and three bytes. -/
def mixedLine : String :=
  "if a$<>\"é\"\tthen? 1e5:rem ü→"

theorem lex_lossless_mixed :
    ∃ tokens, Token.lex mixedLine = .ok tokens ∧
      tokens.map (fun t => t.2.text) = ["IF", "A$", "<>", "\"é\"", "THEN", "PRINT", "1E5", ":", "REM", " ü→"] ∧
      tokens.Pairwise Behind ∧ (∀ t ∈ tokens, IsCutFrom mixedLine t) ∧
      ∀ i (hi : i < mixedLine.toUTF8.size), (∀ t ∈ tokens, i < t.1.start ∨ t.1.stop ≤ i) →
        mixedLine.toUTF8[i] = 0x20 ∨ mixedLine.toUTF8[i] = 0x09 := by
  have hline : (Token.lex mixedLine).toOption.map (List.map fun t => t.2.text) =
      some ["IF", "A$", "<>", "\"é\"", "THEN", "PRINT", "1E5", ":", "REM", " ü→"] := by
    decide +kernel
  cases hlex : Token.lex mixedLine with
  | error e =>
      rw [hlex] at hline
      cases hline
  | ok tokens =>
      rw [hlex] at hline
      exact ⟨tokens, rfl, Option.some.inj hline, lex_lossless hlex⟩

end LineBasic
