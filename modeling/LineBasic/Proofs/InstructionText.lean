import LineBasic.Proofs.StoredLines
import LineBasic.Proofs.WrittenNumbers

namespace LineBasic

open Text

variable {R : Type}

theorem Text.le_of_readNat? {bound n : Nat} {s : String} (h : readNat? bound s = some n) :
    n ≤ bound := by
  unfold readNat? at h
  split at h <;> exact le_of_readDigits? h

namespace Instruction

theorem legible_of_ofWord? {word : String} {i : Instruction R String} (h : ofWord? word = some i) :
    i.Legible := by
  unfold ofWord? at h
  split at h <;> cases h <;> trivial

theorem legible_of_ofWords? {word : String} {operands : List String} {i : Instruction R String}
    (h : ofWords? word operands = some i)
    (hsolid : ∀ operand ∈ operands, IsSolid operand.toList)
    (hends : ∀ operand, operands.getLast? = some operand → EndsNoLabel operand.toList) :
    i.Legible := by
  unfold ofWords? at h
  split at h
  case h_1 => exact legible_of_ofWord? h
  case h_2 =>
    obtain ⟨n, hn, rfl⟩ := Option.map_eq_some_iff.mp h
    exact le_of_readNat? hn
  case h_8 var limit step t =>
    cases h
    simp only [List.forall_mem_cons] at hsolid
    exact ⟨hsolid.1, hsolid.2.1, hsolid.2.2.1, hsolid.2.2.2.1, hends t rfl⟩
  case h_9 name _ | h_10 name _ =>
    obtain ⟨n, hn, rfl⟩ := Option.map_eq_some_iff.mp h
    exact ⟨hsolid name List.mem_cons_self, le_of_readNat? hn⟩
  case h_11 => cases h
  all_goals
    cases h
    exact ⟨hsolid _ List.mem_cons_self, hends _ rfl⟩

variable [NumberSystem R]

theorem legible_of_readTrimmed? {cs : List Char} (hink : EndsInInk cs) {i : Instruction R String}
    (h : readTrimmed? cs = some i) : i.Legible := by
  unfold readTrimmed? at h
  dsimp only at h
  split at h
  · split at h
    · cases h
    · rename_i hname
      cases h
      rw [Bool.or_eq_true, not_or, List.isEmpty_iff, List.any_eq_true] at hname
      rw [Legible, String.toList_ofList]
      exact ⟨hname.1, fun c hc => by simpa using fun hspace => hname.2 ⟨c, hc, hspace⟩⟩
  · rename_i hcolon
    split at h
    · obtain ⟨v, -, rfl⟩ := Option.map_eq_some_iff.mp h
      trivial
    · rw [words_trim] at h
      refine legible_of_ofWords? h (fun _ => isSolid_of_mem_words) fun operand hoperand => ?_
      -- The last operand ends as the whole text does.
      cases hrest : (cs.dropWhile (· != ' ')).getLast? with
      | none =>
          rw [List.getLast?_eq_none_iff.mp hrest] at hoperand
          cases hoperand
      | some c =>
          have hlast : cs.getLast? = some c := by
            rw [← List.takeWhile_append_dropWhile (p := (· != ' ')) (l := cs), List.getLast?_append,
              hrest]
            rfl
          obtain ⟨word, hword, hwordlast⟩ := getLast?_wordsFrom hrest (hink c hlast) []
          obtain rfl : word = operand := Option.some.inj (hword.symm.trans hoperand)
          rw [EndsNoLabel, hwordlast, ← hlast]
          exact hcolon

theorem legible_of_read {text : String} {i : Instruction R String} (h : read text = .ok i) :
    i.Legible := by
  unfold read at h
  dsimp only at h
  split at h
  · rename_i hread
    cases h
    exact legible_of_readTrimmed? (endsInInk_trimRight _) hread
  · cases h

end Instruction

namespace NumberSystem

variable [NumberSystem R]

/-- A number is the same as itself, and one that is undefined is the same as another one that is. -/
def IsSame (m n : R) : Prop :=
  m = n ∨ isUndefined m ∧ isUndefined n

end NumberSystem

namespace Instruction

variable [NumberSystem R]

/-- Two instructions are the same, where undefined numbers are not told apart. -/
def IsSame : Instruction R String → Instruction R String → Prop
  | literal (.number m), literal (.number n) => NumberSystem.IsSame m n
  | i, j => i = j

/-- An instruction that was read from some text is read from its own text, too, if a number in it is read as it is written. -/
theorem text_form_stable {text : String} {i : Instruction R String} (h : read text = .ok i)
    (hnumber : ∀ n, i = literal (.number n) →
      ∃ m, NumberSystem.read? (NumberSystem.write n) = some m ∧ NumberSystem.IsSame m n) :
    ∃ j, read (i.text id) = .ok j ∧ j.IsSame i := by
  have hread := (legible_of_read h).spells.read_eq
  rw [String.ofList_toList] at hread
  refine ⟨i.reread, hread, ?_⟩
  cases i with
  | literal v =>
      cases v with
      | string s => rfl
      | number n =>
          obtain ⟨m, hm, hsame⟩ := hnumber n rfl
          rw [reread, Value.reread, hm]
          exact hsame
  | _ => rfl

/-- An instruction is read from one text, written as the other, and the same when it is read again. -/
def Returns (rough plain : String) : Prop :=
  ∃ i j : Instruction Float String,
    read rough = .ok i ∧ i.text id = plain ∧ read plain = .ok j ∧ j.IsSame i

end Instruction

/-- A number in another spelling, an undefined number, a string with quotes and escapes that nobody would write, names with colons,
semicolons and quotes in them, and a label with colons. -/
theorem Instruction.text_form_stable_rough :
    Returns "\tLIT  +1.50E-1 " "LIT 0.15" ∧
    Returns "LIT -nan" "LIT NaN" ∧
    Returns "LIT \"say \"a\\b\"\n;:\"" "LIT \"say \\\"ab\\\"\\n;:\"" ∧
    Returns "NEXT I: \t ;L \"S:  F" "NEXT I: ;L \"S: F" ∧
    Returns " :a::\u2003" ":a::" := by
  refine ⟨?_, ?_, ?_, ?_, ?_⟩
  · obtain ⟨j, hj, hsame⟩ := text_form_stable (R := Float)
      (show read "\tLIT  +1.50E-1 " = .ok (literal (.number 0.15)) from rfl)
      fun n _ => ⟨n, Binary64.read?_write n, .inl rfl⟩
    exact ⟨_, j, rfl, rfl, hj, hsame⟩
  · obtain ⟨j, hj, hsame⟩ := text_form_stable (R := Float)
      (show read "LIT -nan" = .ok (literal (.number (Binary64.ofNumeral .undefined))) from rfl)
      fun n _ => ⟨n, Binary64.read?_write n, .inl rfl⟩
    exact ⟨_, j, rfl, rfl, hj, hsame⟩
  · obtain ⟨j, hj, hsame⟩ := text_form_stable (R := Float)
      (show read "LIT \"say \"a\\b\"\n;:\"" = .ok (literal (.string "say \"ab\"\n;:")) from rfl)
      nofun
    exact ⟨_, j, rfl, rfl, hj, hsame⟩
  · obtain ⟨j, hj, hsame⟩ := text_form_stable (R := Float)
      (show read "NEXT I: \t ;L \"S:  F" = .ok (next "I:" ";L" "\"S:" "F") from rfl) nofun
    exact ⟨_, j, rfl, rfl, hj, hsame⟩
  · obtain ⟨j, hj, hsame⟩ := text_form_stable (R := Float)
      (show read " :a::\u2003" = .ok (label ":a:") from rfl) nofun
    exact ⟨_, j, rfl, rfl, hj, hsame⟩

end LineBasic
