import LineBasic.Manifest
import LineBasic.Proofs.TimeText

namespace LineBasic

open Text

namespace Json

def pieceOf (c : Char) : Piece :=
  if c.toNat < 0x20 ∧ c ≠ '\n' ∧ c ≠ '\r' ∧ c ≠ '\t' ∧ c ≠ '\x08' ∧ c ≠ '\x0c' then .unit c.toNat
  else .char c

theorem unit?_hexDigits {n : Nat} (h : n < 0x10000) :
    ∃ a b c d, hexDigits 4 n = [a, b, c, d] ∧
      unit? (some a) (some b) (some c) (some d) = some (.unit n) := by
  refine ⟨hexDigit (n / 16 / 16 / 16 % 16), hexDigit (n / 16 / 16 % 16), hexDigit (n / 16 % 16),
    hexDigit (n % 16), rfl, ?_⟩
  have hdigit : ∀ m, hexValue? (hexDigit (m % 16)) = some (m % 16) := fun m =>
    hexValue?_hexDigit (Nat.mod_lt m (by decide))
  have hsum : ((n / 16 / 16 / 16 % 16 * 16 + n / 16 / 16 % 16) * 16 + n / 16 % 16) * 16 + n % 16 = n := by
    omega
  simp [unit?, hdigit, hsum]

theorem takePieces_cons {c : Char} (hquote : c ≠ '"') (hslash : c ≠ '\\')
    (hplain : ¬ c.toNat < 0x20) (cs : Source) :
    takePieces (some c :: cs) =
      (takePieces cs).map fun found => (.char c :: found.1, found.2) := by
  rw [takePieces.eq_def]
  split
  case h_4 =>
    rename_i heq
    cases heq
    rw [if_neg (by simp [hplain, hslash])]
    cases takePieces cs <;> rfl
  all_goals simp_all

theorem takePieces_escape (c : Char) (cs : Source) :
    takePieces ((escape c).map some ++ cs) =
      (takePieces cs).map fun found => (pieceOf c :: found.1, found.2) := by
  unfold escape
  split
  case h_8 =>
    rename_i hquote hslash hfeed hreturn htab hback hform
    split
    · rename_i hcontrol
      obtain ⟨d₁, d₂, d₃, d₄, hdigits, hunit⟩ := unit?_hexDigits (n := c.toNat) (by omega)
      have hpiece : pieceOf c = .unit c.toNat :=
        if_pos ⟨hcontrol, hfeed, hreturn, htab, hback, hform⟩
      cases h : takePieces cs <;> simp [takePieces, hdigits, hunit, hpiece, h]
    · rename_i hplain
      have hpiece : pieceOf c = .char c := if_neg fun hunit => hplain hunit.1
      rw [hpiece]
      exact takePieces_cons hquote hslash hplain cs
  all_goals
    cases h : takePieces cs <;> simp [takePieces, escaped?, pieceOf, h]

theorem takePieces_quoted (cs : List Char) (rest : Source) :
    takePieces ((cs.flatMap escape).map some ++ some '"' :: rest) =
      some (cs.map pieceOf, rest) := by
  induction cs with
  | nil => simp [takePieces]
  | cons c cs ih =>
      rw [List.flatMap_cons, List.map_append, List.append_assoc, takePieces_escape, ih]
      rfl

theorem charsOf?_cons (c : Char) (pieces : List Piece) :
    charsOf? (pieceOf c :: pieces) = (charsOf? pieces).map (c :: ·) := by
  unfold pieceOf
  split
  · rename_i hcontrol
    have hhigh : isHighUnit c.toNat = false := by
      simp only [isHighUnit, Bool.and_eq_false_iff, decide_eq_false_iff_not]
      omega
    have hlow : isLowUnit c.toNat = false := by
      simp only [isLowUnit, Bool.and_eq_false_iff, decide_eq_false_iff_not]
      omega
    cases pieces with
    | nil => simp [charsOf?, hhigh, hlow]
    | cons piece pieces => cases piece <;> simp [charsOf?, hhigh, hlow]
  · rw [charsOf?]

theorem charsOf?_map (cs : List Char) : charsOf? (cs.map pieceOf) = some cs := by
  induction cs with
  | nil => rfl
  | cons c cs ih =>
      rw [List.map_cons, charsOf?_cons, ih]
      rfl

theorem map_quoted (s : String) (rest : Source) :
    (quoted s).map some ++ rest =
      some '"' :: ((s.toList.flatMap escape).map some ++ some '"' :: rest) := by
  simp [quoted]

theorem takeText_escape (s : String) (rest : Source) :
    takeText ((s.toList.flatMap escape).map some ++ some '"' :: rest) = some (some s, rest) := by
  rw [takeText, takePieces_quoted, Option.map_some]
  dsimp only
  rw [charsOf?_map, Option.map_some, String.ofList_toList]

mutual

/-- A value as it is found in its written form. -/
def found : Json String → Found
  | null => null
  | bool b => bool b
  | number literal => number literal
  | string text => string (some text)
  | array items => array (foundAll items)
  | object members => object (foundMembers members)

def foundAll : List (Json String) → List Found
  | [] => []
  | item :: items => item.found :: foundAll items

def foundMembers : List (String × Json String) → List (Option String × Found)
  | [] => []
  | (key, value) :: members => (some key, value.found) :: foundMembers members

end

mutual

/-- Every number in a value is a natural one. -/
def IsNatural : Json String → Prop
  | number literal => ∃ n : Nat, literal = toString n
  | array items => AllNatural items
  | object members => MembersNatural members
  | _ => True

def AllNatural : List (Json String) → Prop
  | [] => True
  | item :: items => item.IsNatural ∧ AllNatural items

def MembersNatural : List (String × Json String) → Prop
  | [] => True
  | (_, value) :: members => value.IsNatural ∧ MembersNatural members

end

mutual

/-- How deep and how long a value is, for the reader. -/
def size : Json String → Nat
  | array items => 1 + sizeAll items
  | object members => 1 + sizeMembers members
  | _ => 1

def sizeAll : List (Json String) → Nat
  | [] => 0
  | item :: items => 1 + item.size + sizeAll items

def sizeMembers : List (String × Json String) → Nat
  | [] => 0
  | (_, value) :: members => 1 + value.size + sizeMembers members

end

/-- What is behind a value does not carry on a number. -/
def EndsNumber (rest : Source) : Prop :=
  ∀ c, rest.head? = some (some c) → isDigit c = false ∧ c ≠ '.' ∧ c ≠ 'e' ∧ c ≠ 'E'

theorem takeDigits_some (digits : List Char) (hdigits : ∀ c ∈ digits, isDigit c)
    {rest : Source} (hrest : EndsNumber rest) :
    takeDigits (digits.map some ++ rest) = (digits, rest) := by
  induction digits with
  | nil =>
      cases rest with
      | nil => rfl
      | cons c rest =>
          cases c with
          | none => rfl
          | some c => simp [takeDigits, (hrest c rfl).1]
  | cons c digits ih =>
      rw [List.forall_mem_cons] at hdigits
      simp [takeDigits, hdigits.1, ih hdigits.2]

theorem head?_toDigits_ne {n : Nat} (h : 0 < n) : (Nat.toDigits 10 n).head? ≠ some '0' := by
  induction n using Nat.strongRecOn with
  | ind n ih =>
      rcases Nat.lt_or_ge n 10 with hlt | hge
      · have hdigit : ∀ n < 10, 0 < n → Nat.digitChar n ≠ '0' := by decide
        rw [Nat.toDigits_of_lt_base hlt, List.head?_cons, Ne, Option.some.injEq]
        exact hdigit n hlt h
      · have hquotient := ih (n / 10) (Nat.div_lt_self h (by decide)) (by omega)
        rw [Nat.toDigits_of_base_le (by decide) hge,
          List.head?_append_of_ne_nil _ Nat.toDigits_ne_nil]
        exact hquotient

theorem takeWhole_toDigits (n : Nat) {rest : Source} (hrest : EndsNumber rest) :
    takeWhole ((Nat.toDigits 10 n).map some ++ rest) = some (Nat.toDigits 10 n, rest) := by
  rw [takeWhole, takeDigits_some _ (fun c hc => isDigit_of_mem_toDigits hc) hrest]
  split
  · rename_i heq
    exact absurd (congrArg Prod.fst heq) Nat.toDigits_ne_nil
  · rename_i c cs rest' heq
    have hdigits : Nat.toDigits 10 n = '0' :: c :: cs := congrArg Prod.fst heq
    rcases Nat.eq_zero_or_pos n with rfl | hpos
    · cases hdigits
    · exact absurd (by rw [hdigits]; rfl) (head?_toDigits_ne hpos)
  · rfl

theorem takeNumber_toString (n : Nat) {rest : Source} (hrest : EndsNumber rest) :
    takeNumber ((toString n).toList.map some ++ rest) = some (number (toString n), rest) := by
  have hwhole := takeWhole_toDigits n hrest
  have hfraction : takeFraction rest = some ([], rest) := by
    unfold takeFraction
    split
    · exact absurd rfl (hrest _ rfl).2.1
    · rfl
  have hexponent : takeExponent rest = some ([], rest) := by
    unfold takeExponent
    split
    · exact absurd rfl (hrest _ rfl).2.2.1
    · exact absurd rfl (hrest _ rfl).2.2.2
    · rfl
  have hsign : ∀ cs, (Nat.toDigits 10 n).map some ++ rest ≠ some '-' :: cs := by
    obtain ⟨c, digits, hcons, hc⟩ := Line.exists_toDigits_cons n
    intro cs heq
    rw [hcons] at heq
    cases heq
    exact absurd hc (by decide)
  have htext : String.ofList (Nat.toDigits 10 n) = toString n :=
    Nat.toString_eq_ofList_toDigits.symm
  rw [Line.toList_toString, takeNumber.eq_def]
  split
  · rename_i heq
    split at heq
    · rename_i hminus
      exact absurd hminus (hsign _)
    · cases heq
      simp [hwhole, hfraction, hexponent, htext]

def IsOpening (c : Char) : Prop :=
  isFiller (some c) = false ∧ c ≠ ']' ∧ c ≠ '\x7d'

theorem isOpening_of_isDigit {c : Char} (h : isDigit c) : IsOpening c := by
  refine ⟨?_, ?_, ?_⟩
  · simp only [isFiller, Bool.or_eq_false_iff, beq_eq_false_iff_ne, ne_eq, Option.some.injEq]
    refine ⟨⟨⟨?_, ?_⟩, ?_⟩, ?_⟩ <;>
    · rintro rfl
      exact absurd h (by decide)
  · rintro rfl
    exact absurd h (by decide)
  · rintro rfl
    exact absurd h (by decide)

theorem exists_opening {j : Json String} (h : j.IsNatural) (depth : Nat) :
    ∃ c cs, write depth j = c :: cs ∧ IsOpening c := by
  cases j with
  | null => exact ⟨_, _, by rw [write], by unfold IsOpening; decide⟩
  | bool b =>
      cases b with
      | false => exact ⟨_, _, by rw [write], by unfold IsOpening; decide⟩
      | true => exact ⟨_, _, by rw [write], by unfold IsOpening; decide⟩
  | number literal =>
      obtain ⟨n, rfl⟩ := h
      obtain ⟨c, cs, hcons, hc⟩ := Line.exists_toDigits_cons n
      exact ⟨c, cs, by rw [write, Line.toList_toString, hcons], isOpening_of_isDigit hc⟩
  | string text => exact ⟨_, _, by rw [write]; rfl, by unfold IsOpening; decide⟩
  | array items =>
      cases items with
      | nil => exact ⟨_, _, by rw [write], by unfold IsOpening; decide⟩
      | cons item items => exact ⟨_, _, by rw [write]; rfl, by unfold IsOpening; decide⟩
  | object members =>
      cases members with
      | nil => exact ⟨_, _, by rw [write], by unfold IsOpening; decide⟩
      | cons member members => exact ⟨_, _, by rw [write]; rfl, by unfold IsOpening; decide⟩

theorem skipFiller_newLine (depth : Nat) (rest : Source) :
    skipFiller ((newLine depth).map some ++ rest) = skipFiller rest := by
  rw [skipFiller, skipFiller, List.dropWhile_append_of_pos]
  intro c hc
  simp only [newLine, List.map_cons, List.map_replicate, List.mem_cons, List.mem_replicate] at hc
  rcases hc with rfl | ⟨-, rfl⟩ <;> rfl

theorem skipFiller_cons {c : Char} (h : isFiller (some c) = false) (rest : Source) :
    skipFiller (some c :: rest) = some c :: rest := by
  rw [skipFiller, List.dropWhile_cons_of_neg (by simp [h])]

theorem takeValue_newLine (fuel depth : Nat) (cs : Source) :
    takeValue fuel ((newLine depth).map some ++ cs) = takeValue fuel cs := by
  cases fuel with
  | zero => rfl
  | succ fuel => rw [takeValue, takeValue, skipFiller_newLine]

theorem takeItems_newLine (fuel depth : Nat) (cs : Source) :
    takeItems fuel ((newLine depth).map some ++ cs) = takeItems fuel cs := by
  cases fuel with
  | zero => rfl
  | succ fuel => rw [takeItems, takeItems, takeValue_newLine]

theorem takeMembers_newLine (fuel depth : Nat) (cs : Source) :
    takeMembers fuel ((newLine depth).map some ++ cs) = takeMembers fuel cs := by
  cases fuel with
  | zero => rfl
  | succ fuel => rw [takeMembers, takeMembers, skipFiller_newLine]

theorem endsNumber_cons {c : Char} (h : isDigit c = false ∧ c ≠ '.' ∧ c ≠ 'e' ∧ c ≠ 'E')
    (rest : Source) : EndsNumber (some c :: rest) := by
  intro d hd
  cases hd
  exact h

theorem endsNumber_writeItems (depth depth' : Nat) (items : List (Json String)) (rest : Source) :
    EndsNumber ((writeItems depth items ++ newLine depth').map some ++ rest) := by
  cases items with
  | nil => exact endsNumber_cons (by decide) _
  | cons item items =>
      rw [writeItems]
      exact endsNumber_cons (by decide) _

theorem endsNumber_writeMembers (depth depth' : Nat) (members : List (String × Json String))
    (rest : Source) : EndsNumber ((writeMembers depth members ++ newLine depth').map some ++ rest) := by
  cases members with
  | nil => exact endsNumber_cons (by decide) _
  | cons member members =>
      rw [writeMembers]
      exact endsNumber_cons (by decide) _

/-- With this much fuel, what was written is found again. -/
structure ReadsBack (fuel : Nat) : Prop where
  value : ∀ (j : Json String) (depth : Nat) (rest : Source), j.IsNatural → j.size ≤ fuel →
    EndsNumber rest → takeValue fuel ((write depth j).map some ++ rest) = some (j.found, rest)
  items : ∀ (item : Json String) (items : List (Json String)) (depth depth' : Nat) (rest : Source),
    AllNatural (item :: items) → sizeAll (item :: items) ≤ fuel →
    takeItems fuel ((write depth item).map some ++
        ((writeItems depth items ++ newLine depth').map some ++ some ']' :: rest)) =
      some (foundAll (item :: items), rest)
  members : ∀ (member : String × Json String) (members : List (String × Json String))
    (depth depth' : Nat) (rest : Source),
    MembersNatural (member :: members) → sizeMembers (member :: members) ≤ fuel →
    takeMembers fuel ((writeMember depth member).map some ++
        ((writeMembers depth members ++ newLine depth').map some ++ some '\x7d' :: rest)) =
      some (foundMembers (member :: members), rest)

theorem readsBack_zero : ReadsBack 0 where
  value := by
    intro j depth rest hj hfuel
    cases j <;> simp [size] at hfuel
  items := by
    intro item items depth depth' rest hitems hfuel
    simp [sizeAll] at hfuel
  members := by
    intro member members depth depth' rest hmembers hfuel
    simp [sizeMembers] at hfuel

theorem takeValue_digit {c : Char} (h : isDigit c) (fuel : Nat) (cs : Source) :
    takeValue (fuel + 1) (some c :: cs) = takeNumber (some c :: cs) := by
  rw [takeValue, skipFiller_cons (isOpening_of_isDigit h).1]
  split
  case h_7 => rfl
  all_goals
    rename_i heq
    cases heq
    exact absurd h (by decide)

theorem takeValue_bracket {c : Char} (hfiller : isFiller (some c) = false) (hclose : c ≠ ']')
    (fuel depth : Nat) (cs : Source) :
    takeValue (fuel + 1) (some '[' :: ((newLine depth).map some ++ some c :: cs)) =
      (takeItems fuel (some c :: cs)).map fun found => (array found.1, found.2) := by
  rw [takeValue, skipFiller_cons (by decide)]
  simp only [skipFiller_newLine, skipFiller_cons hfiller]
  split
  · rename_i heq
    cases heq
    exact absurd rfl hclose
  · rfl

theorem takeValue_brace (fuel depth : Nat) (key : String) (cs : Source) :
    takeValue (fuel + 1)
        (some '\x7b' :: ((newLine depth).map some ++ ((quoted key).map some ++ cs))) =
      (takeMembers fuel ((quoted key).map some ++ cs)).map fun found =>
        (object found.1, found.2) := by
  rw [takeValue, skipFiller_cons (by decide)]
  simp only [skipFiller_newLine, map_quoted, skipFiller_cons (c := '"') (by decide)]
  rfl

theorem takeMembers_quoted {fuel : Nat} {cs behind : Source} {value : Found}
    (hvalue : takeValue fuel cs = some (value, behind)) (key : String) :
    takeMembers (fuel + 1) ((quoted key ++ [':', ' ']).map some ++ cs) =
      match skipFiller behind with
      | some '\x7d' :: cs => some ([(some key, value)], cs)
      | some ',' :: cs =>
        (takeMembers fuel cs).map fun found => ((some key, value) :: found.1, found.2)
      | _ => none := by
  have hspace : takeValue fuel (some ' ' :: cs) = some (value, behind) := by
    rw [← hvalue]
    cases fuel with
    | zero => rfl
    | succ fuel =>
        rw [takeValue, takeValue]
        rfl
  rw [List.map_append, List.append_assoc, map_quoted, takeMembers, skipFiller_cons (by decide)]
  simp only [takeText_escape, Option.bind_eq_bind, Option.bind_some, List.map_cons, List.map_nil,
    List.cons_append, List.nil_append, skipFiller_cons (c := ':') (by decide), hspace]
  simp only [Option.map_eq_bind]
  rfl

namespace ReadsBack

variable {fuel : Nat} (ih : ReadsBack fuel)
include ih

theorem items_succ (item : Json String) (items : List (Json String)) (depth depth' : Nat)
    (rest : Source) (hitems : AllNatural (item :: items))
    (hfuel : sizeAll (item :: items) ≤ fuel + 1) :
    takeItems (fuel + 1) ((write depth item).map some ++
        ((writeItems depth items ++ newLine depth').map some ++ some ']' :: rest)) =
      some (foundAll (item :: items), rest) := by
  rw [sizeAll] at hfuel
  rw [takeItems, ih.value item depth _ hitems.1 (by omega) (endsNumber_writeItems _ _ _ _)]
  cases items with
  | nil =>
      rw [writeItems, List.nil_append]
      simp only [Option.bind_eq_bind, Option.bind_some, skipFiller_newLine,
        skipFiller_cons (c := ']') (by decide)]
      rfl
  | cons item' items =>
      have hrest := ih.items item' items depth depth' rest hitems.2 (by omega)
      simp only [writeItems, List.map_append, List.map_cons, List.cons_append, List.append_assoc,
        Option.bind_eq_bind, Option.bind_some, skipFiller_cons (c := ',') (by decide)] at hrest ⊢
      rw [takeItems_newLine, hrest]
      rfl

theorem members_succ (member : String × Json String) (members : List (String × Json String))
    (depth depth' : Nat) (rest : Source) (hmembers : MembersNatural (member :: members))
    (hfuel : sizeMembers (member :: members) ≤ fuel + 1) :
    takeMembers (fuel + 1) ((writeMember depth member).map some ++
        ((writeMembers depth members ++ newLine depth').map some ++ some '\x7d' :: rest)) =
      some (foundMembers (member :: members), rest) := by
  obtain ⟨key, value⟩ := member
  rw [sizeMembers] at hfuel
  have hvalue := ih.value value depth _ hmembers.1 (by omega)
    (endsNumber_writeMembers depth depth' members (some '\x7d' :: rest))
  rw [writeMember, List.map_append, List.append_assoc, takeMembers_quoted hvalue]
  cases members with
  | nil =>
      rw [writeMembers, List.nil_append, skipFiller_newLine, skipFiller_cons (by decide)]
      rfl
  | cons member' members =>
      have hrest := ih.members member' members depth depth' rest hmembers.2 (by omega)
      simp only [writeMembers, List.map_append, List.map_cons, List.cons_append, List.append_assoc,
        skipFiller_cons (c := ',') (by decide)] at hrest ⊢
      rw [takeMembers_newLine, hrest]
      rfl

theorem value_succ (j : Json String) (depth : Nat) (rest : Source) (hj : j.IsNatural)
    (hfuel : j.size ≤ fuel + 1) (hrest : EndsNumber rest) :
    takeValue (fuel + 1) ((write depth j).map some ++ rest) = some (j.found, rest) := by
  cases j with
  | null =>
      rw [write, takeValue]
      rfl
  | bool b =>
      cases b <;>
      · rw [write, takeValue]
        rfl
  | number literal =>
      obtain ⟨n, rfl⟩ := hj
      have hnumber := takeNumber_toString n hrest
      obtain ⟨c, cs, hcons, hc⟩ := Line.exists_toDigits_cons n
      have htake := takeValue_digit hc fuel (cs.map some ++ rest)
      rw [Line.toList_toString, hcons, List.map_cons, List.cons_append] at hnumber
      rw [write, Line.toList_toString, hcons, List.map_cons, List.cons_append, htake, hnumber]
      rfl
  | string text =>
      rw [write, map_quoted, takeValue, skipFiller_cons (by decide)]
      simp only [takeText_escape]
      rfl
  | array items =>
      cases items with
      | nil =>
          rw [write, takeValue]
          rfl
      | cons item items =>
          rw [size] at hfuel
          have hitems := ih.items item items (depth + 1) depth rest hj (by omega)
          obtain ⟨c, cs, hcons, hfiller, hclose, -⟩ := exists_opening hj.1 (depth + 1)
          have htake := takeValue_bracket hfiller hclose fuel (depth + 1)
            (cs.map some ++ ((writeItems (depth + 1) items ++ newLine depth).map some ++
              some ']' :: rest))
          simp only [hcons, List.map_cons, List.cons_append] at hitems
          rw [hitems] at htake
          simp only [write, hcons, List.map_append, List.map_cons, List.map_nil, List.cons_append,
            List.append_assoc, List.nil_append] at htake ⊢
          rw [htake]
          rfl
  | object members =>
      cases members with
      | nil =>
          rw [write, takeValue]
          rfl
      | cons member members =>
          obtain ⟨key, value⟩ := member
          rw [size] at hfuel
          have hmembers := ih.members (key, value) members (depth + 1) depth rest hj (by omega)
          have htake := takeValue_brace fuel (depth + 1) key ([':', ' '].map some ++
            ((write (depth + 1) value).map some ++
              ((writeMembers (depth + 1) members ++ newLine depth).map some ++
                some '\x7d' :: rest)))
          simp only [writeMember, List.map_append, List.append_assoc] at hmembers
          simp only [List.map_append, List.append_assoc] at htake
          rw [hmembers] at htake
          simp only [write, writeMember, List.map_append, List.map_cons, List.map_nil,
            List.cons_append, List.append_assoc, List.nil_append] at htake ⊢
          rw [htake]
          rfl

end ReadsBack

theorem readsBack (fuel : Nat) : ReadsBack fuel := by
  induction fuel with
  | zero => exact readsBack_zero
  | succ fuel ih => exact ⟨ih.value_succ, ih.items_succ, ih.members_succ⟩

theorem length_newLine (depth : Nat) : 1 ≤ (newLine depth).length := by
  rw [newLine, List.length_cons]
  omega

mutual

theorem size_le (depth : Nat) : ∀ j : Json String, j.size ≤ (write depth j).length + 1
  | .null | .bool _ | .number _ | .string _ => by simp [size]
  | .array [] => by simp [size, sizeAll]
  | .array (item :: items) => by
      have hitem := size_le (depth + 1) item
      have hitems := sizeAll_le (depth + 1) items
      have hline := length_newLine depth
      simp only [size, sizeAll, write, List.length_append, List.length_cons, List.length_nil]
      omega
  | .object [] => by simp [size, sizeMembers]
  | .object ((key, value) :: members) => by
      have hvalue := size_le (depth + 1) value
      have hmembers := sizeMembers_le (depth + 1) members
      have hline := length_newLine depth
      simp only [size, sizeMembers, write, writeMember, List.length_append, List.length_cons,
        List.length_nil]
      omega

theorem sizeAll_le (depth : Nat) :
    ∀ items : List (Json String), sizeAll items ≤ (writeItems depth items).length
  | [] => by simp [sizeAll]
  | item :: items => by
      have hitem := size_le depth item
      have hitems := sizeAll_le depth items
      have hline := length_newLine depth
      simp only [sizeAll, writeItems, List.length_append, List.length_cons]
      omega

theorem sizeMembers_le (depth : Nat) :
    ∀ members : List (String × Json String),
      sizeMembers members ≤ (writeMembers depth members).length
  | [] => by simp [sizeMembers]
  | (key, value) :: members => by
      have hvalue := size_le depth value
      have hmembers := sizeMembers_le depth members
      have hline := length_newLine depth
      simp only [sizeMembers, writeMembers, writeMember, List.length_append, List.length_cons]
      omega

end

/-- A value is read back from its text. -/
theorem read?_text {j : Json String} (h : j.IsNatural) :
    read? (j.text.toList.map some) = some j.found := by
  have hend : EndsNumber [] := by
    intro c hc
    cases hc
  have hsize := size_le 0 j
  have htake := (readsBack (2 * (write 0 j).length + 1)).value j 0 [] h (by omega) hend
  rw [List.append_nil] at htake
  rw [text, String.toList_ofList, read?, List.length_map, htake]
  rfl

theorem nat?_ofNat {T : Type} {bound n : Nat} (h : n ≤ bound) :
    nat? bound (ofNat n : Json T) = some n := by
  rw [ofNat, nat?, Line.toList_toString]
  exact readDigits?_toDigits h

end Json

namespace Asset

theorem isNatural_toJson (a : Asset) : a.toJson.IsNatural :=
  ⟨trivial, trivial, ⟨a.checksum.toNat, rfl⟩, trivial⟩

theorem ofJson?_toJson (a : Asset) : ofJson? a.toJson.found = some a := by
  have hchecksum : a.checksum.toNat ≤ maxWord32 := Nat.le_of_lt_succ a.checksum.toNat_lt
  have hrecord : Json.record? ["kind", "name", "crc32"] a.toJson.found =
      some [some (.string (some a.kind.name)), some (.string (some a.name)),
        some (.ofNat a.checksum.toNat)] := rfl
  rw [ofJson?, hrecord]
  simp [kindOf?, AssetKind.ofName?_name, Json.text?, Json.nat?_ofNat hchecksum]

end Asset

namespace Manifest

theorem allNatural_assets (as : List Asset) : Json.AllNatural (as.map Asset.toJson) := by
  induction as with
  | nil => trivial
  | cons a as ih => exact ⟨a.isNatural_toJson, ih⟩

theorem isNatural_toJson (m : Manifest) : m.toJson.IsNatural := by
  refine ⟨trivial, trivial, ?_, allNatural_assets m.assets, trivial⟩
  cases m.saved <;> trivial

theorem assetsOf?_toJson (as : List Asset) :
    assetsOf? (Json.array (as.map Asset.toJson)).found = some as := by
  show (Json.foundAll (as.map Asset.toJson)).mapM Asset.ofJson? = some as
  induction as with
  | nil => rfl
  | cons a as ih =>
      rw [List.map_cons, Json.foundAll, List.mapM_cons, Asset.ofJson?_toJson, ih]
      rfl

/-- A manifest whose times can be written. -/
structure IsProper (m : Manifest) : Prop where
  created : m.created.IsProper
  saved : ∀ t, m.saved = some t → t.IsProper

theorem IsProper.savedOf?_toJson {m : Manifest} (h : m.IsProper) :
    savedOf? (Json.found (match m.saved with
      | some t => .string t.text
      | none => .null)) = some m.saved := by
  cases hsaved : m.saved with
  | none => rfl
  | some t =>
      show (timeOf? (.string (some t.text))).map some = _
      rw [timeOf?, Json.text?, Option.bind_eq_bind, Option.bind_some,
        (h.saved t hsaved).read?_text]
      rfl

/-- A manifest is read back as it was written. -/
theorem IsProper.read?_text {m : Manifest} (h : m.IsProper) :
    Manifest.read? m.text.toUTF8 = some m := by
  have hrecord : Json.record? ["name", "created", "saved", "assets"] m.toJson.found =
      some [some (.string (some m.name)), some (.string (some m.created.text)),
        some (Json.found (match m.saved with
          | some t => .string t.text
          | none => .null)),
        some (Json.array (m.assets.map Asset.toJson)).found] := rfl
  rw [Manifest.read?, units_toUTF8, text, Json.read?_text m.isNatural_toJson,
    Option.bind_eq_bind, Option.bind_some, ofJson?, hrecord]
  simp only [Option.bind_eq_bind, Option.bind_some, Json.fieldD, assetsOf?_toJson,
    h.savedOf?_toJson, timeOf?, Json.text?, h.created.read?_text]
  rfl

theorem isProper_of_timeOf? {j : Json.Found} {t : Timestamp} (h : timeOf? j = some t) :
    t.IsProper := by
  rw [timeOf?, Option.bind_eq_bind, Option.bind_eq_some_iff] at h
  obtain ⟨s, -, hread⟩ := h
  exact Timestamp.isProper_of_read? hread

theorem isProper_of_savedOf? {j : Option Json.Found} {saved : Option Timestamp}
    (h : Json.fieldD savedOf? none j = some saved) : ∀ t, saved = some t → t.IsProper := by
  rintro t rfl
  cases j with
  | none => cases h
  | some j =>
      rw [Json.fieldD] at h
      unfold savedOf? at h
      split at h
      · cases h
      · obtain ⟨t', htime, heq⟩ := Option.map_eq_some_iff.mp h
        cases heq
        exact isProper_of_timeOf? htime

theorem isProper_of_read? {bytes : ByteArray} {m : Manifest} (h : Manifest.read? bytes = some m) :
    m.IsProper := by
  rw [Manifest.read?, Option.bind_eq_bind, Option.bind_eq_some_iff] at h
  obtain ⟨j, -, h⟩ := h
  rw [ofJson?, Option.bind_eq_bind, Option.bind_eq_some_iff] at h
  obtain ⟨fields, -, h⟩ := h
  split at h
  · split at h
    · cases h
    · simp only [Option.bind_eq_bind, Option.bind_eq_some_iff] at h
      obtain ⟨name, -, created, hcreated, saved, hsaved, assets, -, heq⟩ := h
      cases heq
      exact ⟨isProper_of_timeOf? hcreated, isProper_of_savedOf? hsaved⟩
  · cases h

end Manifest

end LineBasic
