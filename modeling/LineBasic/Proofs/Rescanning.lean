import LineBasic.Proofs.Scanning

/-!
The tokens of a line under new numbers. Its references get other digits, and everything else in it is scanned as before.
-/

namespace LineBasic

open Text

namespace Token

/-- A token may start here: neither a separator nor a remark does. -/
def Starts (cs : List Char) : Prop :=
  ∀ c, cs.head? = some c → isSeparator c = false ∧ c ≠ '\''

/-- The tokens of a text that starts at byte `start` of its line. -/
inductive Lexes : Nat → List Char → List (Column × Token) → Prop where
  | nil (start : Nat) : Lexes start [] []
  | separator {start : Nat} {c : Char} {cs : List Char} {tokens : List (Column × Token)} :
      isSeparator c → Lexes (start + c.utf8Size) cs tokens → Lexes start (c :: cs) tokens
  | apostrophe (start : Nat) (cs : List Char) :
      Lexes start ('\'' :: cs) (remarkFrom start ('\'' :: cs))
  | rem (start : Nat) {taken rest : List Char} :
      Starts taken → scan (taken ++ rest) = ⟨.ok (keyword .rem), taken⟩ →
      Lexes start (taken ++ rest) ((⟨start, start + byteLength taken⟩, keyword .rem) ::
        remarkFrom (start + byteLength taken) rest)
  | token {start : Nat} {taken rest : List Char} {token : Token} {tokens : List (Column × Token)} :
      Starts taken → scan (taken ++ rest) = ⟨.ok token, taken⟩ → token ≠ keyword .rem →
      Lexes (start + byteLength taken) rest tokens →
      Lexes start (taken ++ rest) ((⟨start, start + byteLength taken⟩, token) :: tokens)

theorem exists_of_scan {cs : List Char} {token : Token} (h : (scan cs).token = .ok token) :
    ∃ taken rest, cs = taken ++ rest ∧ (scan cs).taken = taken ∧
      scan (taken ++ rest) = ⟨.ok token, taken⟩ := by
  have hsplit := List.prefix_iff_eq_append.mp (prefix_taken cs)
  refine ⟨(scan cs).taken, cs.drop (scan cs).taken.length, hsplit.symm, rfl, ?_⟩
  rw [hsplit, ← h]

theorem Starts.of_cons {c : Char} {cs taken rest : List Char} (hseparator : isSeparator c = false)
    (hapostrophe : c ≠ '\'') (hcs : c :: cs = taken ++ rest) : Starts taken := by
  intro d hd
  obtain ⟨taken', rfl⟩ := List.head?_eq_some_iff.mp hd
  obtain ⟨rfl, -⟩ := List.cons.inj hcs
  exact ⟨hseparator, hapostrophe⟩

theorem lexes_of_lexFrom {fuel start : Nat} {cs : List Char} {tokens : List (Column × Token)}
    (h : lexFrom fuel start cs = .ok tokens) (hfuel : cs.length ≤ fuel) : Lexes start cs tokens := by
  induction fuel generalizing start cs tokens with
  | zero =>
      obtain rfl := List.length_eq_zero_iff.mp (Nat.le_zero.mp hfuel)
      cases h
      exact .nil start
  | succ fuel ih =>
      cases cs with
      | nil =>
          cases h
          exact .nil start
      | cons c cs =>
          rw [List.length_cons, Nat.add_le_add_iff_right] at hfuel
          rw [lexFrom] at h
          split at h
          · rename_i hseparator
            exact .separator hseparator (ih h hfuel)
          · rename_i hseparator
            split at h
            · rename_i happostrophe
              cases h
              rw [eq_of_beq happostrophe]
              exact .apostrophe start cs
            · rename_i happostrophe
              extract_lets lexeme stop rest at h
              split at h
              · cases h
              · rename_i token htoken
                obtain ⟨taken, behind, hcs, htaken, hscan⟩ := exists_of_scan htoken
                have hstarts : Starts taken :=
                  .of_cons (Bool.not_eq_true _ ▸ hseparator) (by simpa using happostrophe) hcs
                have hrest : rest = behind := by
                  show (c :: cs).drop (scan (c :: cs)).taken.length = behind
                  rw [htaken, hcs, List.drop_left]
                have hstop : stop = start + byteLength taken := by
                  show start + byteLength (scan (c :: cs)).taken = _
                  rw [htaken]
                rw [hcs]
                rw [hrest, hstop] at h
                split at h
                · rename_i hrem
                  subst hrem
                  cases h
                  exact .rem start hstarts hscan
                · rename_i hrem
                  obtain ⟨tokens', htokens, heq⟩ := Stmt.bind_eq_ok h
                  cases heq
                  refine .token hstarts hscan hrem (ih htokens ?_)
                  have hlength := congrArg List.length hcs
                  have hpos := List.length_pos_iff.mpr (taken_ne_nil hscan)
                  rw [List.length_cons, List.length_append] at hlength
                  omega

theorem lexFrom_append {taken rest : List Char} {token : Token} (hstarts : Starts taken)
    (hscan : scan (taken ++ rest) = ⟨.ok token, taken⟩) (fuel start : Nat) :
    lexFrom (fuel + 1) start (taken ++ rest) =
      if token = keyword .rem then
        .ok ((⟨start, start + byteLength taken⟩, token) ::
          remarkFrom (start + byteLength taken) rest)
      else do
        let tokens ← lexFrom fuel (start + byteLength taken) rest
        return (⟨start, start + byteLength taken⟩, token) :: tokens := by
  obtain ⟨c, cs, rfl⟩ := List.exists_cons_of_ne_nil (taken_ne_nil hscan)
  obtain ⟨hseparator, hapostrophe⟩ := hstarts c rfl
  have hdrop : (c :: cs ++ rest).drop (c :: cs).length = rest := List.drop_left
  rw [List.cons_append] at hscan ⊢
  rw [lexFrom, if_neg (Bool.not_eq_true _ ▸ hseparator), if_neg (by simpa using hapostrophe), hscan]
  simp only [← List.cons_append, hdrop]

theorem Lexes.lexFrom_eq {start : Nat} {cs : List Char} {tokens : List (Column × Token)}
    (h : Lexes start cs tokens) {fuel : Nat} (hfuel : cs.length ≤ fuel) :
    lexFrom fuel start cs = .ok tokens := by
  induction h generalizing fuel with
  | nil => cases fuel <;> rfl
  | separator hseparator _ ih =>
      obtain ⟨fuel, rfl⟩ := Nat.exists_eq_add_one.mpr (Nat.lt_of_lt_of_le (Nat.succ_pos _) hfuel)
      rw [List.length_cons, Nat.add_le_add_iff_right] at hfuel
      rw [lexFrom, if_pos hseparator, ih hfuel]
  | apostrophe start cs =>
      obtain ⟨fuel, rfl⟩ := Nat.exists_eq_add_one.mpr (Nat.lt_of_lt_of_le (Nat.succ_pos _) hfuel)
      rw [lexFrom, if_neg (by decide), if_pos (by decide)]
  | rem start hstarts hscan =>
      have hpos := List.length_pos_iff.mpr (taken_ne_nil hscan)
      rw [List.length_append] at hfuel
      obtain ⟨fuel, rfl⟩ := Nat.exists_eq_add_one.mpr (by omega : 0 < fuel)
      rw [lexFrom_append hstarts hscan, if_pos rfl]
  | token hstarts hscan hrem h ih =>
      have hpos := List.length_pos_iff.mpr (taken_ne_nil hscan)
      rw [List.length_append] at hfuel
      obtain ⟨fuel, rfl⟩ := Nat.exists_eq_add_one.mpr (by omega : 0 < fuel)
      rw [lexFrom_append hstarts hscan, if_neg hrem, ih (by omega)]
      rfl

theorem Lexes.start_le {start : Nat} {cs : List Char} {tokens : List (Column × Token)}
    (h : Lexes start cs tokens) : ∀ t ∈ tokens, start ≤ t.1.start := by
  have hremark (start : Nat) (cs : List Char) : ∀ t ∈ remarkFrom start cs, start ≤ t.1.start := by
    unfold remarkFrom
    split <;> simp
  induction h with
  | nil => simp
  | separator _ _ ih => exact fun t ht => Nat.le_of_add_right_le (ih t ht)
  | apostrophe start cs => exact hremark _ _
  | rem start _ _ =>
      rw [List.forall_mem_cons]
      exact ⟨Nat.le_refl _, fun t ht => Nat.le_of_add_right_le (hremark _ _ t ht)⟩
  | token _ _ _ _ ih =>
      rw [List.forall_mem_cons]
      exact ⟨Nat.le_refl _, fun t ht => Nat.le_of_add_right_le (ih t ht)⟩

end Token

namespace Line

theorem splitBytes_byteLength (front rest : List Char) (count : Nat) :
    splitBytes (byteLength front + count) (front ++ rest) =
      (front ++ (splitBytes count rest).1, (splitBytes count rest).2) := by
  induction front with
  | nil => simp
  | cons c front ih =>
      have hpos := c.utf8Size_pos
      rw [byteLength_cons, List.cons_append, splitBytes, if_neg (by omega),
        show c.utf8Size + byteLength front + count - c.utf8Size = byteLength front + count by omega,
        ih]
      rfl

theorem splitBytes_zero (cs : List Char) : splitBytes 0 cs = ([], cs) := by
  cases cs <;> rfl

theorem replaceFrom_append {start : Nat} {edits : List (Column × String)} (front : List Char)
    (h : ∀ edit ∈ edits, start + byteLength front ≤ edit.1.start) (rest : List Char) :
    replaceFrom start edits (front ++ rest) =
      front ++ replaceFrom (start + byteLength front) edits rest := by
  cases edits with
  | nil => rfl
  | cons edit edits =>
      obtain ⟨column, new⟩ := edit
      have hle : start + byteLength front ≤ column.start := h _ List.mem_cons_self
      have hcount : column.start - start =
          byteLength front + (column.start - (start + byteLength front)) := by omega
      rw [replaceFrom, replaceFrom, hcount, splitBytes_byteLength]
      simp only [List.append_assoc]

theorem replaceFrom_front (start : Nat) (new : String) (edits : List (Column × String))
    (old rest : List Char) :
    replaceFrom start ((⟨start, start + byteLength old⟩, new) :: edits) (old ++ rest) =
      new.toList ++ replaceFrom (start + byteLength old) edits rest := by
  have hold : splitBytes (byteLength old) (old ++ rest) = (old, rest) := by
    have h := splitBytes_byteLength old rest 0
    rw [splitBytes_zero, Nat.add_zero, List.append_nil] at h
    exact h
  rw [replaceFrom, Nat.sub_self, splitBytes_zero]
  simp only [Nat.add_sub_cancel_left, hold, List.nil_append]

variable (change : LineNumber → Option LineNumber)

/-- The number that a line has under new numbers. -/
def newNumber (n : LineNumber) : LineNumber :=
  (change n).getD n

/-- The new number of a token, if it is a reference to a line that gets one. -/
def newNumber? (inTargets : Bool) : Token → Option LineNumber
  | .number s => if inTargets then (readNat? maxWord32 s).bind change else none
  | _ => none

def renumberToken (inTargets : Bool) (token : Token) : Token :=
  match newNumber? change inTargets token with
  | some new => .number (toString new)
  | none => token

/-- The tokens of a line under its new numbers, where `inTargets` says whether the first of them may be a reference. -/
def renumberTokens (inTargets : Bool) : List Token → List Token
  | [] => []
  | token :: tokens =>
      renumberToken change inTargets token :: renumberTokens (opensTargets inTargets token) tokens

def editsFrom (inTargets : Bool) (tokens : List (Column × Token)) : List (Column × String) :=
  (targetsFrom inTargets tokens).filterMap fun (column, old) =>
    (change old).map fun new => (column, toString new)

variable {change}

theorem editsFrom_cons (inTargets : Bool) (column : Column) (token : Token)
    (tokens : List (Column × Token)) :
    editsFrom change inTargets ((column, token) :: tokens) =
      ((newNumber? change inTargets token).map fun new => (column, toString new)).toList ++
        editsFrom change (opensTargets inTargets token) tokens := by
  cases token with
  | number s =>
      cases inTargets with
      | false => rfl
      | true =>
          unfold editsFrom newNumber?
          rw [targetsFrom]
          dsimp only
          rw [if_pos rfl]
          cases readNat? maxWord32 s with
          | none => rfl
          | some old =>
              rw [List.filterMap_cons, Option.bind_some]
              cases change old <;> rfl
  | _ => rfl

theorem editsFrom_remarkFrom (inTargets : Bool) (start : Nat) (cs : List Char) :
    editsFrom change inTargets (Token.remarkFrom start cs) = [] := by
  unfold Token.remarkFrom
  split
  · rfl
  · rw [editsFrom_cons]
    rfl

theorem renumberTokens_remarkFrom (inTargets : Bool) (start : Nat) (cs : List Char) :
    renumberTokens change inTargets ((Token.remarkFrom start cs).map Prod.snd) =
      (Token.remarkFrom start cs).map Prod.snd := by
  unfold Token.remarkFrom
  split <;> rfl

theorem start_le_editsFrom (change : LineNumber → Option LineNumber) (inTargets : Bool)
    {tokens : List (Column × Token)} {start : Nat} (h : ∀ t ∈ tokens, start ≤ t.1.start) :
    ∀ edit ∈ editsFrom change inTargets tokens, start ≤ edit.1.start := by
  induction tokens generalizing inTargets with
  | nil => exact fun edit hedit => nomatch hedit
  | cons t tokens ih =>
      rw [List.forall_mem_cons] at h
      intro edit hedit
      rw [editsFrom_cons, List.mem_append] at hedit
      rcases hedit with hedit | hedit
      · cases hnew : newNumber? change inTargets t.2 with
        | none =>
            rw [hnew] at hedit
            cases hedit
        | some new =>
            rw [hnew] at hedit
            obtain rfl := List.mem_singleton.mp hedit
            exact h.1
      · exact ih _ h.2 edit hedit

theorem newNumber?_eq_some {inTargets : Bool} {token : Token} {new : LineNumber}
    (h : newNumber? change inTargets token = some new) :
    ∃ s old, token = .number s ∧ inTargets ∧ readNat? maxWord32 s = some old ∧
      change old = some new := by
  unfold newNumber? at h
  split at h
  · rename_i s
    split at h
    · rename_i htargets
      obtain ⟨old, hread, hchange⟩ := Option.bind_eq_some_iff.mp h
      exact ⟨s, old, rfl, htargets, hread, hchange⟩
    · cases h
  · cases h

end Line

namespace Token

open Line

variable {change : LineNumber → Option LineNumber}

theorem starts_toDigits (n : Nat) : Starts (Nat.toDigits 10 n) := by
  intro c hc
  have hdigit : isDigit c := isDigit_of_mem_toDigits (List.mem_of_head? hc)
  constructor
  · rw [isSeparator, Bool.or_eq_false_iff, beq_eq_false_iff_ne, beq_eq_false_iff_ne]
    constructor <;>
    · rintro rfl
      exact absurd hdigit (by decide)
  · rintro rfl
    exact absurd hdigit (by decide)

theorem map_snd_remarkFrom (start start' : Nat) (cs : List Char) :
    (remarkFrom start cs).map Prod.snd = (remarkFrom start' cs).map Prod.snd := by
  unfold remarkFrom
  split <;> rfl

theorem scan_renumberToken {inTargets : Bool} {taken rest rest' : List Char} {token : Token}
    {new : LineNumber} (hscan : scan (taken ++ rest) = ⟨.ok token, taken⟩)
    (hnew : newNumber? change inTargets token = some new) (hfront : SameFront rest rest') :
    SameFront (taken ++ rest) (Nat.toDigits 10 new ++ rest') ∧
      scan (Nat.toDigits 10 new ++ rest') =
        ⟨.ok (renumberToken change inTargets token), Nat.toDigits 10 new⟩ := by
  obtain ⟨s, old, rfl, -, hread, -⟩ := newNumber?_eq_some hnew
  have hbehind : numberSpan false false ([] ++ rest) = [] := numberSpan_behind hscan hread
  have hdigits := digits_of_scan hscan hread
  constructor
  · obtain ⟨c, cs, rfl⟩ := List.exists_cons_of_ne_nil (taken_ne_nil hscan)
    obtain ⟨d, ds, hnew, hd⟩ := exists_toDigits_cons new
    rw [hnew]
    exact .inr ⟨c, d, rfl, rfl, hdigits c List.mem_cons_self, hd⟩
  · have hhead := hfront.head?_eq (not_isDigit_of_numberSpan hbehind)
    rw [renumberToken, hnew]
    exact scan_toDigits new (numberSpan_congr hbehind hhead)

/-- The tokens of a text whose references were replaced are those of the text under their new numbers, and the two texts
start alike. -/
theorem Lexes.renumber {start : Nat} {cs : List Char} {tokens : List (Column × Token)}
    (h : Lexes start cs tokens) (change : LineNumber → Option LineNumber) (inTargets : Bool)
    (start' : Nat) :
    SameFront cs (replaceFrom start (editsFrom change inTargets tokens) cs) ∧
      ∃ tokens', Lexes start' (replaceFrom start (editsFrom change inTargets tokens) cs) tokens' ∧
        tokens'.map Prod.snd = renumberTokens change inTargets (tokens.map Prod.snd) := by
  induction h generalizing inTargets start' with
  | nil => exact ⟨.inl rfl, [], .nil start', rfl⟩
  | @separator start c cs tokens hseparator h ih =>
      have hedits := start_le_editsFrom change inTargets h.start_le
      have hreplace : replaceFrom start (editsFrom change inTargets tokens) (c :: cs) =
          c :: replaceFrom (start + c.utf8Size) (editsFrom change inTargets tokens) cs :=
        replaceFrom_append [c] (by simpa using hedits) cs
      obtain ⟨-, tokens', hlexes, htokens⟩ := ih inTargets (start' + c.utf8Size)
      rw [hreplace]
      exact ⟨.cons c _ _, tokens', .separator hseparator hlexes, htokens⟩
  | apostrophe start cs =>
      rw [editsFrom_remarkFrom, renumberTokens_remarkFrom]
      exact ⟨.inl rfl, _, .apostrophe start' cs, map_snd_remarkFrom _ _ _⟩
  | @rem start taken rest hstarts hscan =>
      rw [editsFrom_cons, editsFrom_remarkFrom]
      refine ⟨.inl rfl, _, .rem start' hstarts hscan, ?_⟩
      rw [List.map_cons, List.map_cons, renumberTokens, renumberTokens_remarkFrom,
        map_snd_remarkFrom]
      rfl
  | @token start taken rest token tokens hstarts hscan hrem h ih =>
      have hedits := start_le_editsFrom change (opensTargets inTargets token) h.start_le
      rw [editsFrom_cons, List.map_cons, renumberTokens]
      cases hnew : newNumber? change inTargets token with
      | none =>
          obtain ⟨hfront, tokens', hlexes, htokens⟩ :=
            ih (opensTargets inTargets token) (start' + byteLength taken)
          have hsame : renumberToken change inTargets token = token := by
            rw [renumberToken, hnew]
          rw [Option.map_none, Option.toList_none, List.nil_append, replaceFrom_append taken hedits,
            hsame, ← htokens]
          exact ⟨hfront.append taken, _,
            .token hstarts (scan_congr hscan hfront) hrem hlexes, rfl⟩
      | some new =>
          obtain ⟨hfront, tokens', hlexes, htokens⟩ :=
            ih (opensTargets inTargets token) (start' + byteLength (Nat.toDigits 10 new))
          obtain ⟨hfront', hscan'⟩ := scan_renumberToken hscan hnew hfront
          have hrem' : renumberToken change inTargets token ≠ keyword .rem := by
            rw [renumberToken, hnew]
            exact Token.noConfusion
          rw [Option.map_some, Option.toList_some, List.singleton_append, replaceFrom_front,
            toList_toString, ← htokens]
          exact ⟨hfront', _, .token (starts_toDigits new) hscan' hrem' hlexes, rfl⟩

/-- The tokens of a line under new numbers. -/
theorem lex_renumber {l : Line} {tokens : List (Column × Token)} (h : lex l.content = .ok tokens) :
    ∃ tokens', lex (l.renumber change).content = .ok tokens' ∧
      tokens'.map Prod.snd = renumberTokens change false (tokens.map Prod.snd) := by
  obtain ⟨-, tokens', hlexes, htokens⟩ :=
    (lexes_of_lexFrom h (Nat.le_refl _)).renumber change false 0
  have hcontent : (l.renumber change).content.toList =
      replaceFrom 0 (editsFrom change false tokens) l.content.toList := by
    show String.toList (String.ofList (replaceFrom 0 _ _)) = _
    rw [String.toList_ofList, references, h]
    rfl
  refine ⟨tokens', ?_, htokens⟩
  unfold lex
  dsimp only
  rw [hcontent]
  exact hlexes.lexFrom_eq (Nat.le_refl _)

end Token

end LineBasic
