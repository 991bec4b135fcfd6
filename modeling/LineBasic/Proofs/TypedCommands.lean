import LineBasic.Input
import LineBasic.Proofs.StoredLines

namespace LineBasic

open Text

namespace Text

theorem IsSolid.endsInInk {cs : List Char} (h : IsSolid cs) : EndsInInk cs :=
  fun c hc => h.2 c (List.mem_of_getLast? hc)

theorem EndsInInk.append_both {cs ds : List Char} (h : EndsInInk cs) (hds : EndsInInk ds) :
    EndsInInk (cs ++ ds) := by
  by_cases hnil : ds = []
  · rwa [hnil, List.append_nil]
  · exact hds.append hnil

end Text

namespace Input

/-- Blanks in front of an argument. There may be none if a closing quote is in front of them. -/
structure IsGap (closed : Bool) (gap : List Char) : Prop where
  blank : ∀ c ∈ gap, isSpace c
  ne_nil : closed = false → gap ≠ []

/-- Arguments as they may be written behind the name of a command or behind other arguments, of which the last is closed by a quote
if `closed` holds. Quotes may be left off a word, and the closing one at the end of the line. -/
inductive Writes : (closed : Bool) → List String → List Char → Prop
  | nil {closed : Bool} : Writes closed [] []
  | quoted {closed : Bool} {gap cs : List Char} {arg : String} {args : List String}
      (hgap : IsGap closed gap) (hquote : '"' ∉ arg.toList) (h : Writes true args cs) :
      Writes closed (arg :: args) (gap ++ '"' :: (arg.toList ++ '"' :: cs))
  | bare {closed : Bool} {gap cs : List Char} {arg : String} {args : List String}
      (hgap : IsGap closed gap) (hquote : '"' ∉ arg.toList) (hsolid : IsSolid arg.toList)
      (h : Writes false args cs) : Writes closed (arg :: args) (gap ++ (arg.toList ++ cs))
  | unclosed {closed : Bool} {gap : List Char} {arg : String} (hgap : IsGap closed gap)
      (hquote : '"' ∉ arg.toList) (hink : EndsInInk arg.toList) :
      Writes closed [arg] (gap ++ '"' :: arg.toList)

section Writes

variable {closed : Bool} {args : List String} {cs : List Char}

theorem Writes.head_blank (h : Writes false args cs) : ∀ c, cs.head? = some c → isSpace c := by
  have hhead {gap rest : List Char} (hgap : IsGap false gap) (c : Char)
      (hc : (gap ++ rest).head? = some c) : isSpace c := by
    obtain ⟨d, gap, rfl⟩ := List.exists_cons_of_ne_nil (hgap.ne_nil rfl)
    cases hc
    exact hgap.blank c List.mem_cons_self
  cases h with
  | nil => nofun
  | quoted hgap => exact hhead hgap
  | bare hgap => exact hhead hgap
  | unclosed hgap => exact hhead hgap

theorem Writes.endsInInk (h : Writes closed args cs) : EndsInInk cs := by
  have hclose : EndsInInk ['"'] := by
    rintro c ⟨⟩
    decide
  induction h with
  | nil => exact nofun
  | quoted _ _ _ ih =>
      refine EndsInInk.append ?_ (List.cons_ne_nil _ _)
      rw [← List.singleton_append, ← List.append_assoc]
      exact EndsInInk.append (hclose.append_both ih) (List.cons_ne_nil _ _)
  | bare _ _ hsolid _ ih =>
      exact (hsolid.endsInInk.append_both ih).append (List.append_ne_nil_of_left_ne_nil hsolid.1 _)
  | unclosed _ _ hink => exact (hclose.append_both hink).append (List.cons_ne_nil _ _)

end Writes

section Arguments

variable {arg cs : List Char}

theorem arguments_spaces {gap : List Char} (h : ∀ c ∈ gap, isSpace c) (cs : List Char) :
    arguments (gap ++ cs) = arguments cs := by
  unfold arguments
  induction gap with
  | nil => rfl
  | cons c gap ih =>
      rw [List.forall_mem_cons] at h
      rw [List.cons_append, argumentsFrom, if_pos h.1, ih h.2]

theorem argumentsFrom_quoted (h : '"' ∉ arg) (before cs : List Char) :
    argumentsFrom (.quoted before) (arg ++ cs) = argumentsFrom (.quoted (arg.reverse ++ before)) cs := by
  induction arg generalizing before with
  | nil => rfl
  | cons c arg ih =>
      rw [List.mem_cons, not_or] at h
      rw [List.cons_append, argumentsFrom, if_neg (Ne.symm h.1), ih h.2, List.reverse_cons,
        List.append_assoc, List.singleton_append]

theorem argumentsFrom_bare (h : ∀ c ∈ arg, isSpace c = false) (before cs : List Char) :
    argumentsFrom (.bare before) (arg ++ cs) = argumentsFrom (.bare (arg.reverse ++ before)) cs := by
  induction arg generalizing before with
  | nil => rfl
  | cons c arg ih =>
      rw [List.forall_mem_cons] at h
      rw [List.cons_append, argumentsFrom, if_neg (by simp [h.1]), ih h.2, List.reverse_cons,
        List.append_assoc, List.singleton_append]

theorem arguments_quoted (h : '"' ∉ arg) (cs : List Char) :
    arguments ('"' :: (arg ++ '"' :: cs)) = String.ofList arg :: arguments cs := by
  rw [arguments, argumentsFrom, if_neg (by decide), if_pos rfl, argumentsFrom_quoted h, argumentsFrom,
    if_pos rfl, List.append_nil, List.reverse_reverse, arguments]

theorem arguments_unclosed (h : '"' ∉ arg) : arguments ('"' :: arg) = [String.ofList arg] := by
  have hread := argumentsFrom_quoted h [] []
  rw [List.append_nil, List.append_nil] at hread
  rw [arguments, argumentsFrom, if_neg (by decide), if_pos rfl, hread, argumentsFrom, Spot.last,
    List.reverse_reverse]

theorem argumentsFrom_word_end (word : List Char) (h : ∀ c, cs.head? = some c → isSpace c) :
    argumentsFrom (.bare word) cs = String.ofList word.reverse :: arguments cs := by
  unfold arguments
  cases cs with
  | nil => simp only [argumentsFrom, Spot.last]
  | cons c cs => simp only [argumentsFrom, h c rfl, if_true]

theorem arguments_word (hsolid : IsSolid arg) (hquote : '"' ∉ arg)
    (hcs : ∀ c, cs.head? = some c → isSpace c) :
    arguments (arg ++ cs) = String.ofList arg :: arguments cs := by
  obtain ⟨c, word, rfl⟩ := List.exists_cons_of_ne_nil hsolid.1
  obtain ⟨hc, hword⟩ := List.forall_mem_cons.mp hsolid.2
  rw [List.mem_cons, not_or] at hquote
  rw [arguments, List.cons_append, argumentsFrom, if_neg (by simp [hc]), if_neg (Ne.symm hquote.1),
    argumentsFrom_bare hword, argumentsFrom_word_end _ hcs, List.reverse_append, List.reverse_reverse]
  rfl

end Arguments

theorem Writes.arguments_eq {closed : Bool} {args : List String} {cs : List Char}
    (h : Writes closed args cs) : arguments cs = args := by
  induction h with
  | nil => rfl
  | quoted hgap hquote _ ih =>
      rw [arguments_spaces hgap.blank, arguments_quoted hquote, ih, String.ofList_toList]
  | bare hgap hquote hsolid hcs ih =>
      rw [arguments_spaces hgap.blank, arguments_word hsolid hquote hcs.head_blank, ih,
        String.ofList_toList]
  | unclosed hgap hquote _ =>
      rw [arguments_spaces hgap.blank, arguments_unclosed hquote, String.ofList_toList]

/-- Between blanks, a line writes the name of a command and some arguments. The name has no blanks, is no number and does not start
with a number sign; the arguments have no quotes in them. Then the line is this command, the letters of its name in upper case, with
these arguments, whether they are written with quotes, without them or without the last one. -/
theorem classify_of_writes {name : String} {args : List String} {front cs back : List Char}
    (hname : IsSolid name.toList) (hremark : name.toList.head? ≠ some '#')
    (hdigits : name.toList.all isDigit = false) (h : Writes false args cs)
    (hfront : ∀ c ∈ front, isSpace c) (hback : ∀ c ∈ back, isSpace c) :
    classify (String.ofList (front ++ (name.toList ++ cs ++ back))) = .command (upper name) args := by
  obtain ⟨c, letters, hcons⟩ := List.exists_cons_of_ne_nil hname.1
  have hc : isSpace c = false := hname.2 c (hcons ▸ List.mem_cons_self)
  have htrim : trim (front ++ (name.toList ++ cs ++ back)) = name.toList ++ cs := by
    have hleft : trimLeft (name.toList ++ cs ++ back) = name.toList ++ cs ++ back := by
      rw [hcons]
      exact trimLeft_of_head hc
    rw [trim, trimLeft_spaces hfront, hleft,
      (hname.endsInInk.append_both h.endsInInk).trimRight_append hback]
  have hempty : (name.toList ++ cs).isEmpty = false := by
    rw [hcons]
    rfl
  have hhead : (name.toList ++ cs).head? ≠ some '#' := by
    rw [hcons] at hremark ⊢
    exact hremark
  have hink : ∀ d ∈ name.toList, isInk d := fun d hd => by simp [isInk, hname.2 d hd]
  have hgap : ∀ d, cs.head? = some d → isInk d = false :=
    fun d hd => by simp [isInk, h.head_blank d hd]
  obtain ⟨htake, hdrop⟩ := takeWhile_span hink hgap
  unfold classify
  simp only [String.toList_ofList, htrim, hempty, htake, hdrop, hdigits, Bool.false_or, beq_iff_eq, hhead,
    if_false, Bool.false_eq_true, String.ofList_toList, h.arguments_eq]

/-- An empty argument directly behind a closing quote, a word, blanks in quotes, and a quote that is not closed. -/
theorem classify_of_writes_mixed :
    Writes false ["my game", "", "#1", "\t ", "open"] " \"my game\"\"\" \u3000#1 \"\t \" \"open".toList ∧
    classify "\u00a0 save \"my game\"\"\" \u3000#1 \"\t \" \"open \t" =
      .command "SAVE" ["my game", "", "#1", "\t ", "open"] := by
  have hspace (closed : Bool) : IsGap closed [' '] := ⟨by decide, fun _ => List.cons_ne_nil _ _⟩
  have hspaces : IsGap true [' ', '\u3000'] := ⟨by decide, nofun⟩
  have hnone : IsGap true [] := ⟨nofun, nofun⟩
  have hopen : EndsInInk "open".toList := IsSolid.endsInInk ⟨by decide, by decide⟩
  obtain ⟨cs, hwrites, hcs⟩ : ∃ cs, Writes false ["my game", "", "#1", "\t ", "open"] cs ∧
      cs = " \"my game\"\"\" \u3000#1 \"\t \" \"open".toList :=
    ⟨_, .quoted (hspace false) (by decide) <| .quoted hnone (by decide) <|
      .bare hspaces (by decide) ⟨by decide, by decide⟩ <| .quoted (hspace false) (by decide) <|
      .unclosed (hspace true) (by decide) hopen, by decide +kernel⟩
  rw [hcs] at hwrites
  have hname : IsSolid "save".toList := ⟨by decide, by decide⟩
  have hfront : ∀ c ∈ ['\u00a0', ' '], isSpace c := by decide
  have hback : ∀ c ∈ [' ', '\t'], isSpace c := by decide
  have hclassify := classify_of_writes hname (by decide) (by decide) hwrites hfront hback
  have htext : String.ofList (['\u00a0', ' '] ++
      ("save".toList ++ " \"my game\"\"\" \u3000#1 \"\t \" \"open".toList ++ [' ', '\t'])) =
        "\u00a0 save \"my game\"\"\" \u3000#1 \"\t \" \"open \t" := by decide +kernel
  have hupper : upper "save" = "SAVE" := by decide +kernel
  rw [htext, hupper] at hclassify
  exact ⟨hwrites, hclassify⟩

end Input

end LineBasic
