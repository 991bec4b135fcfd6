import LineBasic.Proofs.Saving

namespace LineBasic

open Text

namespace Listing

variable {listing : Listing}

theorem get?_of_mem {l : Line} (h : l ∈ listing.lines) : listing.get? l.number = some l := by
  obtain ⟨front, rest, hlines⟩ := List.append_of_mem h
  have hascending := listing.ascending
  rw [hlines, List.pairwise_append] at hascending
  rw [get?, hlines, List.find?_eq_some_iff_append]
  refine ⟨beq_self_eq_true _, front, rest, rfl, ?_⟩
  intro k hk
  have hbefore : k.number < l.number := hascending.2.2 k hk l List.mem_cons_self
  simpa using Nat.ne_of_lt hbefore

/-- A line is found under its own number, and no line is found under another one. -/
theorem get?_eq_some_iff {number : LineNumber} {l : Line} :
    listing.get? number = some l ↔ l ∈ listing.lines ∧ l.number = number := by
  constructor
  · intro h
    have hnumber := List.find?_some h
    exact ⟨List.mem_of_find?_eq_some h, beq_iff_eq.mp hnumber⟩
  · rintro ⟨hl, rfl⟩
    exact get?_of_mem hl

/-- A stored line is found under its number, and every other line as before. -/
theorem get?_insert (l : Line) (listing : Listing) (number : LineNumber) :
    (listing.insert l).get? number = if number = l.number then some l else listing.get? number := by
  have hplace : ∀ ks : List Line, (place l ks).find? (fun k => k.number == number) =
      if number = l.number then some l else ks.find? fun k => k.number == number := by
    intro ks
    by_cases hnumber : number = l.number
    · rw [if_pos hnumber]
      induction ks with
      | nil => simp [place, hnumber]
      | cons k ks ih =>
          unfold place
          split
          · simp [hnumber]
          · split
            · simp [hnumber]
            · rename_i hne
              rw [List.find?_cons_of_neg (by simpa [hnumber] using Ne.symm hne), ih]
    · rw [if_neg hnumber]
      have hskip {l : Line} (hl : l.number ≠ number) (ks : List Line) :
          (l :: ks).find? (fun k => k.number == number) = ks.find? fun k => k.number == number :=
        List.find?_cons_of_neg (by simpa using hl)
      induction ks with
      | nil => rw [place, hskip (Ne.symm hnumber)]
      | cons k ks ih =>
          unfold place
          split
          · rw [hskip (Ne.symm hnumber)]
          · split
            · rename_i heq
              rw [hskip (Ne.symm hnumber), hskip (heq ▸ Ne.symm hnumber)]
            · rw [List.find?_cons, List.find?_cons, ih]
  exact hplace listing.lines

structure IsProper (listing : Listing) : Prop where
  ascending : (listing.lines.map Line.number).Pairwise (· < ·)
  own_number : ∀ number l,
    listing.get? number = some l ↔ l ∈ listing.lines ∧ l.number = number
  number_le : ∀ l ∈ listing.lines, l.number ≤ 65529
  not_blank : ∀ l ∈ listing.lines, isBlank l.content = false
  ends_in_ink : ∀ l ∈ listing.lines,
    ∃ c, l.content.toList.getLast? = some c ∧ isSpace c = false

theorem isProper_of_each (h : listing.Each Line.IsProper) : listing.IsProper where
  ascending := List.pairwise_map.mpr listing.ascending
  own_number _ _ := get?_eq_some_iff
  number_le l hl := (h l hl).number_le
  not_blank l hl := (h l hl).not_empty
  ends_in_ink l hl := by
    have hlast := List.getLast?_eq_some_getLast (h l hl).content_ne
    exact ⟨_, hlast, (h l hl).ends_in_ink _ hlast⟩

end Listing

namespace Session

variable {σ : Type} {storage : Storage (StateM σ)} {text : String} {s s' : Session}

structure IsProper (s : Session) : Prop where
  listing : s.listing.Each Line.IsProper
  auto : s.auto.IsSound

theorem isProper_new (config : Config) : (new config).IsProper where
  listing := Listing.each_empty
  auto := by rintro ⟨⟩

theorem Follows.isProper (h : s.Follows storage text s') (hproper : s.IsProper) : s'.IsProper where
  listing := (h.listing hproper.auto).each_isProper hproper.listing
  auto := h.auto hproper.auto

end Session

/-- Whatever lines a shell has taken and whatever the storage has made of them, the numbers of the stored program ascend and
none exceeds 65529, every line is stored under its own number, and every content has a last character that is not a
blank. -/
theorem stored_program_is_proper {R W σ : Type} [NumberSystem R] {storage : Storage (StateM σ)}
    {shell : Shell R W} (h : shell.Reached storage fun _ => True) :
    shell.session.listing.IsProper := by
  have hsession := h.session_induction Session.isProper_new
    fun _ _ _ _ hfollows hproper => hfollows.isProper hproper
  exact Listing.isProper_of_each hsession.listing

namespace Shell

def afterLines (texts : List String) : Shell Float Unit :=
  texts.foldl (fun shell text => ((shell.takeLine FileTree.timeless text).run (.startingAt [])).1.2)
    (.new {} .silent () [])

theorem Reached.foldl_takeLine {R W σ : Type} [NumberSystem R] {storage : Storage (StateM σ)}
    {shell : Shell R W} (h : shell.Reached storage fun _ => True) (texts : List String) (s : σ) :
    (texts.foldl (fun shell text => ((shell.takeLine storage text).run s).1.2) shell).Reached storage
      fun _ => True := by
  induction texts generalizing shell with
  | nil => exact h
  | cons text texts ih => exact ih (h.takeLine trivial s)

theorem reached_afterLines (texts : List String) :
    (afterLines texts).Reached FileTree.timeless fun _ => True := by
  unfold afterLines
  exact (Reached.new {} .silent () []).foldl_takeLine texts _

/-- Lines that reach the last number by AUTO, carry blanks at both ends, and are renumbered. -/
def roughLines : List String :=
  ["AUTO 65529 1", "PRINT 1 \t", " 10 GOTO 65529\t ", "20 \t", "RENUM 100"]

end Shell

theorem stored_program_is_proper_rough :
    (Shell.afterLines Shell.roughLines).Reached FileTree.timeless (fun _ => True) ∧
    (Shell.afterLines Shell.roughLines).session.listing.lines =
      [{ number := 100, content := "GOTO 110" }, { number := 110, content := "PRINT 1" }] ∧
    (Shell.afterLines Shell.roughLines).session.listing.IsProper := by
  have hreached := Shell.reached_afterLines Shell.roughLines
  exact ⟨hreached, by decide +kernel, stored_program_is_proper hreached⟩

end LineBasic
