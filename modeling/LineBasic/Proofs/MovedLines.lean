import LineBasic.Proofs.Acceptance
import LineBasic.Proofs.RenumberedListing
import LineBasic.Proofs.Saving

namespace LineBasic

open Text Line

namespace Listing

/-- Numbers for `count` lines, each one with a number behind it that fits into 32 bits. -/
def Fits (start increment count : Nat) : Prop :=
  ∀ i < count, start + i * increment ≤ maxLineNumber ∧ start + (i + 1) * increment ≤ maxWord32

theorem fits_succ (start increment count : Nat) :
    Fits start increment (count + 1) ↔
      start ≤ maxLineNumber ∧ start + increment ≤ maxWord32 ∧
        Fits (start + increment) increment count := by
  have hshift (i : Nat) : start + (i + 1) * increment = start + increment + i * increment := by
    rw [Nat.succ_mul]
    omega
  unfold Fits
  rw [Nat.forall_lt_succ_left, and_assoc]
  simp only [hshift, Nat.zero_mul, Nat.add_zero]

theorem fits_iff (start increment count : Nat) :
    Fits start increment count ↔
      (0 < count → start + (count - 1) * increment ≤ maxLineNumber ∧
        start + count * increment ≤ maxWord32) := by
  constructor
  · intro h hcount
    have hlast := h (count - 1) (Nat.sub_lt hcount Nat.one_pos)
    rwa [Nat.sub_add_cancel hcount] at hlast
  · intro h i hi
    obtain ⟨hlast, hnext⟩ := h (Nat.zero_lt_of_lt hi)
    have hmul : i * increment ≤ (count - 1) * increment := Nat.mul_le_mul_right _ (Nat.le_sub_one_of_lt hi)
    have hmul' : (i + 1) * increment ≤ count * increment := Nat.mul_le_mul_right _ hi
    constructor <;> omega

theorem newNumbers_of_fits {start increment : Nat} {numbers : List LineNumber}
    (h : Fits start increment numbers.length) :
    newNumbers start increment numbers =
      .ok (numbers.mapIdx fun i old => (old, start + i * increment)) := by
  induction numbers generalizing start with
  | nil => rfl
  | cons old rest ih =>
      obtain ⟨hstart, hnext, hrest⟩ := (fits_succ _ _ _).mp h
      have hshift (i : Nat) : start + (i + 1) * increment = start + increment + i * increment := by
        rw [Nat.succ_mul]
        omega
      rw [newNumbers, if_neg (Nat.not_lt_of_le hstart), if_neg (Nat.not_lt_of_le hnext), ih hrest,
        List.mapIdx_cons]
      simp only [hshift, Nat.zero_mul, Nat.add_zero]
      rfl

theorem fits_of_newNumbers {start increment : Nat} {numbers : List LineNumber}
    {changes : List (LineNumber × LineNumber)} (h : newNumbers start increment numbers = .ok changes) :
    Fits start increment numbers.length := by
  induction numbers generalizing start changes with
  | nil => exact nofun
  | cons old rest ih =>
      rw [newNumbers] at h
      split at h
      · cases h
      · split at h
        · cases h
        · rename_i hstart hnext
          cases hchanges : newNumbers (start + increment) increment rest with
          | error e =>
              rw [hchanges] at h
              cases h
          | ok changes' =>
              exact (fits_succ _ _ _).mpr
                ⟨Nat.le_of_not_lt hstart, Nat.le_of_not_lt hnext, ih hchanges⟩

/-- The numbers of the lines from number `first` on. -/
def moved (first : Nat) (listing : Listing) : List LineNumber :=
  (listing.lines.map Line.number).filter (first ≤ ·)

/-- The numbers of the lines below number `first`. -/
def below (first : Nat) (listing : Listing) : List LineNumber :=
  (listing.lines.map Line.number).filter (· < first)

/-- The new numbers: the `i`-th line from number `first` on gets number `start + i * increment`. -/
def change (start increment first : Nat) (listing : Listing) (old : LineNumber) :
    Option LineNumber :=
  ((listing.moved first).idxOf? old).map fun i => start + i * increment

/-- The documented condition for new numbers: they ascend, none of them gets in front of a line that stays, and the last
one is a line number. -/
def HasRoom (start increment first : Nat) (listing : Listing) : Prop :=
  0 < increment ∧
    (0 < (listing.moved first).length →
      (∀ n ∈ listing.below first, n < start) ∧
        start + ((listing.moved first).length - 1) * increment ≤ maxLineNumber)

variable {listing listing' : Listing} {start increment first : Nat}

/-- The greatest number below `first` stands for all of them. -/
theorem reorders_eq_false_iff :
    ((listing.below first).getLast?.any (start ≤ ·)) = false ↔ ∀ n ∈ listing.below first, n < start := by
  rw [Option.any_eq_false]
  constructor
  · intro h n hn
    obtain ⟨last, hlast⟩ := Option.isSome_iff_exists.mp (List.getLast?_isSome.mpr (List.ne_nil_of_mem hn))
    have hle := le_getLast? (listing.pairwise_numbers.sublist List.filter_sublist) hn hlast
    exact Nat.lt_of_le_of_lt hle (Nat.lt_of_not_le (of_decide_eq_false (h last hlast)))
  · intro h last hlast
    exact decide_eq_false (Nat.not_le_of_lt (h last (List.mem_of_getLast? hlast)))

theorem renumbering_eq_ok_iff {changes : List (LineNumber × LineNumber)} :
    listing.renumbering start increment first = .ok changes ↔
      (0 < increment ∧ (0 < (listing.moved first).length → ∀ n ∈ listing.below first, n < start) ∧
        Fits start increment (listing.moved first).length) ∧
      (listing.moved first).mapIdx (fun i old => (old, start + i * increment)) = changes := by
  have hunfold : listing.renumbering start increment first =
      if increment = 0 then .error (ErrorCode.illegalFunctionCall.error "INCREMENT")
      else if !(listing.moved first).isEmpty && (listing.below first).getLast?.any (start ≤ ·) then
        .error (ErrorCode.illegalFunctionCall.error "LINES WOULD REORDER")
      else newNumbers start increment (listing.moved first) := rfl
  have horder : ¬(!(listing.moved first).isEmpty && (listing.below first).getLast?.any (start ≤ ·)) ↔
      (0 < (listing.moved first).length → ∀ n ∈ listing.below first, n < start) := by
    rw [Bool.not_eq_true, Bool.and_eq_false_imp, reorders_eq_false_iff, Bool.not_eq_true',
      List.isEmpty_eq_false_iff, List.length_pos_iff]
  rw [hunfold]
  constructor
  · intro h
    split at h
    · cases h
    · split at h
      · cases h
      · rename_i hincrement hbehind
        have hfits := fits_of_newNumbers h
        refine ⟨⟨Nat.pos_of_ne_zero hincrement, horder.mp hbehind, hfits⟩, ?_⟩
        rw [newNumbers_of_fits hfits] at h
        exact Except.ok.inj h
  · rintro ⟨⟨hincrement, hbehind, hfits⟩, rfl⟩
    rw [if_neg (Nat.ne_of_gt hincrement), if_neg (horder.mpr hbehind), newNumbers_of_fits hfits]

theorem isOk_renumber_iff :
    (listing.renumber start increment first).isOk ↔
      listing.HasRoom start increment first ∧
        (0 < (listing.moved first).length →
          start + (listing.moved first).length * increment ≤ maxWord32) := by
  have hisOk : (listing.renumber start increment first).isOk ↔
      ∃ changes, listing.renumbering start increment first = .ok changes := by
    unfold renumber
    cases listing.renumbering start increment first with
    | error e => exact ⟨nofun, nofun⟩
    | ok changes => exact ⟨fun _ => ⟨changes, rfl⟩, fun _ => rfl⟩
  rw [hisOk]
  simp only [renumbering_eq_ok_iff, exists_and_left, exists_eq', and_true, fits_iff, HasRoom]
  tauto

theorem lookup_mapIdx (numbers : List LineNumber) (f : Nat → LineNumber) (n : LineNumber) :
    (numbers.mapIdx fun i old => (old, f i)).lookup n = (numbers.idxOf? n).map f := by
  induction numbers generalizing f with
  | nil => rfl
  | cons old rest ih =>
      rw [List.mapIdx_cons, List.lookup_cons, ih fun i => f (i + 1), List.idxOf?_cons]
      by_cases h : old = n
      · subst h
        simp
      · rw [beq_false_of_ne h, beq_false_of_ne (Ne.symm h), if_neg Bool.false_ne_true,
          Option.map_map]
        rfl

theorem lookup_of_renumbering {changes : List (LineNumber × LineNumber)}
    (h : listing.renumbering start increment first = .ok changes) :
    (changes.lookup ·) = listing.change start increment first := by
  obtain ⟨-, rfl⟩ := renumbering_eq_ok_iff.mp h
  funext n
  exact lookup_mapIdx _ _ n

theorem lines_renumber (h : listing.renumber start increment first = .ok listing') :
    listing'.lines = listing.lines.map (Line.renumber (listing.change start increment first)) := by
  obtain ⟨changes, hchanges, hlines⟩ := lines_of_renumber h
  rw [hlines, lookup_of_renumbering hchanges]

theorem filter_lt_append_filter_le {numbers : List LineNumber} (h : numbers.Pairwise (· < ·))
    (first : Nat) : numbers.filter (· < first) ++ numbers.filter (first ≤ ·) = numbers := by
  induction numbers with
  | nil => rfl
  | cons n rest ih =>
      obtain ⟨hn, hrest⟩ := List.pairwise_cons.mp h
      rcases Nat.lt_or_ge n first with hlt | hle
      · rw [List.filter_cons_of_pos (by simpa using hlt), List.filter_cons_of_neg (by simpa using hlt),
          List.cons_append, ih hrest]
      · have hnone : rest.filter (· < first) = [] := by
          rw [List.filter_eq_nil_iff]
          intro m hm hlt
          exact absurd (Nat.lt_of_le_of_lt hle (hn m hm)) (Nat.lt_asymm (of_decide_eq_true hlt))
        have hall : rest.filter (first ≤ ·) = rest := by
          have hrest := ih hrest
          rwa [hnone] at hrest
        rw [List.filter_cons_of_neg (by simpa using hle), hnone,
          List.filter_cons_of_pos (by simpa using hle), hall, List.nil_append]

theorem change_of_notMem {old : LineNumber} (h : old ∉ listing.moved first) :
    listing.change start increment first old = none := by
  rw [change, List.idxOf?_eq_none_iff.mpr h, Option.map_none]

theorem change_of_lt {old : LineNumber} (h : old < first) :
    listing.change start increment first old = none := by
  refine change_of_notMem fun hmem => ?_
  exact absurd (of_decide_eq_true (List.mem_filter.mp hmem).2) (Nat.not_le_of_lt h)

theorem change_getElem {i : Nat} (h : i < (listing.moved first).length) :
    listing.change start increment first (listing.moved first)[i] =
      some (start + i * increment) := by
  have hascending : (listing.moved first).Pairwise (· < ·) :=
    listing.pairwise_numbers.sublist List.filter_sublist
  rw [change, List.idxOf?_eq_some_iff.mpr, Option.map_some]
  refine ⟨h, rfl, fun j hj => Nat.ne_of_lt ?_⟩
  exact List.pairwise_iff_getElem.mp hascending j i _ h hj

theorem numbers_renumber (h : listing.renumber start increment first = .ok listing') :
    listing'.lines.map Line.number =
      listing.below first ++
        (List.range (listing.moved first).length).map fun i => start + i * increment := by
  have hbelow : (listing.below first).map (Line.newNumber (listing.change start increment first)) =
      listing.below first := by
    refine (List.map_congr_left fun n hn => ?_).trans (List.map_id _)
    rw [Line.newNumber, change_of_lt (of_decide_eq_true (List.mem_filter.mp hn).2)]
    rfl
  have hmoved : (listing.moved first).map (Line.newNumber (listing.change start increment first)) =
      (List.range (listing.moved first).length).map fun i => start + i * increment := by
    refine List.ext_getElem (by simp) fun i hi _ => ?_
    rw [List.getElem_map, Line.newNumber, change_getElem (by simpa using hi)]
    simp
  calc listing'.lines.map Line.number
      = (listing.lines.map Line.number).map (Line.newNumber (listing.change start increment first)) := by
        rw [lines_renumber h, List.map_map, List.map_map]
        rfl
    _ = (listing.below first ++ listing.moved first).map
          (Line.newNumber (listing.change start increment first)) := by
        rw [below, moved, filter_lt_append_filter_le listing.pairwise_numbers]
    _ = _ := by rw [List.map_append, hbelow, hmoved]

end Listing

open Listing

variable {m : Type → Type} [Monad m] [LawfulMonad m]

theorem Session.perform_renum_of_error {config : Config} {isRunning : Bool} {storage : Storage m}
    {s : Session} {start increment first : Nat} {e : Error}
    (h : s.listing.renumber start increment first = .error e) :
    s.perform config isRunning storage (.renum start increment first) = pure (.error e, s) := by
  unfold perform attempt
  simp only [Option.getD_some, h]
  exact pure_bind _ _

/-- A program is renumbered if and only if there is room for the new numbers, and for one more behind them within 32 bits.
Then it has the lines it had, in their order; those below `first` keep their numbers, and the others get the new
ones. If it is not renumbered, then RENUM leaves everything as it was. -/
theorem renumber_exact (config : Config) (isRunning : Bool) (storage : Storage m) (listing : Listing)
    (start increment first : Nat) :
    ((listing.renumber start increment first).isOk ↔
      listing.HasRoom start increment first ∧
        (0 < (listing.moved first).length →
          start + (listing.moved first).length * increment ≤ maxWord32)) ∧
    (∀ listing', listing.renumber start increment first = .ok listing' →
      listing'.lines = listing.lines.map (Line.renumber (listing.change start increment first)) ∧
        listing'.lines.map Line.number =
          listing.below first ++
            (List.range (listing.moved first).length).map fun i => start + i * increment) ∧
    ∀ (s : Session) (e : Error), s.listing = listing →
      listing.renumber start increment first = .error e →
        s.perform config isRunning storage (.renum start increment first) = pure (.error e, s) := by
  refine ⟨isOk_renumber_iff, ?_, ?_⟩
  · intro listing' h
    exact ⟨lines_renumber h, numbers_renumber h⟩
  · rintro s e rfl h
    exact Session.perform_renum_of_error h

def threeLines : Listing where
  lines := [⟨5, "GOTO 30"⟩, ⟨10, "GOTO 20"⟩, ⟨30, "END"⟩]
  ascending := by simp [Line.Before]

theorem renumber_exact_threeLines :
    (∃ listing', threeLines.renumber 100 10 10 = .ok listing' ∧
      listing'.lines = threeLines.lines.map (Line.renumber (threeLines.change 100 10 10)) ∧
      listing'.lines.map Line.number = [5, 100, 110]) ∧
    ∃ e, threeLines.renumber 3 10 10 = .error e ∧
      ({ Session.new {} with listing := threeLines }).perform {} false FileTree.timeless
          (.renum (some 3) (some 10) (some 10)) =
        pure (.error e, { Session.new {} with listing := threeLines }) := by
  constructor
  · obtain ⟨-, hmoves, -⟩ := renumber_exact {} false FileTree.timeless threeLines 100 10 10
    obtain ⟨listing', hrenumber⟩ :=
      exists_of_isOk (x := threeLines.renumber 100 10 10) (by decide)
    obtain ⟨hlines, hnumbers⟩ := hmoves listing' hrenumber
    exact ⟨listing', hrenumber, hlines, hnumbers⟩
  · obtain ⟨-, -, hstays⟩ := renumber_exact {} false FileTree.timeless threeLines 3 10 10
    have hrefused : threeLines.renumber 3 10 10 =
        .error (ErrorCode.illegalFunctionCall.error "LINES WOULD REORDER") := by
      decide
    exact ⟨_, hrefused, hstays { Session.new {} with listing := threeLines } _ rfl hrefused⟩

/-- A program with room for the new number of its only line is refused for the number behind it. -/
theorem not_renumbered_number_behind :
    ∃ listing : Listing, listing.HasRoom 20 maxWord32 0 ∧
      listing.renumber 20 maxWord32 0 = .error { code := .overflow } := by
  refine ⟨{ lines := [⟨10, "END"⟩], ascending := List.pairwise_singleton _ _ }, ⟨by decide, ?_⟩, ?_⟩
  · intro _
    exact ⟨nofun, by decide⟩
  · rfl

end LineBasic
