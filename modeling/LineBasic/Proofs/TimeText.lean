import Mathlib.Algebra.Group.Nat.Defs
import LineBasic.Proofs.StoredLines
import LineBasic.Timestamp

namespace LineBasic

open Text

namespace Day

/-- The year of its era that a day lies in, where years begin in March. -/
def yearOfEra (dayOfEra : Int) : Int :=
  (dayOfEra - dayOfEra / 1460 + dayOfEra / 36524 - dayOfEra / 146096) / 365

/-- The day of its year, where years begin in March. -/
def dayOfYear (dayOfEra : Int) : Int :=
  dayOfEra -
    (365 * yearOfEra dayOfEra + yearOfEra dayOfEra / 4 - yearOfEra dayOfEra / 100)

section Eras

variable {dayOfEra : Int}

theorem yearOfEra_bounds (hfrom : 0 ≤ dayOfEra) (hto : dayOfEra < daysOfEra) :
    0 ≤ yearOfEra dayOfEra ∧ yearOfEra dayOfEra ≤ 399 := by
  unfold daysOfEra at hto
  unfold yearOfEra
  omega

theorem century_cases (hfrom : 0 ≤ dayOfEra) (hto : dayOfEra < daysOfEra) :
    dayOfEra / 36524 = 0 ∧ dayOfEra / 146096 = 0 ∨ dayOfEra / 36524 = 1 ∧ dayOfEra / 146096 = 0 ∨
      dayOfEra / 36524 = 2 ∧ dayOfEra / 146096 = 0 ∨ dayOfEra / 36524 = 3 ∧ dayOfEra / 146096 = 0 ∨
      dayOfEra / 36524 = 4 ∧ dayOfEra / 146096 = 1 := by
  unfold daysOfEra at hto
  omega

theorem dayOfYear_bounds (hfrom : 0 ≤ dayOfEra) (hto : dayOfEra < daysOfEra) :
    0 ≤ dayOfYear dayOfEra ∧ dayOfYear dayOfEra ≤ 365 := by
  have hyear : yearOfEra dayOfEra =
      (dayOfEra - dayOfEra / 1460 + dayOfEra / 36524 - dayOfEra / 146096) / 365 := rfl
  have hbounds := yearOfEra_bounds hfrom hto
  rw [dayOfYear]
  generalize yearOfEra dayOfEra = year at *
  have hcentury : year / 100 = 0 ∨ year / 100 = 1 ∨ year / 100 = 2 ∨ year / 100 = 3 := by omega
  rcases century_cases hfrom hto with ⟨h, hlast⟩ | ⟨h, hlast⟩ | ⟨h, hlast⟩ | ⟨h, hlast⟩ | ⟨h, hlast⟩ <;>
  · rw [h, hlast] at hyear
    omega

/-- Only a leap year has a day behind its first 365 ones. That year is the next one, where years begin in January. -/
theorem isLeap_of_dayOfYear (hfrom : 0 ≤ dayOfEra) (hto : dayOfEra < daysOfEra)
    (h : dayOfYear dayOfEra = 365) :
    (yearOfEra dayOfEra + 1) % 4 = 0 ∧
      ((yearOfEra dayOfEra + 1) % 100 ≠ 0 ∨ (yearOfEra dayOfEra + 1) % 400 = 0) := by
  have hyear : yearOfEra dayOfEra =
      (dayOfEra - dayOfEra / 1460 + dayOfEra / 36524 - dayOfEra / 146096) / 365 := rfl
  have hbounds := yearOfEra_bounds hfrom hto
  rw [dayOfYear] at h
  generalize yearOfEra dayOfEra = year at *
  have hcentury : year / 100 = 0 ∨ year / 100 = 1 ∨ year / 100 = 2 ∨ year / 100 = 3 := by omega
  -- A leap day closes a cycle of four years, in the quotients as in the year.
  have hcycle : year / 4 + 1 ≤ dayOfEra / 1460 := by
    rcases century_cases hfrom hto with ⟨h, hlast⟩ | ⟨h, hlast⟩ | ⟨h, hlast⟩ | ⟨h, hlast⟩ | ⟨h, hlast⟩ <;>
    · rw [h, hlast] at hyear
      omega
  have hfour : year + 1 = 4 * (year / 4 + 1) := by omega
  rcases century_cases hfrom hto with ⟨h, hlast⟩ | ⟨h, hlast⟩ | ⟨h, hlast⟩ | ⟨h, hlast⟩ | ⟨h, hlast⟩ <;>
  · rw [h, hlast] at hyear
    omega

end Eras

/-- The month of a day of the year, counted from March. -/
def monthOf (dayOfYear : Int) : Int :=
  (5 * dayOfYear + 2) / 153

def dayOfMonth (dayOfYear : Int) : Int :=
  dayOfYear - (153 * monthOf dayOfYear + 2) / 5 + 1

theorem ofNumber_eq (n : Int) :
    let era := (n + epoch) / daysOfEra
    let dayOfEra := (n + epoch) % daysOfEra
    let month := monthOf (dayOfYear dayOfEra)
    ofNumber n =
      { year := if month < 10 then era * 400 + yearOfEra dayOfEra
          else era * 400 + yearOfEra dayOfEra + 1
        month := (if month < 10 then month + 3 else month - 9).toNat
        day := (dayOfMonth (dayOfYear dayOfEra)).toNat } :=
  rfl

theorem monthOf_bounds {dayOfYear : Int} (h : 0 ≤ dayOfYear ∧ dayOfYear ≤ 365) :
    0 ≤ monthOf dayOfYear ∧ monthOf dayOfYear ≤ 11 ∧ 1 ≤ dayOfMonth dayOfYear := by
  unfold dayOfMonth monthOf
  omega

theorem toNumber_ofNumber (n : Int) : (ofNumber n).toNumber = n := by
  rw [ofNumber_eq]
  have hfrom : 0 ≤ (n + epoch) % daysOfEra := Int.emod_nonneg _ (by decide)
  have hto : (n + epoch) % daysOfEra < daysOfEra := Int.emod_lt_of_pos _ (by decide)
  have hera : daysOfEra * ((n + epoch) / daysOfEra) + (n + epoch) % daysOfEra = n + epoch :=
    Int.mul_ediv_add_emod _ _
  have hyear := yearOfEra_bounds hfrom hto
  have hday := dayOfYear_bounds hfrom hto
  have hparts : dayOfYear ((n + epoch) % daysOfEra) = (n + epoch) % daysOfEra -
      (365 * yearOfEra ((n + epoch) % daysOfEra) + yearOfEra ((n + epoch) % daysOfEra) / 4 -
        yearOfEra ((n + epoch) % daysOfEra) / 100) := rfl
  generalize (n + epoch) / daysOfEra = era at *
  generalize (n + epoch) % daysOfEra = dayOfEra at *
  generalize yearOfEra dayOfEra = year at *
  generalize dayOfYear dayOfEra = day at *
  obtain ⟨hmonth₀, hmonth₁, hfirst⟩ := monthOf_bounds hday
  have hmonth : monthOf day = (5 * day + 2) / 153 := rfl
  have hdayOf : dayOfMonth day = day - (153 * monthOf day + 2) / 5 + 1 := rfl
  generalize dayOfMonth day = d at *
  generalize monthOf day = m at *
  unfold toNumber
  dsimp only
  unfold daysOfEra at hera
  unfold daysOfEra
  by_cases hwinter : m < 10
  · have hnumber : ¬ (m + 3).toNat ≤ 2 := by omega
    simp only [if_pos hwinter, if_neg hnumber]
    omega
  · have hnumber : (m - 9).toNat ≤ 2 := by omega
    simp only [if_neg hwinter, if_pos hnumber]
    omega

theorem isValid_ofNumber (n : Int) : (ofNumber n).isValid := by
  rw [ofNumber_eq]
  have hfrom : 0 ≤ (n + epoch) % daysOfEra := Int.emod_nonneg _ (by decide)
  have hto : (n + epoch) % daysOfEra < daysOfEra := Int.emod_lt_of_pos _ (by decide)
  have hday := dayOfYear_bounds hfrom hto
  have hleap := isLeap_of_dayOfYear hfrom hto
  have hyear := yearOfEra_bounds hfrom hto
  generalize (n + epoch) / daysOfEra = era at *
  generalize (n + epoch) % daysOfEra = dayOfEra at *
  generalize yearOfEra dayOfEra = year at *
  generalize dayOfYear dayOfEra = day at *
  obtain ⟨hmonth₀, hmonth₁, hfirst⟩ := monthOf_bounds hday
  have hmonth : monthOf day = (5 * day + 2) / 153 := rfl
  have hdayOf : dayOfMonth day = day - (153 * monthOf day + 2) / 5 + 1 := rfl
  generalize dayOfMonth day = d at *
  have hcases : monthOf day = 0 ∨ monthOf day = 1 ∨ monthOf day = 2 ∨ monthOf day = 3 ∨
      monthOf day = 4 ∨ monthOf day = 5 ∨ monthOf day = 6 ∨ monthOf day = 7 ∨ monthOf day = 8 ∨
      monthOf day = 9 ∨ monthOf day = 10 ∨ monthOf day = 11 := by omega
  generalize monthOf day = m at *
  rcases hcases with rfl | rfl | rfl | rfl | rfl | rfl | rfl | rfl | rfl | rfl | rfl | rfl
  case inr.inr.inr.inr.inr.inr.inr.inr.inr.inr.inr =>
    -- The last month of these years is February.
    have hfebruary : d ≤ ((if isLeap (era * 400 + year + 1) then 29 else 28 : Nat) : Int) := by
      split
      · omega
      · rename_i hcommon
        have hday' : day ≠ 365 := by
          intro h
          obtain ⟨h4, h100⟩ := hleap h
          apply hcommon
          simp only [isLeap, Bool.and_eq_true, Bool.or_eq_true, beq_iff_eq, bne_iff_ne]
          omega
        omega
    have hfirst' : 1 ≤ d.toNat := by omega
    simpa [isValid, daysInMonth, hfirst'] using hfebruary
  all_goals
    simp only [isValid, daysInMonth, Bool.and_eq_true, decide_eq_true_eq]
    simp
    omega

end Day

namespace Timestamp

theorem toList_minus : "-".toList = ['-'] := rfl

theorem toList_plus : "+".toList = ['+'] := rfl

theorem toList_point : ".".toList = ['.'] := rfl

theorem toList_padded (width n : Nat) :
    (padded width n).toList =
      List.replicate (width - (Nat.toDigits 10 n).length) '0' ++ Nat.toDigits 10 n := by
  rw [padded, String.toList_append, String.toList_ofList, Line.toList_toString,
    ← String.length_toList, Line.toList_toString]

theorem isDigit_padded {width n : Nat} : ∀ c ∈ (padded width n).toList, isDigit c := by
  intro c hc
  rw [toList_padded, List.mem_append] at hc
  rcases hc with hc | hc
  · exact isDigit_zeros hc
  · exact isDigit_of_mem_toDigits hc

theorem value_padded (width n : Nat) : value (padded width n).toList = n := by
  rw [toList_padded, value_zeros_append, value_toDigits]

theorem length_padded {width n : Nat} (hwidth : 0 < width) (h : n < 10 ^ width) :
    (padded width n).toList.length = width := by
  have hle := (Nat.length_toDigits_le_iff (b := 10) (by decide) hwidth).mpr h
  rw [toList_padded, List.length_append, List.length_replicate]
  omega

theorem padded_ne_nil (width n : Nat) : (padded width n).toList ≠ [] := by
  rw [toList_padded]
  simp [Nat.toDigits_ne_nil]

theorem takeDigits_append {digits : List Char} (hdigits : ∀ c ∈ digits, isDigit c)
    (hne : digits ≠ []) {most : Nat} {rest : List Char}
    (hstop : digits.length = most ∨
      digits.length ≤ most ∧ ∀ c, rest.head? = some c → isDigit c = false) :
    takeDigits most (digits ++ rest) = some (digits, rest) := by
  have htake : ((digits ++ rest).take most).takeWhile isDigit = digits := by
    rcases hstop with rfl | ⟨hle, hrest⟩
    · rw [List.take_left, List.takeWhile_eq_self_iff.mpr hdigits]
    · rw [List.take_append, List.take_of_length_le hle]
      refine (takeWhile_span hdigits ?_).1
      intro c hc
      apply hrest c
      cases rest with
      | nil => simp at hc
      | cons d rest =>
          cases hsize : most - digits.length with
          | zero => simp [hsize] at hc
          | succ size => simpa [hsize] using hc
  unfold takeDigits
  dsimp only
  rw [htake, if_neg (by simpa using hne), List.drop_left]

theorem takeNumber_padded {n : Nat} (h : n < 100) (rest : List Char) :
    takeNumber 2 ((padded 2 n).toList ++ rest) = some (n, rest) := by
  rw [takeNumber, trimLeft_digits isDigit_padded (padded_ne_nil 2 n),
    takeDigits_append isDigit_padded (padded_ne_nil 2 n) (.inl (length_padded (by decide) h)),
    Option.map_some]
  dsimp only
  rw [value_padded]

theorem skip_cons {c : Char} (h : isSpace c = false) (rest : List Char) :
    skip c (c :: rest) = some rest := by
  rw [skip, trimLeft_of_head h]
  dsimp only
  rw [if_pos rfl]

theorem takeYear_minus (cs : List Char) :
    takeYear ('-' :: cs) =
      (takeDigits cs.length cs).map fun (digits, rest) => (-(value digits : Int), rest) := by
  rw [takeYear, trimLeft_of_head (by decide)]
  rfl

theorem takeYear_plus (cs : List Char) :
    takeYear ('+' :: cs) =
      (takeDigits cs.length cs).map fun (digits, rest) => ((value digits : Int), rest) := by
  rw [takeYear, trimLeft_of_head (by decide)]
  rfl

theorem takeYear_digit {c : Char} (hc : isDigit c) (cs : List Char) :
    takeYear (c :: cs) =
      (takeDigits 4 (c :: cs)).map fun (digits, rest) => ((value digits : Int), rest) := by
  rw [takeYear, trimLeft_of_head (not_isSpace_of_isDigit hc)]
  split
  · rename_i heq
    cases heq
    exact absurd hc (by decide)
  · rename_i heq
    cases heq
    exact absurd hc (by decide)
  · rfl

theorem takeYear_yearText (year : Int) (rest : List Char) :
    takeYear ((yearText year).toList ++ '-' :: rest) = some (year, '-' :: rest) := by
  have hsigned : takeDigits ((padded 4 year.natAbs).toList ++ '-' :: rest).length
      ((padded 4 year.natAbs).toList ++ '-' :: rest) =
        some ((padded 4 year.natAbs).toList, '-' :: rest) :=
    takeDigits_append isDigit_padded (padded_ne_nil 4 _) (.inr ⟨by simp, by simp; decide⟩)
  unfold yearText
  split
  · rename_i hneg
    have hyear : -((year.natAbs : Nat) : Int) = year := by omega
    rw [String.toList_append, toList_minus, List.append_assoc, List.singleton_append,
      takeYear_minus, hsigned, Option.map_some]
    simp only [value_padded, hyear]
  · have hyear : ((year.natAbs : Nat) : Int) = year := by omega
    split
    · have hplain : takeDigits 4 ((padded 4 year.natAbs).toList ++ '-' :: rest) =
          some ((padded 4 year.natAbs).toList, '-' :: rest) :=
        takeDigits_append isDigit_padded (padded_ne_nil 4 _)
          (.inl (length_padded (by decide) (by omega)))
      obtain ⟨c, cs, hcons⟩ := List.exists_cons_of_ne_nil (padded_ne_nil 4 year.natAbs)
      have hc : isDigit c := isDigit_padded c (hcons ▸ List.mem_cons_self)
      have htake := takeYear_digit hc (cs ++ '-' :: rest)
      rw [← List.cons_append, ← hcons] at htake
      rw [htake, hplain, Option.map_some]
      simp only [value_padded, hyear]
    · rw [String.toList_append, toList_plus, List.append_assoc, List.singleton_append,
        takeYear_plus, hsigned, Option.map_some]
      simp only [value_padded, hyear]

theorem takeDay_dayText {d : Day} (hmonth : d.month < 100) (hday : d.day < 100)
    (rest : List Char) : takeDay ((dayText d).toList ++ rest) = some (d, rest) := by
  unfold dayText takeDay
  simp only [String.toList_append, toList_minus, List.append_assoc, List.cons_append, List.nil_append,
    takeYear_yearText, skip_cons (c := '-') (by decide), takeNumber_padded hmonth,
    takeNumber_padded hday, Option.bind_eq_bind, Option.bind_some]
  rfl

theorem takeNanos_fractionText {nanos : Nat} (h : nanos < nanosOfSecond) (rest : List Char) :
    takeNanos ((fractionText nanos).toList ++ 'Z' :: rest) = some (nanos, 'Z' :: rest) := by
  have hstop : ∀ c, ('Z' :: rest).head? = some c → isDigit c = false := by
    simp
    decide
  have hpoint : ∀ width n, 0 < width → width ≤ 9 → n < 10 ^ width →
      takeNanos (("." ++ padded width n).toList ++ 'Z' :: rest) =
        some (n * 10 ^ (9 - width), 'Z' :: rest) := by
    intro width n hpos hle hn
    rw [String.toList_append, toList_point, List.append_assoc, List.singleton_append, takeNanos,
      takeDigits_append isDigit_padded (padded_ne_nil width n)
      (.inr ⟨by rw [length_padded hpos hn]; exact hle, hstop⟩), Option.map_some]
    dsimp only
    rw [value_padded, length_padded hpos hn]
    rfl
  unfold nanosOfSecond at h
  unfold fractionText
  split
  · rename_i hzero
    rw [hzero]
    rfl
  · split
    · rw [hpoint 3 _ (by decide) (by decide) (by omega)]
      congr 2
      omega
    · split
      · rw [hpoint 6 _ (by decide) (by decide) (by omega)]
        congr 2
        omega
      · rw [hpoint 9 _ (by decide) (by decide) (by omega)]
        congr 2
        omega

/-- A time that has a written form: its year is one of those that may be written, and a leap second ends a minute. -/
structure IsProper (t : Timestamp) : Prop where
  year : isYear t.day.year
  nanos_lt : t.nanos < 2 * nanosOfSecond
  leap : nanosOfSecond ≤ t.nanos → t.secondOfDay % 60 = 59

theorem secondOfDay_lt (t : Timestamp) : t.secondOfDay < 86400 := by
  unfold secondOfDay secondsOfDay
  omega

theorem ofCivil_day (t : Timestamp) (nanos : Nat) :
    ofCivil t.day (t.secondOfDay / 3600) (t.secondOfDay / 60 % 60) (t.secondOfDay % 60) nanos 0 =
      { t with nanos } := by
  unfold ofCivil day
  rw [Day.toNumber_ofNumber]
  congr 1
  unfold secondOfDay secondsOfDay
  omega

theorem month_day_lt {d : Day} (h : d.isValid) : d.month < 100 ∧ d.day < 100 := by
  have hlength : Day.daysInMonth d.year d.month ≤ 31 := by
    unfold Day.daysInMonth
    split
    · split <;> decide
    all_goals decide
  simp only [Day.isValid, Bool.and_eq_true, decide_eq_true_eq] at h
  omega

theorem IsProper.second_eq {t : Timestamp} (h : t.IsProper) :
    let second := t.secondOfDay % 60 + t.nanos / nanosOfSecond
    let nanos := t.nanos % nanosOfSecond
    second ≤ 60 ∧ min second 59 = t.secondOfDay % 60 ∧
      (if second == 60 then nanos + nanosOfSecond else nanos) = t.nanos := by
  have hlt := h.nanos_lt
  have hleap := h.leap
  unfold nanosOfSecond at *
  dsimp only
  by_cases hsecond : 1000000000 ≤ t.nanos
  · have hminute := hleap hsecond
    have hone : t.nanos / 1000000000 = 1 := by omega
    refine ⟨by omega, by omega, ?_⟩
    rw [hone, hminute]
    simp
    omega
  · have hzero : t.nanos / 1000000000 = 0 := by omega
    refine ⟨by omega, by omega, ?_⟩
    rw [hzero, if_neg (by simp; omega)]
    omega

/-- A time is read back as it was written. -/
theorem IsProper.read?_text {t : Timestamp} (h : t.IsProper) : read? t.text = some t := by
  have hvalid : t.day.isValid := Day.isValid_ofNumber (t.seconds / secondsOfDay)
  obtain ⟨hmonth, hday⟩ := month_day_lt hvalid
  have hclock := t.secondOfDay_lt
  obtain ⟨hsecond, hmin, hnanos⟩ := h.second_eq
  have htime : ofCivil t.day (t.secondOfDay / 3600) (t.secondOfDay / 60 % 60)
      (t.secondOfDay % 60) t.nanos 0 = t := ofCivil_day t t.nanos
  have hcolon : ":".toList = [':'] := rfl
  have hT : "T".toList = ['T'] := rfl
  have hZ : "Z".toList = ['Z'] := rfl
  unfold read? text clockText
  simp only [String.toList_append, hcolon, hT, hZ, List.append_assoc, List.cons_append,
    List.nil_append, takeDay_dayText hmonth hday, Option.bind_eq_bind, Option.bind_some,
    skipDaySeparator, skip_cons (c := ':') (by decide),
    takeNumber_padded (n := t.secondOfDay / 3600) (by omega),
    takeNumber_padded (n := t.secondOfDay / 60 % 60) (by omega),
    takeNumber_padded (n := t.secondOfDay % 60 + t.nanos / nanosOfSecond) (by omega),
    takeNanos_fractionText (Nat.mod_lt t.nanos (by decide : 0 < nanosOfSecond)),
    trimLeft_of_head (c := 'Z') (by decide), takeOffset, hmin, hnanos, htime]
  have hhour : t.secondOfDay / 3600 < 24 := by omega
  have hminute : t.secondOfDay / 60 % 60 < 60 := by omega
  rw [if_pos]
  simp only [hvalid, hhour, hminute, hsecond, h.year, decide_true, Bool.and_true]
  rfl

theorem valueFrom_lt {digits : List Char} (hdigits : ∀ c ∈ digits, isDigit c) (n : Nat) :
    valueFrom n digits < (n + 1) * 10 ^ digits.length := by
  induction digits generalizing n with
  | nil => simp [valueFrom]
  | cons c cs ih =>
      rw [List.forall_mem_cons] at hdigits
      have hlt := ih hdigits.2 (10 * n + digitValue c)
      have hdigit : digitValue c ≤ 9 := by
        unfold digitValue
        split <;> decide
      have hpow : (10 * n + digitValue c + 1) * 10 ^ cs.length ≤ (n + 1) * 10 ^ (cs.length + 1) := by
        rw [Nat.pow_succ, Nat.mul_comm (10 ^ cs.length) 10, ← Nat.mul_assoc]
        exact Nat.mul_le_mul_right _ (by omega)
      exact Nat.lt_of_lt_of_le hlt hpow

theorem of_takeDigits {most : Nat} {cs digits rest : List Char}
    (h : takeDigits most cs = some (digits, rest)) :
    digits.length ≤ most ∧ ∀ c ∈ digits, isDigit c := by
  unfold takeDigits at h
  dsimp only at h
  split at h
  · cases h
  · cases h
    constructor
    · exact (List.takeWhile_sublist isDigit).length_le.trans (List.length_take_le most cs)
    · intro c hc
      exact List.all_eq_true.mp List.all_takeWhile c hc

theorem takeNanos_lt {cs rest : List Char} {nanos : Nat} (h : takeNanos cs = some (nanos, rest)) :
    nanos < nanosOfSecond := by
  unfold takeNanos at h
  split at h
  · obtain ⟨⟨digits, rest'⟩, htake, heq⟩ := Option.map_eq_some_iff.mp h
    cases heq
    obtain ⟨hle, hdigits⟩ := of_takeDigits htake
    calc value digits * 10 ^ (9 - digits.length)
      _ < 10 ^ digits.length * 10 ^ (9 - digits.length) := by
          apply Nat.mul_lt_mul_of_pos_right _ (Nat.pow_pos (by decide))
          simpa [value] using valueFrom_lt hdigits 0
      _ = 10 ^ (digits.length + (9 - digits.length)) := (Nat.pow_add _ _ _).symm
      _ = nanosOfSecond := by
          rw [Nat.add_sub_cancel' hle]
          rfl
  · cases h
    decide

theorem takeOffsetSize_mod {cs rest : List Char} {size : Nat}
    (h : takeOffsetSize cs = some (size, rest)) : size % 60 = 0 := by
  unfold takeOffsetSize at h
  split at h
  · split at h
    · split at h
      · split at h
        · cases h
          omega
        · cases h
      · cases h
    · cases h
  · cases h

theorem takeOffset_mod {cs rest : List Char} {offset : Int}
    (h : takeOffset cs = some (offset, rest)) : offset % 60 = 0 := by
  unfold takeOffset at h
  split at h
  · cases h
    rfl
  · cases h
    rfl
  · obtain ⟨⟨size, rest'⟩, htake, heq⟩ := Option.map_eq_some_iff.mp h
    have hmod := takeOffsetSize_mod htake
    cases heq
    omega
  · obtain ⟨⟨size, rest'⟩, htake, heq⟩ := Option.map_eq_some_iff.mp h
    have hmod := takeOffsetSize_mod htake
    cases heq
    omega
  · obtain ⟨⟨size, rest'⟩, htake, heq⟩ := Option.map_eq_some_iff.mp h
    have hmod := takeOffsetSize_mod htake
    cases heq
    omega
  · split at h
    · cases h
      rfl
    · cases h

theorem isProper_of_read? {s : String} {t : Timestamp} (h : read? s = some t) : t.IsProper := by
  simp only [read?, Option.bind_eq_bind, Option.bind_eq_some_iff] at h
  obtain ⟨⟨day, cs₁⟩, -, cs₂, -, ⟨hour, cs₃⟩, -, cs₄, -, ⟨minute, cs₅⟩, -, cs₆, -, ⟨second, cs₇⟩, -,
    ⟨nanos, cs₈⟩, hnanos, ⟨offset, cs₉⟩, hoffset, h⟩ := h
  have hlt := takeNanos_lt hnanos
  have hmod := takeOffset_mod hoffset
  dsimp only at h
  split at h
  · rename_i hleap
    split at h
    · rename_i hcheck
      cases h
      rw [beq_iff_eq] at hleap
      simp only [Bool.and_eq_true] at hcheck
      refine ⟨hcheck.1.2, ?_, fun _ => ?_⟩
      · show nanos + nanosOfSecond < 2 * nanosOfSecond
        omega
      · unfold secondOfDay ofCivil secondsOfDay
        dsimp only
        omega
    · cases h
  · split at h
    · rename_i hcheck
      cases h
      simp only [Bool.and_eq_true] at hcheck
      refine ⟨hcheck.1.2, ?_, fun hle => ?_⟩
      · show nanos < 2 * nanosOfSecond
        omega
      · exact absurd hlt (Nat.not_lt.mpr hle)
    · cases h

end Timestamp

end LineBasic
