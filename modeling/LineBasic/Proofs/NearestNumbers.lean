import Mathlib.Data.Int.Log
import Mathlib.Data.Rat.Floor
import Mathlib.Tactic.Linarith
import Mathlib.Tactic.Ring
import LineBasic.Binary64.Shortest

namespace LineBasic.Binary64

variable {num den : Nat}

/-- The logarithm of a fraction is the difference of those of its parts, or one less. -/
theorem log_div {b : Nat} (hb : 1 < b) (hnum : 0 < num) (hden : 0 < den) :
    Int.log b ((num : ℚ) / den) =
      if (b : ℚ) ^ ((Nat.log b num : Int) - Nat.log b den) ≤ (num : ℚ) / den then
        (Nat.log b num : Int) - Nat.log b den
      else (Nat.log b num : Int) - Nat.log b den - 1 := by
  have hnum' : (0 : ℚ) < num := Nat.cast_pos.mpr hnum
  have hden' : (0 : ℚ) < den := Nat.cast_pos.mpr hden
  have hb' : (0 : ℚ) < b := Nat.cast_pos.mpr (by omega)
  have hquotient : 0 < (num : ℚ) / den := div_pos hnum' hden'
  have hlow := Int.zpow_log_le_self hb hnum'
  have hlow' := Int.zpow_log_le_self hb hden'
  have hhigh := Int.lt_zpow_succ_log_self hb (num : ℚ)
  have hhigh' := Int.lt_zpow_succ_log_self hb (den : ℚ)
  rw [Int.log_natCast] at hlow hlow' hhigh hhigh'
  have hatLeast : (Nat.log b num : Int) - Nat.log b den - 1 ≤ Int.log b ((num : ℚ) / den) := by
    rw [← Int.zpow_le_iff_le_log hb hquotient, le_div_iff₀ hden']
    calc (b : ℚ) ^ ((Nat.log b num : Int) - Nat.log b den - 1) * den
        ≤ (b : ℚ) ^ ((Nat.log b num : Int) - Nat.log b den - 1) *
            (b : ℚ) ^ ((Nat.log b den : Int) + 1) :=
          mul_le_mul_of_nonneg_left hhigh'.le (zpow_pos hb' _).le
      _ = (b : ℚ) ^ (Nat.log b num : Int) := by
          rw [← zpow_add₀ hb'.ne']
          congr 1
          omega
      _ ≤ num := hlow
  have hatMost : Int.log b ((num : ℚ) / den) < (Nat.log b num : Int) - Nat.log b den + 1 := by
    rw [← Int.lt_zpow_iff_log_lt hb hquotient, div_lt_iff₀ hden']
    calc (num : ℚ) < (b : ℚ) ^ ((Nat.log b num : Int) + 1) := hhigh
      _ = (b : ℚ) ^ ((Nat.log b num : Int) - Nat.log b den + 1) *
            (b : ℚ) ^ (Nat.log b den : Int) := by
          rw [← zpow_add₀ hb'.ne']
          congr 1
          omega
      _ ≤ (b : ℚ) ^ ((Nat.log b num : Int) - Nat.log b den + 1) * den :=
          mul_le_mul_of_nonneg_left hlow' (zpow_pos hb' _).le
  by_cases hle : (b : ℚ) ^ ((Nat.log b num : Int) - Nat.log b den) ≤ (num : ℚ) / den
  · rw [if_pos hle]
    rw [Int.zpow_le_iff_le_log hb hquotient] at hle
    omega
  · rw [if_neg hle]
    rw [not_le, Int.lt_zpow_iff_log_lt hb hquotient] at hle
    omega

theorem scale_den_pos (hden : 0 < den) (shift : Int) : 0 < (scale num den shift).2 := by
  cases shift with
  | ofNat n => exact hden
  | negSucc n =>
      rw [scale, Nat.shiftLeft_eq]
      positivity

theorem scale_eq (num den : Nat) (shift : Int) :
    ((scale num den shift).1 : ℚ) / (scale num den shift).2 = (num : ℚ) / den * 2 ^ shift := by
  cases shift with
  | ofNat n =>
      rw [scale, Nat.shiftLeft_eq, Int.ofNat_eq_natCast, zpow_natCast]
      push_cast
      ring
  | negSucc n =>
      rw [scale, Nat.shiftLeft_eq, zpow_negSucc]
      push_cast
      rw [← div_div, div_eq_mul_inv]

theorem floorLog2_eq (hnum : 0 < num) (hden : 0 < den) :
    floorLog2 num den = Int.log 2 ((num : ℚ) / den) := by
  rw [log_div one_lt_two hnum hden, floorLog2, Nat.log2_eq_log_two, Nat.log2_eq_log_two]
  generalize (Nat.log 2 num : Int) - Nat.log 2 den = e
  have hpos : (0 : ℚ) < (scale num den (-e)).2 := Nat.cast_pos.mpr (scale_den_pos hden _)
  have htest : (scale num den (-e)).2 ≤ (scale num den (-e)).1 ↔
      ((2 : Nat) : ℚ) ^ e ≤ (num : ℚ) / den := by
    rw [← Nat.cast_le (α := ℚ), ← one_le_div₀ hpos, scale_eq, zpow_neg, ← div_eq_mul_inv,
      one_le_div₀ (zpow_pos two_pos _), Nat.cast_ofNat]
  simp only [htest]

theorem div_cases (hden : 0 < den) {n : Nat} (hlow : 2 * (n * den) ≤ 2 * num + den)
    (hhigh : 2 * num ≤ 2 * (n * den) + den) : num / den = n ∨ num / den + 1 = n := by
  have hsplit : num = num / den * den + num % den := (Nat.div_add_mod' num den).symm
  have hrest : num % den < den := Nat.mod_lt num hden
  rcases Nat.lt_trichotomy (num / den) n with hlt | heq | hgt
  · rcases Nat.eq_or_lt_of_le hlt with heq | hlt
    · exact .inr heq
    · have hmul : (num / den + 2) * den ≤ n * den := Nat.mul_le_mul_right den hlt
      rw [Nat.add_mul] at hmul
      omega
  · exact .inl heq
  · have hmul : (n + 1) * den ≤ num / den * den := Nat.mul_le_mul_right den hgt
    rw [Nat.add_mul] at hmul
    omega

theorem roundHalfEven_of_le (hden : 0 < den) {n : Nat} (hlow : 2 * (n * den) ≤ 2 * num + den)
    (hhigh : 2 * num ≤ 2 * (n * den) + den)
    (hodd : n % 2 = 1 → 2 * (n * den) < 2 * num + den ∧ 2 * num < 2 * (n * den) + den) :
    roundHalfEven num den = n := by
  have hsplit : num = num / den * den + num % den := (Nat.div_add_mod' num den).symm
  unfold roundHalfEven
  simp only [Bool.or_eq_true, Bool.and_eq_true, decide_eq_true_eq, beq_iff_eq]
  rcases div_cases hden hlow hhigh with rfl | rfl
  · rw [if_neg]
    omega
  · rw [Nat.add_mul] at hlow hodd
    rw [if_pos]
    omega

/-- A fraction less than half a unit away from a whole number is rounded to it, and one that is half a unit away if the
whole number is even. -/
theorem roundHalfEven_eq (hden : 0 < den) {n : Nat} (hlow : (n : ℚ) - 1 / 2 ≤ num / den)
    (hhigh : (num : ℚ) / den ≤ n + 1 / 2)
    (hodd : n % 2 = 1 → (n : ℚ) - 1 / 2 < num / den ∧ (num : ℚ) / den < n + 1 / 2) :
    roundHalfEven num den = n := by
  have hden' : (0 : ℚ) < den := Nat.cast_pos.mpr hden
  rw [le_div_iff₀ hden'] at hlow
  rw [div_le_iff₀ hden'] at hhigh
  rw [lt_div_iff₀ hden', div_lt_iff₀ hden'] at hodd
  refine roundHalfEven_of_le hden ?_ ?_ fun h => ⟨?_, ?_⟩
  · rw [← Nat.cast_le (α := ℚ)]
    push_cast
    linarith
  · rw [← Nat.cast_le (α := ℚ)]
    push_cast
    linarith
  · have hlow := (hodd h).1
    rw [← Nat.cast_lt (α := ℚ)]
    push_cast
    linarith
  · have hhigh := (hodd h).2
    rw [← Nat.cast_lt (α := ℚ)]
    push_cast
    linarith

/-- The mantissa of a number, with the bit that is not stored. -/
def mantissa (bits : Nat) : Nat :=
  if bits / hiddenBit = 0 then bits % hiddenBit else bits % hiddenBit + hiddenBit

def exponent (bits : Nat) : Int :=
  ((if bits / hiddenBit = 0 then 1 else bits / hiddenBit : Nat) : Int) - 1075

/-- How far the interval of a number reaches below the number, in units of the last bit of its mantissa. -/
def reach (bits : Nat) : ℚ :=
  if bits % hiddenBit = 0 ∧ 1 < bits / hiddenBit then 1 / 4 else 1 / 2

variable {bits : Nat}

theorem bits_eq (bits : Nat) :
    (exponent bits + 1074).toNat * hiddenBit + mantissa bits = bits := by
  unfold exponent mantissa hiddenBit
  split <;> omega

theorem exponent_ge (bits : Nat) : -1074 ≤ exponent bits := by
  unfold exponent hiddenBit
  split <;> omega

theorem mantissa_lt (bits : Nat) : mantissa bits < 2 ^ 53 := by
  unfold mantissa hiddenBit
  split <;> omega

theorem mantissa_pos (h : 0 < bits) : 0 < mantissa bits := by
  unfold mantissa hiddenBit
  split <;> omega

theorem hiddenBit_le_mantissa (h : exponent bits ≠ -1074) : hiddenBit ≤ mantissa bits := by
  have hfield : bits / hiddenBit ≠ 0 := fun hzero => h (by rw [exponent, if_pos hzero]; rfl)
  rw [mantissa, if_neg hfield]
  exact Nat.le_add_left _ _

theorem reach_pos (bits : Nat) : 0 < reach bits := by
  unfold reach
  split <;> norm_num

theorem reach_le (bits : Nat) : reach bits ≤ 1 / 2 := by
  unfold reach
  split <;> norm_num

theorem reach_of_mantissa_eq (h : exponent bits ≠ -1074) (hmantissa : mantissa bits = hiddenBit) :
    reach bits = 1 / 4 := by
  have hfield : bits / hiddenBit ≠ 0 := fun hzero => h (by rw [exponent, if_pos hzero]; rfl)
  rw [exponent, if_neg hfield] at h
  rw [mantissa, if_neg hfield] at hmantissa
  unfold hiddenBit at h hmantissa hfield
  exact if_pos ⟨by unfold hiddenBit; omega, by unfold hiddenBit; omega⟩

structure Rounding.Contains (r : Rounding) (x : ℚ) : Prop where
  low_le : (r.low : ℚ) / r.den ≤ x
  le_high : x ≤ (r.high : ℚ) / r.den
  strict : r.closed = false → (r.low : ℚ) / r.den < x ∧ x < (r.high : ℚ) / r.den

namespace Rounding

theorem ofBits_eq (bits : Nat) :
    ofBits bits =
      let below := if bits % hiddenBit = 0 ∧ 1 < bits / hiddenBit then 1 else 2
      let unit := scale 1 1 (exponent bits - 2)
      { value := 4 * mantissa bits * unit.1
        low := (4 * mantissa bits - below) * unit.1
        high := (4 * mantissa bits + 2) * unit.1
        den := unit.2
        closed := mantissa bits % 2 == 0 } := by
  unfold ofBits mantissa exponent
  simp only [Bool.and_eq_true, decide_eq_true_eq]
  generalize ((if bits / hiddenBit = 0 then 1 else bits / hiddenBit : Nat) : Int) - 1075 - 2 = e
  cases e with
  | ofNat n => rfl
  | negSucc n => rfl

theorem den_ofBits_pos (bits : Nat) : 0 < (ofBits bits).den := by
  rw [ofBits_eq]
  exact scale_den_pos one_pos _

theorem quarter_eq (bits : Nat) :
    ((scale 1 1 (exponent bits - 2)).1 : ℚ) / (scale 1 1 (exponent bits - 2)).2 =
      2 ^ exponent bits / 4 := by
  rw [scale_eq, zpow_sub₀ two_ne_zero]
  norm_num

theorem value_ofBits (bits : Nat) :
    ((ofBits bits).value : ℚ) / (ofBits bits).den = mantissa bits * 2 ^ exponent bits := by
  rw [ofBits_eq]
  dsimp only
  push_cast
  rw [mul_div_assoc, quarter_eq]
  ring

theorem low_ofBits (h : 0 < bits) :
    ((ofBits bits).low : ℚ) / (ofBits bits).den =
      (mantissa bits - reach bits) * 2 ^ exponent bits := by
  have hmantissa := mantissa_pos h
  rw [ofBits_eq, reach]
  dsimp only
  split
  all_goals
    rw [Nat.cast_mul, mul_div_assoc, quarter_eq, Nat.cast_sub (by omega)]
    push_cast
    ring

theorem high_ofBits (bits : Nat) :
    ((ofBits bits).high : ℚ) / (ofBits bits).den =
      (mantissa bits + 1 / 2) * 2 ^ exponent bits := by
  rw [ofBits_eq]
  dsimp only
  push_cast
  rw [mul_div_assoc, quarter_eq]
  ring

theorem closed_ofBits (bits : Nat) : (ofBits bits).closed = (mantissa bits % 2 == 0) := by
  rw [ofBits_eq]

end Rounding

variable {x : ℚ}

theorem unit_pos (bits : Nat) : (0 : ℚ) < 2 ^ exponent bits :=
  zpow_pos two_pos _

theorem two_pow_exponent_add (bits n : Nat) :
    (2 : ℚ) ^ (exponent bits + n) = 2 ^ n * 2 ^ exponent bits := by
  rw [zpow_add₀ two_ne_zero, zpow_natCast, mul_comm]

namespace Rounding.Contains

variable (h : (Rounding.ofBits bits).Contains x)

include h

theorem low_le' (hpos : 0 < bits) : (mantissa bits - reach bits) * 2 ^ exponent bits ≤ x := by
  have hlow := h.low_le
  rwa [low_ofBits hpos] at hlow

theorem le_high' : x ≤ (mantissa bits + 1 / 2) * 2 ^ exponent bits := by
  have hhigh := h.le_high
  rwa [high_ofBits] at hhigh

theorem pos (hpos : 0 < bits) : 0 < x := by
  have hmantissa : (1 : ℚ) ≤ mantissa bits := Nat.one_le_cast.mpr (mantissa_pos hpos)
  have hreach := reach_le bits
  exact lt_of_lt_of_le (mul_pos (by linarith) (unit_pos bits)) (h.low_le' hpos)

theorem lt_two_pow : x < 2 ^ (exponent bits + 53) := by
  have hmantissa : (mantissa bits : ℚ) + 1 ≤ 2 ^ 53 := by exact_mod_cast mantissa_lt bits
  calc x ≤ (mantissa bits + 1 / 2) * 2 ^ exponent bits := h.le_high'
    _ < 2 ^ 53 * 2 ^ exponent bits := mul_lt_mul_of_pos_right (by linarith) (unit_pos bits)
    _ = 2 ^ (exponent bits + 53) := (two_pow_exponent_add bits 53).symm

/-- Only a power of two is so near to smaller numbers that a fraction with a smaller exponent is rounded to it. -/
theorem mantissa_eq (hpos : 0 < bits) (hleast : exponent bits ≠ -1074)
    (hbelow : x < 2 ^ (exponent bits + 52)) : mantissa bits = hiddenBit := by
  by_contra hne
  have hgt : (2 : ℚ) ^ 52 + 1 ≤ mantissa bits := by
    exact_mod_cast Nat.lt_of_le_of_ne (hiddenBit_le_mantissa hleast) (Ne.symm hne)
  have hreach := reach_le bits
  have hge : 2 ^ 52 * 2 ^ exponent bits ≤ x :=
    le_trans (mul_le_mul_of_nonneg_right (by linarith) (unit_pos bits).le) (h.low_le' hpos)
  exact absurd hbelow (not_lt.mpr ((two_pow_exponent_add bits 52).trans_le hge))

theorem two_pow_le (hpos : 0 < bits) (hleast : exponent bits ≠ -1074)
    (hhidden : mantissa bits = hiddenBit) : 2 ^ (exponent bits + 51) ≤ x := by
  have hlow := h.low_le' hpos
  rw [hhidden, reach_of_mantissa_eq hleast hhidden] at hlow
  calc (2 : ℚ) ^ (exponent bits + 51) = 2 ^ 51 * 2 ^ exponent bits := two_pow_exponent_add bits 51
    _ ≤ (hiddenBit - 1 / 4) * 2 ^ exponent bits :=
        mul_le_mul_of_nonneg_right (by norm_num [hiddenBit]) (unit_pos bits).le
    _ ≤ x := hlow

/-- The unit of a fraction is that of the number to which it is rounded, unless it is just below a power of two. -/
theorem unit_cases (hpos : 0 < bits) :
    max (Int.log 2 x) (-1022) - 52 = exponent bits ∨
      max (Int.log 2 x) (-1022) - 52 = exponent bits - 1 ∧ exponent bits ≠ -1074 ∧
        mantissa bits = hiddenBit ∧ x < 2 ^ (exponent bits + 52) := by
  have hx := h.pos hpos
  have hatMost : Int.log 2 x < exponent bits + 53 := by
    rw [← Int.lt_zpow_iff_log_lt one_lt_two hx, Nat.cast_ofNat]
    exact h.lt_two_pow
  have hexponent := exponent_ge bits
  by_cases hleast : exponent bits = -1074
  · left
    omega
  by_cases hbelow : x < 2 ^ (exponent bits + 52)
  · right
    have hhidden := h.mantissa_eq hpos hleast hbelow
    have hatLeast : exponent bits + 51 ≤ Int.log 2 x := by
      rw [← Int.zpow_le_iff_le_log one_lt_two hx, Nat.cast_ofNat]
      exact h.two_pow_le hpos hleast hhidden
    have hatMost : Int.log 2 x < exponent bits + 52 := by
      rwa [← Int.lt_zpow_iff_log_lt one_lt_two hx, Nat.cast_ofNat]
    exact ⟨by omega, hleast, hhidden, hbelow⟩
  · left
    have hatLeast : exponent bits + 52 ≤ Int.log 2 x := by
      rw [← Int.zpow_le_iff_le_log one_lt_two hx, Nat.cast_ofNat]
      exact not_lt.mp hbelow
    omega

end Rounding.Contains

theorem nearest_of_unit (hnum : 0 < num) (hden : 0 < den) {e : Int}
    (hunit : max (Int.log 2 ((num : ℚ) / den)) (-1022) - 52 = e) {n : Nat}
    (hlow : ((n : ℚ) - 1 / 2) * 2 ^ e ≤ num / den) (hhigh : (num : ℚ) / den ≤ (n + 1 / 2) * 2 ^ e)
    (hodd : n % 2 = 1 →
      ((n : ℚ) - 1 / 2) * 2 ^ e < num / den ∧ (num : ℚ) / den < (n + 1 / 2) * 2 ^ e) :
    nearest num den = min infinityBits ((e + 1074).toNat * hiddenBit + n) := by
  have hpos : (0 : ℚ) < 2 ^ e := zpow_pos two_pos _
  have hscaled := scale_eq num den (-e)
  rw [zpow_neg, ← div_eq_mul_inv] at hscaled
  rw [← le_div_iff₀ hpos, ← hscaled] at hlow
  rw [← div_le_iff₀ hpos, ← hscaled] at hhigh
  rw [← lt_div_iff₀ hpos, ← div_lt_iff₀ hpos, ← hscaled] at hodd
  rw [nearest, floorLog2_eq hnum hden]
  simp only [hunit, roundHalfEven_eq (scale_den_pos hden _) hlow hhigh hodd]

theorem nearest_below (hfinite : bits < infinityBits) (hnum : 0 < num) (hden : 0 < den)
    (hunit : max (Int.log 2 ((num : ℚ) / den)) (-1022) - 52 = exponent bits - 1)
    (hleast : exponent bits ≠ -1074) (hhidden : mantissa bits = hiddenBit)
    (hlow : ((2 : ℚ) ^ 52 - 1 / 4) * 2 ^ exponent bits ≤ num / den)
    (hbelow : (num : ℚ) / den < 2 ^ 52 * 2 ^ exponent bits) : nearest num den = bits := by
  have hhalf : (2 : ℚ) ^ (exponent bits - 1) = 2 ^ exponent bits / 2 := by
    rw [zpow_sub_one₀ two_ne_zero, div_eq_mul_inv]
  have htwice : ((2 * hiddenBit : Nat) : ℚ) = 2 * 2 ^ 52 := by
    norm_num [hiddenBit]
  have hstep : (exponent bits + 1074).toNat = (exponent bits - 1 + 1074).toNat + 1 := by
    have hexponent := exponent_ge bits
    omega
  have hbits : (exponent bits - 1 + 1074).toNat * hiddenBit + 2 * hiddenBit = bits := by
    calc (exponent bits - 1 + 1074).toNat * hiddenBit + 2 * hiddenBit
        = ((exponent bits - 1 + 1074).toNat + 1) * hiddenBit + hiddenBit := by ring
      _ = (exponent bits + 1074).toNat * hiddenBit + mantissa bits := by rw [hstep, hhidden]
      _ = bits := bits_eq bits
  have hrounded := nearest_of_unit (n := 2 * hiddenBit) hnum hden hunit
    (by rw [hhalf, htwice]; linarith) (by rw [hhalf, htwice]; linarith [unit_pos bits])
    fun hodd => absurd hodd (by decide)
  rw [hrounded, hbits, Nat.min_eq_right hfinite.le]

/-- A fraction in the interval of a number is rounded to the number. -/
theorem nearest_eq (hpos : 0 < bits) (hfinite : bits < infinityBits) (hnum : 0 < num)
    (hden : 0 < den) (h : (Rounding.ofBits bits).Contains ((num : ℚ) / den)) :
    nearest num den = bits := by
  have hlow := h.low_le' hpos
  rcases h.unit_cases hpos with hunit | ⟨hunit, hleast, hhidden, hbelow⟩
  · have hreach : ((mantissa bits : ℚ) - 1 / 2) * 2 ^ exponent bits ≤
        (mantissa bits - reach bits) * 2 ^ exponent bits :=
      mul_le_mul_of_nonneg_right (by linarith [reach_le bits]) (unit_pos bits).le
    rw [nearest_of_unit hnum hden hunit (hreach.trans hlow) h.le_high' fun hodd => ?_, bits_eq,
      Nat.min_eq_right hfinite.le]
    have hstrict := h.strict (by rw [Rounding.closed_ofBits, hodd]; rfl)
    rw [Rounding.low_ofBits hpos, Rounding.high_ofBits] at hstrict
    exact ⟨hreach.trans_lt hstrict.1, hstrict.2⟩
  · rw [hhidden, reach_of_mantissa_eq hleast hhidden,
      show (hiddenBit : ℚ) = 2 ^ 52 by norm_num [hiddenBit]] at hlow
    exact nearest_below hfinite hnum hden hunit hleast hhidden hlow
      (hbelow.trans_eq (two_pow_exponent_add bits 52))

end LineBasic.Binary64
