import LineBasic.Proofs.NearestNumbers

/-!
The shortest decimal fraction of a binary64 number leads back to the number. The search for it ends, since the grid of
seventeen digits is finer than the interval that is rounded to the number, and it ends in the interval.
-/

namespace LineBasic.Binary64

variable {bits num den : Nat} {x : ℚ}

theorem length_toDigits {n : Nat} (h : n ≠ 0) : (Nat.toDigits 10 n).length = Nat.log 10 n + 1 := by
  have hle : (Nat.toDigits 10 n).length ≤ Nat.log 10 n + 1 :=
    (Nat.length_toDigits_le_iff (by decide) (Nat.succ_pos _)).mpr
      (Nat.lt_pow_succ_log_self (by decide) n)
  have hlt : n < 10 ^ (Nat.toDigits 10 n).length :=
    (Nat.length_toDigits_le_iff (by decide) Nat.length_toDigits_pos).mp (Nat.le_refl _)
  have hlog := (Nat.log_lt_iff_lt_pow (by decide) h).mpr hlt
  omega

theorem exponent_le (h : bits < infinityBits) : exponent bits ≤ 971 := by
  unfold infinityBits hiddenBit at h
  unfold exponent hiddenBit
  split <;> omega

/-- What is rounded to a positive number that is finite is neither tiny nor huge. -/
theorem Rounding.Contains.bounds (h : (Rounding.ofBits bits).Contains x) (hpos : 0 < bits)
    (hfinite : bits < infinityBits) : 2 ^ (-1075 : Int) ≤ x ∧ x < 2 ^ (1024 : Int) := by
  have hmantissa : (1 : ℚ) ≤ mantissa bits := Nat.one_le_cast.mpr (mantissa_pos hpos)
  constructor
  · calc (2 : ℚ) ^ (-1075 : Int) = 1 / 2 * 2 ^ (-1074 : Int) := by
          rw [show (-1075 : Int) = -1074 - 1 from rfl, zpow_sub_one₀ two_ne_zero]
          ring
      _ ≤ 1 / 2 * 2 ^ exponent bits :=
          mul_le_mul_of_nonneg_left (zpow_le_zpow_right₀ one_le_two (exponent_ge bits)) (by norm_num)
      _ ≤ (mantissa bits - reach bits) * 2 ^ exponent bits :=
          mul_le_mul_of_nonneg_right (by linarith [reach_le bits]) (unit_pos bits).le
      _ ≤ x := h.low_le' hpos
  · calc x < 2 ^ (exponent bits + 53) := h.lt_two_pow
      _ ≤ 2 ^ (1024 : Int) := zpow_le_zpow_right₀ one_le_two (by linarith [exponent_le hfinite])

theorem decimal_bounds {digits : Nat} (h : digits ≠ 0) (power : Int) :
    (10 : ℚ) ^ ((Nat.toDigits 10 digits).length + power - 1) ≤ digits * 10 ^ power ∧
      (digits : ℚ) * 10 ^ power < 10 ^ ((Nat.toDigits 10 digits).length + power) := by
  have hpower : (0 : ℚ) < 10 ^ power := zpow_pos (by norm_num) _
  have hlow : (10 : ℚ) ^ Nat.log 10 digits ≤ digits := by
    exact_mod_cast Nat.pow_log_le_self 10 h
  have hhigh : (digits : ℚ) < 10 ^ (Nat.log 10 digits + 1) := by
    exact_mod_cast Nat.lt_pow_succ_log_self (b := 10) (by decide) digits
  rw [length_toDigits h]
  constructor
  · rw [show ((Nat.log 10 digits + 1 : Nat) : Int) + power - 1 = Nat.log 10 digits + power by
      push_cast; ring, zpow_add₀ (by norm_num), zpow_natCast]
    exact mul_le_mul_of_nonneg_right hlow hpower.le
  · rw [zpow_add₀ (by norm_num), zpow_natCast]
    exact mul_lt_mul_of_pos_right hhigh hpower

theorem huge_le : (2 : ℚ) ^ (1024 : Int) ≤ 10 ^ (310 : Int) := by
  have h : 2 ^ 1024 ≤ 10 ^ 310 := by decide +kernel
  rw [← Nat.cast_le (α := ℚ), Nat.cast_pow, Nat.cast_pow] at h
  exact h

theorem tiny_le : (10 : ℚ) ^ (-331 : Int) ≤ 2 ^ (-1075 : Int) := by
  have h : 2 ^ 1075 ≤ 10 ^ 331 := by decide +kernel
  rw [← Nat.cast_le (α := ℚ), Nat.cast_pow, Nat.cast_pow] at h
  rw [zpow_neg, zpow_neg]
  exact inv_anti₀ (zpow_pos two_pos _) h

theorem ofDecimal_eq {digits : Nat} {power : Int} (hpos : 0 < bits) (hfinite : bits < infinityBits)
    (h : (Rounding.ofBits bits).Contains (digits * 10 ^ power)) : ofDecimal digits power = bits := by
  obtain ⟨htiny, hhuge⟩ := h.bounds hpos hfinite
  have hzero : digits ≠ 0 := by
    rintro rfl
    rw [Nat.cast_zero, zero_mul] at htiny
    exact absurd htiny (not_le.mpr (zpow_pos two_pos _))
  obtain ⟨hlow, hhigh⟩ := decimal_bounds hzero power
  have hsmall : ¬(Nat.toDigits 10 digits).length + power > 310 := by
    intro hgt
    have hmono : (10 : ℚ) ^ (310 : Int) ≤ 10 ^ ((Nat.toDigits 10 digits).length + power - 1) :=
      zpow_le_zpow_right₀ (by norm_num) (by omega)
    exact absurd hhuge (not_lt.mpr (huge_le.trans (hmono.trans hlow)))
  have hlarge : ¬(Nat.toDigits 10 digits).length + power < -330 := by
    intro hlt
    have hmono : (10 : ℚ) ^ ((Nat.toDigits 10 digits).length + power) ≤ 10 ^ (-331 : Int) :=
      zpow_le_zpow_right₀ (by norm_num) (by omega)
    exact absurd htiny (not_le.mpr (hhigh.trans_le (hmono.trans tiny_le)))
  simp only [ofDecimal, if_neg hzero, if_neg hsmall, if_neg hlarge]
  have hdigits := Nat.pos_of_ne_zero hzero
  cases power with
  | ofNat n =>
      refine nearest_eq hpos hfinite (Nat.mul_pos hdigits (Nat.pow_pos (by decide))) one_pos ?_
      rwa [Nat.cast_one, div_one, Nat.cast_mul, Nat.pow_eq, Nat.cast_pow]
  | negSucc n =>
      refine nearest_eq hpos hfinite hdigits (Nat.pow_pos (by decide)) ?_
      rwa [Nat.pow_eq, Nat.cast_pow, div_eq_mul_inv]

theorem decimalPlace_eq (hnum : 0 < num) (hden : 0 < den) :
    decimalPlace num den = Int.log 10 ((num : ℚ) / den) + 1 := by
  have hden' : (0 : ℚ) < den := Nat.cast_pos.mpr hden
  rw [log_div (by decide) hnum hden, decimalPlace, length_toDigits hnum.ne', length_toDigits hden.ne']
  rw [show ((Nat.log 10 num + 1 : Nat) : Int) - (Nat.log 10 den + 1 : Nat) =
    Nat.log 10 num - Nat.log 10 den by push_cast; ring]
  generalize (Nat.log 10 num : Int) - Nat.log 10 den = k
  cases k with
  | ofNat n =>
      have hreaches : den * Nat.pow 10 n ≤ num ↔ ((10 : Nat) : ℚ) ^ Int.ofNat n ≤ num / den := by
        rw [le_div_iff₀ hden', mul_comm, Int.ofNat_eq_natCast, zpow_natCast, Nat.pow_eq]
        exact_mod_cast Iff.rfl
      simp only [hreaches, decide_eq_true_eq]
      split <;> omega
  | negSucc n =>
      have hreaches : den ≤ num * Nat.pow 10 (n + 1) ↔
          ((10 : Nat) : ℚ) ^ Int.negSucc n ≤ num / den := by
        rw [zpow_negSucc, inv_le_iff_one_le_mul₀ (by positivity), div_mul_eq_mul_div,
          le_div_iff₀ hden', one_mul, Nat.pow_eq]
        exact_mod_cast Iff.rfl
      simp only [hreaches, decide_eq_true_eq]
      split <;> omega

namespace Rounding

variable {r : Rounding}

theorem contains_of_lt (hlow : (r.low : ℚ) / r.den < x) (hhigh : x < (r.high : ℚ) / r.den) :
    r.Contains x :=
  ⟨hlow.le, hhigh.le, fun _ => ⟨hlow, hhigh⟩⟩

theorem le_low_of_not_contains (h : ¬r.Contains x) (hhigh : x < (r.high : ℚ) / r.den) :
    x ≤ (r.low : ℚ) / r.den :=
  not_lt.mp fun hlow => h (contains_of_lt hlow hhigh)

theorem high_le_of_not_contains (h : ¬r.Contains x) (hlow : (r.low : ℚ) / r.den < x) :
    (r.high : ℚ) / r.den ≤ x :=
  not_lt.mp fun hhigh => h (contains_of_lt hlow hhigh)

/-- The decimal grid in whole numbers: a factor for the numbers, and what its points are multiples of. -/
def grid (r : Rounding) : Int → Nat × Nat
  | .ofNat n => (1, r.den * Nat.pow 10 n)
  | .negSucc n => (Nat.pow 10 (n + 1), r.den)

/-- Whether a point of the grid lies in the interval, in whole numbers. -/
def inside (r : Rounding) (place : Int) (n : Nat) : Bool :=
  if r.closed then
    r.low * (r.grid place).1 ≤ n * (r.grid place).2 &&
      n * (r.grid place).2 ≤ r.high * (r.grid place).1
  else
    r.low * (r.grid place).1 < n * (r.grid place).2 &&
      n * (r.grid place).2 < r.high * (r.grid place).1

theorem onGrid?_eq (r : Rounding) (place : Int) :
    r.onGrid? place =
      let value := r.value * (r.grid place).1
      let unit := (r.grid place).2
      let lower := value / unit
      if r.inside place lower then
        if r.inside place (lower + 1) && unit ≤ 2 * (value % unit) then some (lower + 1)
        else some lower
      else if r.inside place (lower + 1) then some (lower + 1)
      else none := by
  cases place with
  | ofNat n => rfl
  | negSucc n => rfl

theorem grid_eq (hden : 0 < r.den) (place : Int) :
    0 < (r.grid place).1 ∧ 0 < (r.grid place).2 ∧
      ((r.grid place).2 : ℚ) / (r.grid place).1 = r.den * 10 ^ place := by
  cases place with
  | ofNat n =>
      refine ⟨one_pos, Nat.mul_pos hden (Nat.pow_pos (by decide)), ?_⟩
      simp [grid]
  | negSucc n =>
      refine ⟨Nat.pow_pos (by decide), hden, ?_⟩
      simp [grid, zpow_negSucc, div_eq_mul_inv]

theorem contains_iff (r : Rounding) (x : ℚ) :
    r.Contains x ↔
      if r.closed then (r.low : ℚ) / r.den ≤ x ∧ x ≤ (r.high : ℚ) / r.den
      else (r.low : ℚ) / r.den < x ∧ x < (r.high : ℚ) / r.den := by
  cases hclosed : r.closed with
  | true =>
      refine ⟨fun h => ⟨h.low_le, h.le_high⟩, fun h => ⟨h.1, h.2, fun hopen => ?_⟩⟩
      exact absurd (hclosed.symm.trans hopen) (by decide)
  | false =>
      exact ⟨fun h => h.strict hclosed, fun h => contains_of_lt h.1 h.2⟩

theorem cast_point (hden : 0 < r.den) (place : Int) (n : Nat) :
    ((n * (r.grid place).2 : Nat) : ℚ) = n * 10 ^ place * r.den * (r.grid place).1 := by
  obtain ⟨hscale, -, hgrid⟩ := grid_eq hden place
  rw [div_eq_iff (Nat.cast_pos.mpr hscale).ne'] at hgrid
  rw [Nat.cast_mul, hgrid]
  ring

theorem le_point_iff (hden : 0 < r.den) (place : Int) (a n : Nat) :
    a * (r.grid place).1 ≤ n * (r.grid place).2 ↔ (a : ℚ) / r.den ≤ n * 10 ^ place := by
  rw [← Nat.cast_le (α := ℚ), cast_point hden, Nat.cast_mul,
    mul_le_mul_iff_of_pos_right (Nat.cast_pos.mpr (grid_eq hden place).1),
    div_le_iff₀ (Nat.cast_pos.mpr hden)]

theorem point_le_iff (hden : 0 < r.den) (place : Int) (a n : Nat) :
    n * (r.grid place).2 ≤ a * (r.grid place).1 ↔ n * 10 ^ place ≤ (a : ℚ) / r.den := by
  rw [← Nat.cast_le (α := ℚ), cast_point hden, Nat.cast_mul,
    mul_le_mul_iff_of_pos_right (Nat.cast_pos.mpr (grid_eq hden place).1),
    le_div_iff₀ (Nat.cast_pos.mpr hden)]

theorem inside_iff (hden : 0 < r.den) (place : Int) (n : Nat) :
    r.inside place n = true ↔ r.Contains (n * 10 ^ place) := by
  rw [contains_iff, inside]
  cases r.closed with
  | true => simp [le_point_iff hden, point_le_iff hden]
  | false =>
      simp only [Bool.false_eq_true, if_false, Bool.and_eq_true, decide_eq_true_eq]
      rw [← not_le, ← not_le, ← not_le, ← not_le, le_point_iff hden, point_le_iff hden]

/-- The number is between its neighbours on the grid. -/
theorem neighbours (hden : 0 < r.den) (place : Int) :
    ((r.value * (r.grid place).1 / (r.grid place).2 : Nat) : ℚ) * 10 ^ place ≤
        (r.value : ℚ) / r.den ∧
      (r.value : ℚ) / r.den <
        ((r.value * (r.grid place).1 / (r.grid place).2 + 1 : Nat) : ℚ) * 10 ^ place := by
  constructor
  · rw [← point_le_iff hden]
    exact Nat.div_mul_le_self _ _
  · rw [← not_le, ← point_le_iff hden, not_le]
    exact (Nat.lt_mul_div_succ _ (grid_eq hden place).2.1).trans_eq (Nat.mul_comm _ _)

theorem contains_of_onGrid? (hden : 0 < r.den) {place : Int} {n : Nat}
    (h : r.onGrid? place = some n) : r.Contains (n * 10 ^ place) := by
  rw [← inside_iff hden]
  rw [onGrid?_eq] at h
  dsimp only at h
  split at h
  · split at h
    · rename_i hboth
      cases h
      exact (Bool.and_eq_true_iff.mp hboth).1
    · cases h
      assumption
  · split at h
    · cases h
      assumption
    · cases h

theorem onGrid?_isSome (hden : 0 < r.den) {place : Int}
    (hlow : (r.low : ℚ) / r.den ≤ (r.value : ℚ) / r.den)
    (hhigh : (r.value : ℚ) / r.den < (r.high : ℚ) / r.den)
    (hwide : (10 : ℚ) ^ place < (r.high : ℚ) / r.den - (r.low : ℚ) / r.den) :
    (r.onGrid? place).isSome := by
  obtain ⟨hbelow, habove⟩ := neighbours hden place
  rw [onGrid?_eq]
  dsimp only
  generalize r.value * (r.grid place).1 / (r.grid place).2 = lower at hbelow habove ⊢
  split
  · split <;> rfl
  · rename_i houtside
    rw [if_pos]
    · rfl
    · rw [inside_iff hden] at houtside ⊢
      by_contra houtside'
      have hle := le_low_of_not_contains houtside (hbelow.trans_lt hhigh)
      have hge := high_le_of_not_contains houtside' (hlow.trans_lt habove)
      push_cast at hge
      linarith

/-- The search stops in the interval, if a grid that it comes to has a point there. -/
theorem contains_search (hden : 0 < r.den) {place : Int} {fuel count : Nat} (hlt : count < fuel)
    (h : (r.onGrid? (place - count)).isSome) :
    r.Contains ((r.search place fuel).1 * 10 ^ (r.search place fuel).2) := by
  induction fuel generalizing place count with
  | zero => cases hlt
  | succ fuel ih =>
      rw [search]
      split
      · rename_i digits hdigits
        exact contains_of_onGrid? hden hdigits
      · rename_i hnone
        cases count with
        | zero =>
            rw [Nat.cast_zero, sub_zero, hnone] at h
            cases h
        | succ count =>
            refine ih (Nat.lt_of_succ_lt_succ hlt) ?_
            rwa [sub_sub, add_comm 1, ← Nat.cast_succ]

end Rounding

theorem stripZeros_eq (digits : Nat) (power : Int) (fuel : Nat) :
    ((stripZeros digits power fuel).1 : ℚ) * 10 ^ (stripZeros digits power fuel).2 =
      digits * 10 ^ power := by
  induction fuel generalizing digits power with
  | zero => rfl
  | succ fuel ih =>
      rw [stripZeros]
      split
      · rename_i hzero
        have hdigits : digits = digits / 10 * 10 := by omega
        rw [ih, zpow_add_one₀ (by norm_num)]
        conv => rhs; rw [hdigits]
        push_cast
        ring
      · rfl

/-- The interval of a number is wider than the number divided by `10 ^ 16`. -/
theorem mantissa_lt_mul (bits : Nat) : (mantissa bits : ℚ) < (reach bits + 1 / 2) * 10 ^ 16 := by
  by_cases hpower : bits % hiddenBit = 0 ∧ 1 < bits / hiddenBit
  · have hmantissa : mantissa bits = hiddenBit := by
      rw [mantissa, if_neg (Nat.ne_of_gt (Nat.lt_of_succ_lt hpower.2)), hpower.1, Nat.zero_add]
    rw [hmantissa, reach, if_pos hpower]
    norm_num [hiddenBit]
  · have hlt : (mantissa bits : ℚ) < 2 ^ 53 := by exact_mod_cast mantissa_lt bits
    rw [reach, if_neg hpower]
    norm_num at hlt ⊢
    linarith

/-- The shortest decimal fraction of a number is read as the number. -/
theorem ofDecimal_shortest (hpos : 0 < bits) (hfinite : bits < infinityBits) :
    ofDecimal (shortest bits).1 (shortest bits).2 = bits := by
  have hden := Rounding.den_ofBits_pos bits
  have hunit := unit_pos bits
  have hmantissa : (0 : ℚ) < mantissa bits := Nat.cast_pos.mpr (mantissa_pos hpos)
  have hreach := reach_pos bits
  have hvalue := Rounding.value_ofBits bits
  have hvaluePos : 0 < (Rounding.ofBits bits).value := by
    rw [← Nat.cast_pos (α := ℚ), ← div_pos_iff_of_pos_right (Nat.cast_pos.mpr hden), hvalue]
    exact mul_pos hmantissa hunit
  refine ofDecimal_eq hpos hfinite ?_
  rw [shortest]
  dsimp only
  rw [stripZeros_eq, decimalPlace_eq hvaluePos hden, add_sub_cancel_right, hvalue]
  -- The last of the grids has seventeen digits.
  refine Rounding.contains_search hden (show 16 < 17 by decide)
    (Rounding.onGrid?_isSome hden ?_ ?_ ?_)
  · rw [Rounding.low_ofBits hpos, hvalue]
    exact mul_le_mul_of_nonneg_right (by linarith) hunit.le
  · rw [Rounding.high_ofBits, hvalue]
    exact mul_lt_mul_of_pos_right (by linarith) hunit
  · rw [Rounding.low_ofBits hpos, Rounding.high_ofBits, ← sub_mul]
    have hlog := Int.zpow_log_le_self (b := 10) (by decide) (mul_pos hmantissa hunit)
    calc (10 : ℚ) ^ (Int.log 10 ((mantissa bits : ℚ) * 2 ^ exponent bits) - (16 : Nat))
        = 10 ^ Int.log 10 ((mantissa bits : ℚ) * 2 ^ exponent bits) / 10 ^ 16 := by
          rw [zpow_sub₀ (by norm_num), zpow_natCast]
      _ ≤ mantissa bits * 2 ^ exponent bits / 10 ^ 16 :=
          div_le_div_of_nonneg_right hlog (by norm_num)
      _ < (reach bits + 1 / 2) * 10 ^ 16 * 2 ^ exponent bits / 10 ^ 16 :=
          div_lt_div_of_pos_right (mul_lt_mul_of_pos_right (mantissa_lt_mul bits) hunit)
            (by norm_num)
      _ = (mantissa bits + 1 / 2 - (mantissa bits - reach bits)) * 2 ^ exponent bits := by ring

end LineBasic.Binary64
