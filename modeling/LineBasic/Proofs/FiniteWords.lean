import Mathlib.Algebra.Group.Nat.Defs
import LineBasic.Binary64

namespace LineBasic

/-- The finite numbers include the negatives of finite numbers and the whole numbers of 32 bits, truth values among them. -/
class NumberSystem.FiniteWords (R : Type) [NumberSystem R] : Prop where
  isFinite_neg : ∀ x : R, isFinite x = true → isFinite (neg x) = true
  isFinite_ofInt : ∀ i : Int, -2147483648 ≤ i → i ≤ 2147483647 → isFinite (ofInt i : R) = true

namespace Binary64

open Float.Model (UnpackedFloat totalExponent)
open Float.Model.UnpackedFloat
open Float.Model.Format (binary64)

/-- Zero, or a finite number with so many bits, the last of which has at most this exponent. -/
def IsWithin (bits : Nat) (limit : Int) : UnpackedFloat → Prop
  | .zero _ => True
  | .finite _ mantissa exponent _ => mantissa < 2 ^ bits ∧ exponent ≤ limit
  | .infinity _ => False
  | .notANumber => False

variable {bits : Nat} {limit limit' : Int} {f : UnpackedFloat} {b : BitVec binary64.numBits}

theorem IsWithin.mono (h : IsWithin bits limit f) (hle : limit ≤ limit') : IsWithin bits limit' f := by
  cases f with
  | zero s => trivial
  | finite s mantissa exponent hpos => exact ⟨h.1, Int.le_trans h.2 hle⟩
  | infinity s => cases h
  | notANumber => cases h

theorem IsWithin.isFinite (h : IsWithin bits limit f) : f.isFinite = true := by
  cases f with
  | zero s => rfl
  | finite s mantissa exponent hpos => rfl
  | infinity s => cases h
  | notANumber => cases h

theorem exponentBias_binary64 : binary64.exponentBias = 1023 := by
  decide

theorem toNat_append_one (m : BitVec 52) : (1#1 ++ m).toNat = 2 ^ 52 + m.toNat := by
  rw [BitVec.toNat_append, ← Nat.shiftLeft_add_eq_or_of_lt m.isLt]
  rfl

/-- What a word stands for. -/
theorem unpack_cases (b : BitVec binary64.numBits) :
    unpackExponent b = -1#_ ∧ unpackMantissa b ≠ 0#_ ∧ unpack binary64 b = .notANumber ∨
    unpackExponent b = -1#_ ∧ unpackMantissa b = 0#_ ∧
      unpack binary64 b = .infinity (.ofBitVec (unpackSign b)) ∨
    unpackExponent b = 0#_ ∧ unpackMantissa b = 0#_ ∧
      unpack binary64 b = .zero (.ofBitVec (unpackSign b)) ∨
    unpackExponent b = 0#_ ∧ unpackMantissa b ≠ 0#_ ∧
      (∃ hpos, unpack binary64 b =
        .finite (.ofBitVec (unpackSign b)) (unpackMantissa b).toNat (-1074) hpos) ∨
    unpackExponent b ≠ -1#_ ∧ unpackExponent b ≠ 0#_ ∧
      (∃ hpos, unpack binary64 b = .finite (.ofBitVec (unpackSign b))
        (1#1 ++ unpackMantissa b).toNat ((unpackExponent b).toNat - 1075) hpos) := by
  unfold unpack
  dsimp only
  rw [exponentBias_binary64]
  by_cases hones : unpackExponent b = -1#_
  · rw [if_pos hones]
    by_cases hmantissa : unpackMantissa b = 0#_
    · rw [if_pos hmantissa]
      exact .inr (.inl ⟨hones, hmantissa, rfl⟩)
    · rw [if_neg hmantissa]
      exact .inl ⟨hones, hmantissa, rfl⟩
  · rw [if_neg hones]
    by_cases hzero : unpackExponent b = 0#_
    · rw [if_pos hzero]
      by_cases hmantissa : unpackMantissa b = 0#_
      · rw [dif_pos hmantissa]
        exact .inr (.inr (.inl ⟨hzero, hmantissa, rfl⟩))
      · have hpos : 0 < (unpackMantissa b).toNat :=
          Nat.pos_of_ne_zero fun h => hmantissa (BitVec.eq_of_toNat_eq h)
        rw [dif_neg hmantissa, hzero]
        exact .inr (.inr (.inr (.inl ⟨rfl, hmantissa, hpos, rfl⟩)))
    · have hpos : 0 < (1#1 ++ unpackMantissa b).toNat := by
        rw [toNat_append_one]
        omega
      rw [if_neg hzero]
      exact .inr (.inr (.inr (.inr ⟨hones, hzero, hpos, rfl⟩)))

theorem isWithin_unpack (h : unpackExponent b ≠ -1#_) :
    IsWithin 53 (max ((unpackExponent b).toNat - 1075) (-1074)) (unpack binary64 b) := by
  rcases unpack_cases b with ⟨hones, -⟩ | ⟨hones, -⟩ | ⟨-, -, hunpack⟩ | ⟨-, -, _, hunpack⟩ |
    ⟨-, -, _, hunpack⟩
  · exact absurd hones h
  · exact absurd hones h
  · rw [hunpack]
    trivial
  · rw [hunpack]
    exact ⟨Nat.lt_trans (BitVec.isLt _) (by decide), Int.le_max_right _ _⟩
  · rw [hunpack]
    exact ⟨BitVec.isLt _, Int.le_max_left _ _⟩

theorem unpackExponent_ne_of_isFinite (h : (unpack binary64 b).isFinite = true) :
    unpackExponent b ≠ -1#_ := by
  intro hones
  rcases unpack_cases b with ⟨-, -, hunpack⟩ | ⟨-, -, hunpack⟩ | ⟨hzero, -⟩ | ⟨hzero, -⟩ |
    ⟨hne, -⟩
  · rw [hunpack] at h
    cases h
  · rw [hunpack] at h
    cases h
  · exact absurd (hones.symm.trans hzero) (by decide)
  · exact absurd (hones.symm.trans hzero) (by decide)
  · exact hne hones

theorem isWithin_of_isFinite (h : (unpack binary64 b).isFinite = true) :
    IsWithin 53 971 (unpack binary64 b) := by
  have hones : unpackExponent b ≠ -1#_ := unpackExponent_ne_of_isFinite h
  refine (isWithin_unpack hones).mono ?_
  have hlt := (unpackExponent b).isLt
  have hne : (unpackExponent b).toNat ≠ 2047 := fun h => hones (BitVec.eq_of_toNat_eq h)
  change _ < 2048 at hlt
  omega

theorem toNat_unpackExponent_pack (h : IsWithin bits limit f) (hlimit : limit ≤ 971) :
    (unpackExponent (pack binary64 f)).toNat ≤ (limit + 1075).toNat := by
  cases f with
  | zero s =>
      change (unpackExponent (packComponents binary64 s 0 0)).toNat ≤ _
      rw [unpackExponent_packComponents]
      exact Nat.zero_le _
  | finite s mantissa exponent hpos =>
      have hexponent : exponent ≤ limit := h.2
      have hroom : ¬2 ^ 11 ≤ (exponent + (1023 : Nat) + (52 : Nat)).toNat + 1 := by omega
      unfold pack
      dsimp only
      rw [exponentBias_binary64, if_neg hroom]
      split <;> rw [unpackExponent_packComponents]
      · refine Nat.le_trans (Nat.mod_le _ _) ?_
        omega
      · exact Nat.zero_le _
  | infinity s => cases h
  | notANumber => cases h

theorem isWithin_unpack_pack (h : IsWithin bits limit f) (hlimit : limit ≤ 971) :
    IsWithin 53 (max limit (-1074)) (unpack binary64 (pack binary64 f)) := by
  have hfield := toNat_unpackExponent_pack h hlimit
  refine (isWithin_unpack fun hones => ?_).mono (by omega)
  rw [hones] at hfield
  change 2047 ≤ (limit + 1075).toNat at hfield
  omega

theorem mantissa_shiftRight_le (em : ExtendedMantissa) (count : Nat) :
    (em >>> count).mantissa ≤ em.mantissa := by
  induction count with
  | zero => exact Nat.le_refl _
  | succ count ih => exact Nat.le_trans (Nat.div_le_self _ 2) ih

theorem roundedMantissa_le (em : ExtendedMantissa) : em.roundedMantissa ≤ em.mantissa + 1 := by
  rcases em with ⟨mantissa, _ | _, _ | _⟩ <;>
    simp only [ExtendedMantissa.roundedMantissa, ExtendedMantissa.accuracy,
      Accuracy.roundToNearestEven] <;> omega

theorem targetExponent_binary64 (total : Int) :
    binary64.targetExponent total = max (total - 53) (-1074) := by
  rfl

theorem shiftToTargetExponent_le {mantissa : Nat} (h : mantissa < 2 ^ bits) (exponent : Int)
    (accuracy : Accuracy) :
    (shiftToTargetExponent binary64 mantissa exponent accuracy).1.mantissa ≤ mantissa ∧
      (shiftToTargetExponent binary64 mantissa exponent accuracy).2 ≤ max exponent 0 + bits := by
  constructor
  · refine Nat.le_trans (mantissa_shiftRight_le _ _) (Nat.le_of_eq ?_)
    rcases accuracy with _ | _ | _ | _ <;> rfl
  · have hlog : mantissa.log2 ≤ bits := by
      rcases Nat.eq_zero_or_pos mantissa with rfl | hpos
      · exact Nat.zero_le _
      · exact Nat.le_of_lt ((Nat.log2_lt (Nat.ne_of_gt hpos)).mpr h)
    simp only [shiftToTargetExponent, shiftToExponent, targetExponent_binary64, totalExponent]
    omega

/-- Rounding raises the exponent by at most the bits that it drops: those of the number, and then those of a number that has
one bit more because it has carried. -/
theorem isWithin_roundWithAccuracy {mantissa : Nat} (h : mantissa < 2 ^ bits) (s : Sign)
    (exponent : Int) (accuracy : Accuracy) :
    IsWithin (bits + 1) (max exponent 0 + (2 * bits + 1 : Nat))
      (roundWithAccuracy binary64 s mantissa exponent accuracy) := by
  obtain ⟨hmantissa, hfirst⟩ := shiftToTargetExponent_le h exponent accuracy
  unfold roundWithAccuracy
  generalize shiftToTargetExponent binary64 mantissa exponent accuracy = first at hmantissa hfirst ⊢
  have hrounded : first.1.roundedMantissa < 2 ^ (bits + 1) := by
    have hle := roundedMantissa_le first.1
    have hpow := Nat.one_le_two_pow (n := bits)
    omega
  obtain ⟨hlast, hsecond⟩ := shiftToTargetExponent_le hrounded first.2 .exact
  dsimp only
  generalize shiftToTargetExponent binary64 first.1.roundedMantissa first.2 .exact = second
    at hlast hsecond ⊢
  by_cases hzero : second.1.mantissa = 0
  · rw [dif_pos hzero]
    trivial
  · rw [dif_neg hzero]
    refine ⟨Nat.lt_of_le_of_lt hlast hrounded, ?_⟩
    omega

theorem isFinite_ofModel_pack (h : IsWithin bits 971 f) :
    (Float.ofModel (Float.Model.pack f)).isFinite = true :=
  (isWithin_unpack_pack h (Int.le_refl _)).isFinite

theorem isFinite_neg {x : Float} (h : x.isFinite = true) : (-x).isFinite = true := by
  refine @isFinite_ofModel_pack 53 _ ?_
  have hwithin : IsWithin 53 971 x.toModel.unpack := isWithin_of_isFinite h
  generalize x.toModel.unpack = f at hwithin
  cases f with
  | zero s => trivial
  | finite s mantissa exponent hpos => exact hwithin
  | infinity s => cases hwithin
  | notANumber => cases hwithin

theorem isWithin_ofNat {n : Nat} (h : n < 2 ^ 53) :
    IsWithin 106 211 (UnpackedFloat.ofNat binary64 n) := by
  unfold UnpackedFloat.ofNat UnpackedFloat.ofInt UnpackedFloat.normalize
  split
  · rename_i hlt
    have hneg := Int.compare_eq_lt.mp hlt
    omega
  · trivial
  · unfold UnpackedFloat.round decreaseExponent
    -- The number is filled up to 53 bits before it is rounded.
    have hlow : -52 ≤ binary64.targetExponent (totalExponent n 0) := by
      rw [targetExponent_binary64, totalExponent]
      omega
    have hshift : n <<< (0 - binary64.targetExponent (totalExponent n 0)).toNat < 2 ^ 105 := by
      rw [Nat.shiftLeft_eq]
      calc n * 2 ^ (0 - binary64.targetExponent (totalExponent n 0)).toNat
          ≤ n * 2 ^ 52 := Nat.mul_le_mul_left n (Nat.pow_le_pow_right (by decide) (by omega))
        _ < 2 ^ 53 * 2 ^ 52 := Nat.mul_lt_mul_of_pos_right h (by decide)
    exact (isWithin_roundWithAccuracy hshift _ _ _).mono (by omega)

/-- A natural number is converted as a number of 64 bits and multiplied by one. -/
theorem isFinite_ofNat {n : Nat} (h : n < 2 ^ 53) : (Float.ofNat n).isFinite = true := by
  have hscientific : Float.ofNat n = n.toUInt64.toFloat * Float.ofBits 0x3FF0000000000000 := by
    unfold Float.ofNat
    change Float.ofScientific n false 0 = _
    rw [Float.ofScientific, dif_pos ⟨h, by decide⟩]
    rfl
  rw [hscientific]
  refine @isFinite_ofModel_pack 106 _ ?_
  have hword : n.toUInt64.toNat = n := Nat.mod_eq_of_lt (Nat.lt_trans h (by decide))
  have hvalue : IsWithin 106 211 (UnpackedFloat.ofNat binary64 n.toUInt64.toNat) :=
    isWithin_ofNat (hword.symm ▸ h)
  have hleft : IsWithin 53 211 n.toUInt64.toFloat.toModel.unpack :=
    isWithin_unpack_pack hvalue (by decide)
  have hone : (Float.ofBits 0x3FF0000000000000).toModel.unpack =
      .finite .positive (2 ^ 52) (-52) (by decide) := by
    rfl
  rw [hone]
  generalize n.toUInt64.toFloat.toModel.unpack = f at hleft
  cases f with
  | zero s => trivial
  | finite s mantissa exponent hpos =>
      have hmantissa : mantissa * 2 ^ 52 < 2 ^ 105 :=
        Nat.mul_lt_mul_of_pos_right hleft.1 (by decide)
      have hexponent : exponent ≤ 211 := hleft.2
      exact (isWithin_roundWithAccuracy hmantissa _ _ _).mono (by omega)
  | infinity s => cases hleft
  | notANumber => cases hleft

theorem isFinite_ofInt {i : Int} (hle : -2147483648 ≤ i) (hlt : i ≤ 2147483647) :
    (Float.ofInt i).isFinite = true := by
  cases i with
  | ofNat n =>
      have hn : (n : Int) ≤ 2147483647 := hlt
      exact isFinite_ofNat (by omega)
  | negSucc n => exact isFinite_neg (isFinite_ofNat (by omega))

instance : NumberSystem.FiniteWords Float where
  isFinite_neg _ := isFinite_neg
  isFinite_ofInt _ := isFinite_ofInt

end Binary64

end LineBasic
