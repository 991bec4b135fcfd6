import LineBasic.Proofs.FiniteWords
import LineBasic.Proofs.Rereading
import LineBasic.Proofs.ShortestNumerals

namespace LineBasic

namespace Binary64

open Float.Model (UnpackedFloat)
open Float.Model.UnpackedFloat
open Float.Model.Format (binary64)

variable {b : BitVec binary64.numBits} {e : BitVec binary64.exponentBits}
  {m : BitVec binary64.mantissaBitsWithoutImplicit} {x : Float}

theorem toBitVec_ofBitVec (s : BitVec 1) : (Sign.ofBitVec s).toBitVec = s := by
  revert s
  decide

theorem packComponents_unpack (b : BitVec binary64.numBits) :
    packComponents binary64 (Sign.ofBitVec (unpackSign b)) (unpackExponent b) (unpackMantissa b) =
      b := by
  rw [packComponents, toBitVec_ofBitVec]
  change BitVec 64 at b
  change b.extractLsb' 63 1 ++ b.extractLsb' 52 11 ++ b.extractLsb' 0 52 = b
  rw [BitVec.extractLsb'_append_extractLsb'_eq_extractLsb' (by decide),
    BitVec.extractLsb'_append_extractLsb'_eq_extractLsb' (by decide)]
  exact BitVec.extractLsb'_eq_self

theorem toNat_packComponents (s : Sign) (e : BitVec binary64.exponentBits)
    (m : BitVec binary64.mantissaBitsWithoutImplicit) :
    (packComponents binary64 s e m).toNat =
      s.toBitVec.toNat * 0x8000000000000000 + e.toNat * hiddenBit + m.toNat := by
  change ((s.toBitVec ++ (e : BitVec 11) : BitVec 12) ++ (m : BitVec 52)).toNat = _
  rw [BitVec.toNat_append, ← Nat.shiftLeft_add_eq_or_of_lt (BitVec.isLt _), BitVec.toNat_append,
    ← Nat.shiftLeft_add_eq_or_of_lt (BitVec.isLt _), Nat.shiftLeft_eq, Nat.shiftLeft_eq,
    Nat.add_mul, Nat.mul_assoc]
  rfl

theorem unpackSign_packComponents (s : Sign) (e : BitVec binary64.exponentBits)
    (m : BitVec binary64.mantissaBitsWithoutImplicit) :
    unpackSign (packComponents binary64 s e m) = s.toBitVec := by
  apply BitVec.eq_of_toNat_eq
  change (BitVec.extractLsb' 63 1 (packComponents binary64 s e m : BitVec 64)).toNat = _
  rw [BitVec.extractLsb'_toNat, toNat_packComponents, Nat.shiftRight_eq_div_pow]
  have hs : s.toBitVec.toNat < 2 := s.toBitVec.isLt
  have he : BitVec.toNat e < 2048 := e.isLt
  have hm : BitVec.toNat m < 2 ^ 52 := m.isLt
  unfold hiddenBit
  omega

theorem toNat_mod (b : BitVec binary64.numBits) :
    b.toNat % 0x8000000000000000 =
      (unpackExponent b).toNat * hiddenBit + (unpackMantissa b).toNat := by
  change (b : BitVec 64).toNat % _ = (BitVec.extractLsb' 52 11 (b : BitVec 64)).toNat * _ +
    (BitVec.extractLsb' 0 52 (b : BitVec 64)).toNat
  rw [BitVec.extractLsb'_toNat, BitVec.extractLsb'_toNat, Nat.shiftRight_eq_div_pow,
    Nat.shiftRight_zero]
  unfold hiddenBit
  omega

theorem log2_append_one (m : BitVec 52) : (1#1 ++ m).toNat.log2 = 52 := by
  have hlt := m.isLt
  rw [toNat_append_one, Nat.log2_eq_iff (by omega)]
  omega

theorem ofNat_append_one (m : BitVec 52) : BitVec.ofNat 52 (1#1 ++ m).toNat = m := by
  apply BitVec.eq_of_toNat_eq
  rw [BitVec.toNat_ofNat, toNat_append_one, Nat.add_mod_left, Nat.mod_eq_of_lt m.isLt]

def withSign (s : Sign) : UnpackedFloat → UnpackedFloat
  | .notANumber => .notANumber
  | .infinity _ => .infinity s
  | .zero _ => .zero s
  | .finite _ mantissa exponent hpos => .finite s mantissa exponent hpos

theorem neg_withSign (s : Sign) (f : UnpackedFloat) : (withSign s f).neg = withSign (-s) f := by
  cases f <;> rfl

theorem withSign_unpack (b : BitVec binary64.numBits) :
    withSign (Sign.ofBitVec (unpackSign b)) (unpack binary64 b) = unpack binary64 b := by
  rcases unpack_cases b with ⟨-, -, hunpack⟩ | ⟨-, -, hunpack⟩ | ⟨-, -, hunpack⟩ |
    ⟨-, -, _, hunpack⟩ | ⟨-, -, _, hunpack⟩ <;> rw [hunpack] <;> rfl

theorem pack_subnormal (s : Sign) (hpos : 0 < m.toNat) :
    pack binary64 (.finite s m.toNat (-1074) hpos) = packComponents binary64 s 0#_ m := by
  have hshort : ¬m.toNat.log2 + 1 = binary64.mantissaBits := by
    have hlog : m.toNat.log2 < 52 := (Nat.log2_lt (Nat.ne_of_gt hpos)).mpr m.isLt
    change ¬_ = 53
    omega
  unfold pack
  dsimp only
  rw [exponentBias_binary64, if_neg (by decide), if_neg hshort, BitVec.ofNat_toNat,
    BitVec.setWidth_eq]

theorem pack_normal (s : Sign) (hones : e ≠ -1#_) (hpos : 0 < (1#1 ++ m).toNat) :
    pack binary64 (.finite s (1#1 ++ m).toNat (e.toNat - 1075) hpos) =
      packComponents binary64 s e m := by
  have hlt : BitVec.toNat e < 2048 := e.isLt
  have hne : e.toNat ≠ 2047 := fun h => hones (BitVec.eq_of_toNat_eq h)
  have hbiased : ((e.toNat : Int) - 1075 + (1023 : Nat) +
      (binary64.mantissaBitsWithoutImplicit : Nat)).toNat = e.toNat := by
    change ((e.toNat : Int) - 1075 + (1023 : Nat) + (52 : Nat)).toNat = e.toNat
    omega
  have hroom : ¬2 ^ binary64.exponentBits ≤ e.toNat + 1 := by
    change ¬2048 ≤ _
    omega
  have hfull : (1#1 ++ m).toNat.log2 + 1 = binary64.mantissaBits :=
    congrArg Nat.succ (log2_append_one m)
  unfold pack
  dsimp only
  rw [exponentBias_binary64, hbiased, if_neg hroom, if_pos hfull, BitVec.ofNat_toNat,
    BitVec.setWidth_eq]
  exact congrArg (packComponents binary64 s e) (ofNat_append_one m)

/-- The word is not one for the undefined number. -/
def IsNumber (e : BitVec binary64.exponentBits) (m : BitVec binary64.mantissaBitsWithoutImplicit) :
    Prop :=
  e = -1#_ → m = 0#_

theorem pack_withSign_unpack (h : IsNumber (unpackExponent b) (unpackMantissa b)) (s : Sign) :
    pack binary64 (withSign s (unpack binary64 b)) =
      packComponents binary64 s (unpackExponent b) (unpackMantissa b) := by
  rcases unpack_cases b with ⟨hones, hmantissa, -⟩ | ⟨hones, hmantissa, hunpack⟩ |
    ⟨hzero, hmantissa, hunpack⟩ | ⟨hzero, -, hpos, hunpack⟩ | ⟨hones, -, hpos, hunpack⟩
  · exact absurd (h hones) hmantissa
  · rw [hunpack, hones, hmantissa]
    rfl
  · rw [hunpack, hzero, hmantissa]
    rfl
  · rw [hunpack, hzero]
    exact pack_subnormal s hpos
  · rw [hunpack]
    exact pack_normal s hones hpos

def word (x : Float) : BitVec binary64.numBits :=
  x.toBits.toBitVec

theorem word_injective {x y : Float} (h : word x = word y) : x = y := by
  rcases x with ⟨⟨⟨_⟩, _⟩⟩
  rcases y with ⟨⟨⟨_⟩, _⟩⟩
  cases h
  rfl

theorem isNumber_word (h : x.isNaN = false) :
    IsNumber (unpackExponent (word x)) (unpackMantissa (word x)) := by
  intro hones
  rcases unpack_cases (word x) with ⟨-, -, hunpack⟩ | ⟨-, hmantissa, -⟩ | ⟨hzero, -⟩ |
    ⟨hzero, -⟩ | ⟨hne, -⟩
  · change (unpack binary64 (word x)).isNaN = false at h
    rw [hunpack] at h
    cases h
  · exact hmantissa
  · exact absurd (hones.symm.trans hzero) (by decide)
  · exact absurd (hones.symm.trans hzero) (by decide)
  · exact absurd hones hne

theorem eq_of_isNaN (h : x.isNaN = true) : Float.ofBits 0x7FF8000000000000 = x := by
  have hword : word x = packedNaN binary64 := by
    change (unpack binary64 (word x)).isNaN = true at h
    rcases unpack_cases (word x) with ⟨hones, hmantissa, -⟩ | ⟨-, -, hunpack⟩ | ⟨-, -, hunpack⟩ |
      ⟨-, -, _, hunpack⟩ | ⟨-, -, _, hunpack⟩
    · exact x.toModel.valid.eq_packedNaN hones hmantissa
    all_goals
      rw [hunpack] at h
      cases h
  apply word_injective
  rw [hword]
  rfl

theorem isSigned_eq (x : Float) : isSigned x = (unpackSign (word x) == 1#1) := by
  rw [Bool.eq_iff_iff, isSigned, beq_iff_eq, beq_iff_eq, ← UInt64.toNat_inj, ← BitVec.toNat_inj]
  change x.toBits.toNat >>> 63 = 1 ↔ (BitVec.extractLsb' 63 1 x.toBits.toBitVec).toNat = 1
  rw [BitVec.extractLsb'_toNat, UInt64.toNat_toBitVec, Nat.shiftRight_eq_div_pow]
  have hlt := x.toBits.toNat_lt
  omega

theorem word_ofBits {bits : Nat} (hbits : bits = e.toNat * hiddenBit + m.toNat)
    (hnumber : IsNumber e m) :
    word (Float.ofBits bits.toUInt64) = packComponents binary64 .positive e m := by
  have hpositive : (packComponents binary64 .positive e m).toNat = bits := by
    rw [toNat_packComponents, hbits, show Sign.positive.toBitVec.toNat = 0 from rfl, Nat.zero_mul,
      Nat.zero_add]
  have hword : bits.toUInt64.toBitVec = packComponents binary64 .positive e m := by
    apply BitVec.eq_of_toNat_eq
    rw [UInt64.toNat_toBitVec, Nat.toUInt64_eq, UInt64.toNat_ofNat_of_lt', hpositive]
    rw [← hpositive]
    exact BitVec.isLt _
  change pack binary64 (unpack binary64 bits.toUInt64.toBitVec) = _
  rw [hword, ← withSign_unpack, pack_withSign_unpack]
  · rw [unpackSign_packComponents, unpackExponent_packComponents, unpackMantissa_packComponents]
    rfl
  · rwa [unpackExponent_packComponents, unpackMantissa_packComponents]

theorem ofMagnitude_toBits (h : x.isNaN = false) :
    ofMagnitude (isSigned x) (x.toBits.toNat % 0x8000000000000000) = x := by
  have hnumber := isNumber_word h
  have hpositive := word_ofBits (toNat_mod (word x)) hnumber
  have hparts := packComponents_unpack (word x)
  change word (Float.ofBits (x.toBits.toNat % 0x8000000000000000).toUInt64) = _ at hpositive
  apply word_injective
  rw [ofMagnitude]
  cases hsign : isSigned x with
  | false =>
      rw [isSigned_eq, beq_eq_false_iff_ne] at hsign
      rw [(BitVec.eq_zero_or_eq_one _).resolve_right hsign] at hparts
      exact hpositive.trans hparts
  | true =>
      rw [isSigned_eq, beq_iff_eq] at hsign
      rw [hsign] at hparts
      change pack binary64 (unpack binary64 (word (Float.ofBits _))).neg = _
      rw [hpositive, ← withSign_unpack, neg_withSign, unpackSign_packComponents,
        pack_withSign_unpack, unpackExponent_packComponents, unpackMantissa_packComponents]
      · exact hparts
      · rwa [unpackExponent_packComponents, unpackMantissa_packComponents]

theorem bits_lt_infinityBits (h : x.isNaN = false)
    (hne : x.toBits.toNat % 0x8000000000000000 ≠ infinityBits) :
    x.toBits.toNat % 0x8000000000000000 < infinityBits := by
  change (word x).toNat % _ < _
  change (word x).toNat % _ ≠ _ at hne
  rw [toNat_mod] at hne ⊢
  have he : BitVec.toNat (unpackExponent (word x)) < 2048 := BitVec.isLt _
  have hm : BitVec.toNat (unpackMantissa (word x)) < 2 ^ 52 := BitVec.isLt _
  by_cases hones : unpackExponent (word x) = -1#_
  · rw [hones, isNumber_word h hones] at hne
    exact absurd rfl hne
  · have hfield : (unpackExponent (word x)).toNat ≠ 2047 :=
      fun h => hones (BitVec.eq_of_toNat_eq h)
    unfold infinityBits hiddenBit
    omega

theorem ofNumeral_toNumeral (x : Float) : ofNumeral (toNumeral x) = x := by
  cases hnan : x.isNaN with
  | true =>
      rw [toNumeral, if_pos hnan]
      exact eq_of_isNaN hnan
  | false =>
      have hmagnitude := ofMagnitude_toBits hnan
      rw [toNumeral, if_neg (Bool.eq_false_iff.mp hnan)]
      dsimp only
      split
      · rename_i hzero
        rwa [hzero] at hmagnitude
      · rename_i hzero
        split
        · rename_i hinfinity
          rwa [hinfinity] at hmagnitude
        · rename_i hinfinity
          rwa [ofNumeral, ofDecimal_shortest (Nat.pos_of_ne_zero hzero)
            (bits_lt_infinityBits hnan hinfinity)]

theorem log_mul_pow {n : Nat} (h : n ≠ 0) (zeros : Nat) :
    Nat.log 10 (n * 10 ^ zeros) = Nat.log 10 n + zeros := by
  induction zeros with
  | zero => rw [Nat.pow_zero, Nat.mul_one, Nat.add_zero]
  | succ zeros ih =>
      rw [Nat.pow_succ, ← Nat.mul_assoc, Nat.log_mul_base (by decide) (by positivity), ih,
        Nat.add_assoc]

theorem ofDecimal_mul_pow (digits zeros : Nat) :
    ofDecimal (digits * 10 ^ zeros) 0 = ofDecimal digits zeros := by
  by_cases hdigits : digits = 0
  · rw [hdigits, Nat.zero_mul]
    simp only [ofDecimal, if_true]
  · have hdigits' : digits * 10 ^ zeros ≠ 0 := by positivity
    have hmagnitude : ((Nat.toDigits 10 (digits * 10 ^ zeros)).length : Int) + 0 =
        (Nat.toDigits 10 digits).length + zeros := by
      rw [length_toDigits hdigits, length_toDigits hdigits', log_mul_pow hdigits]
      omega
    unfold ofDecimal
    rw [if_neg hdigits, if_neg hdigits', hmagnitude]
    dsimp only
    split
    · rfl
    · split
      · rfl
      · exact congrArg (nearest · 1) (Nat.mul_one _)

theorem ofNumeral_respelled (n : Numeral) : ofNumeral n.respelled = ofNumeral n := by
  cases n with
  | undefined => rfl
  | infinity negative => rfl
  | decimal negative digits exponent =>
      cases exponent with
      | ofNat zeros => exact congrArg (ofMagnitude negative) (ofDecimal_mul_pow digits zeros)
      | negSucc places => rfl

/-- Every number is read from its text. -/
theorem read?_write (x : Float) : NumberSystem.read? (NumberSystem.write x) = some x := by
  rw [NumberSystem.read?, NumberSystem.write, Numeral.read?_text, Option.map_some]
  change some (ofNumeral (toNumeral x).respelled) = some x
  rw [ofNumeral_respelled, ofNumeral_toNumeral]

theorem reread_eq (x : Float) : NumberSystem.reread x = x := by
  rw [NumberSystem.reread, read?_write, Option.getD_some]

example : NumberSystem.write (-0.0 : Float) = "-0" := by
  decide +kernel

end Binary64

end LineBasic
