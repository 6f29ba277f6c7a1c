import HostedLisp.Decimal.Rounding
import Mathlib

/-!
# Doubles and their bits

A double is its sign and its code: `ofCode_codeOf` puts together what `isNegative` and `codeOf`
took apart. Not-a-number is included, since all of its bit patterns are one double. Up to infinity
every code is the code of a double (`codeOf_ofCode`); the one code above it is not-a-number's
(`isNaN_eq`). As numbers two doubles are equal also where they are the two zeros
(`beq_iff_unsigned`).
-/

namespace HostedLisp.Double

open Float.Model

/-! ## 1. Packing what was unpacked -/

theorem toBitVec_ofBitVec :
    ∀ v : BitVec 1, (UnpackedFloat.Sign.ofBitVec v).toBitVec = v := by
  decide

/-- The three fields of a bit pattern make up the pattern. -/
theorem packComponents_fields (b : BitVec 64) :
    UnpackedFloat.packComponents Format.binary64
      (UnpackedFloat.Sign.ofBitVec (@UnpackedFloat.unpackSign Format.binary64 b))
      (@UnpackedFloat.unpackExponent Format.binary64 b)
      (@UnpackedFloat.unpackMantissa Format.binary64 b) = b := by
  simp only [UnpackedFloat.packComponents, toBitVec_ofBitVec]
  ext i hi
  simp only [UnpackedFloat.unpackSign, UnpackedFloat.unpackExponent, UnpackedFloat.unpackMantissa,
    BitVec.getElem_append, BitVec.getElem_cast, BitVec.extractLsb, BitVec.getElem_extractLsb']
  split
  · simp [BitVec.getLsbD_eq_getElem, hi]
  · split
    · have e : 52 + (i - 52) = i := by omega
      simp only [e]
      rfl
    · have e : 52 + 11 + (i - 52 - 11) = i := by
        simp only [Nat.reduceAdd] at hi
        omega
      simp only [e]
      rfl

/-- A valid bit pattern survives being unpacked and packed. -/
theorem pack_unpack (b : BitVec 64) (h : Format.binary64.Valid b) :
    UnpackedFloat.pack Format.binary64 (UnpackedFloat.unpack Format.binary64 b) = b := by
  have hf := packComponents_fields b
  have hmlt : (@UnpackedFloat.unpackMantissa Format.binary64 b).toNat < 2 ^ 52 := BitVec.isLt _
  have helt : (@UnpackedFloat.unpackExponent Format.binary64 b).toNat < 2 ^ 11 := BitVec.isLt _
  unfold UnpackedFloat.unpack
  dsimp only
  split
  · rename_i he
    split
    · rename_i hm
      rw [he, hm] at hf
      exact hf
    · rename_i hm
      exact (h.eq_packedNaN he hm).symm
  · rename_i hn
    split
    · rename_i he
      split
      · rename_i hm
        rw [he, hm] at hf
        exact hf
      · -- Below the normal numbers the significand has fewer bits than its field.
        rename_i hm
        have hpos : (@UnpackedFloat.unpackMantissa Format.binary64 b).toNat ≠ 0 := fun e =>
          hm (BitVec.eq_of_toNat_eq (by simpa using e))
        have hl := (Nat.log2_lt hpos).2 hmlt
        rw [he] at hf
        simp only [UnpackedFloat.pack, he]
        rw [if_neg (by decide), if_neg (by simp only [Format.mantissaBits]; omega)]
        simpa using hf
    · -- A normal number gets back the leading bit that its field leaves out.
      have hne : (@UnpackedFloat.unpackExponent Format.binary64 b).toNat ≠ 2047 := fun e =>
        hn (BitVec.eq_of_toNat_eq (by simpa using e))
      have hm : (1#1 ++ @UnpackedFloat.unpackMantissa Format.binary64 b).toNat
          = 2 ^ 52 + (@UnpackedFloat.unpackMantissa Format.binary64 b).toNat := by
        rw [BitVec.toNat_append]
        exact (Nat.two_pow_add_eq_or_of_lt hmlt 1).symm
      have hlog : (2 ^ 52 + (@UnpackedFloat.unpackMantissa Format.binary64 b).toNat).log2 = 52 := by
        rw [Nat.log2_eq_iff (by omega)]
        omega
      have hb : (((@UnpackedFloat.unpackExponent Format.binary64 b).toNat : Int)
            - (Format.binary64.exponentBias + (52 : Nat)) + Format.binary64.exponentBias
            + (52 : Nat)).toNat
          = (@UnpackedFloat.unpackExponent Format.binary64 b).toNat := by
        omega
      have hw : BitVec.ofNat 52 (2 ^ 52 + (@UnpackedFloat.unpackMantissa Format.binary64 b).toNat)
          = @UnpackedFloat.unpackMantissa Format.binary64 b :=
        BitVec.eq_of_toNat_eq (by simpa using hmlt)
      simp only [UnpackedFloat.pack, hm, hlog, hb]
      rw [if_neg (by omega), if_pos (by decide), hw, BitVec.ofNat_toNat, BitVec.setWidth_eq]
      exact hf

/-! ## 2. Doubles -/

/-- A double is determined by its bits. -/
theorem ofBits_toBits (x : Float) : Float.ofBits x.toBits = x := by
  obtain ⟨⟨bits, valid⟩⟩ := x
  simp only [Float.ofBits, Float.toBits, Float.Model.ofBits, Float.Model.pack,
    pack_unpack bits.toBitVec valid]

/-- **A double is its sign and its code.** -/
theorem ofCode_codeOf (x : Float) : ofCode (isNegative x) (codeOf x) = x := by
  have hlt : x.toBits.toNat < 2 ^ 64 := x.toBits.toNat_lt
  have e : (if isNegative x = true then 2 ^ 63 else 0) + codeOf x = x.toBits.toNat := by
    simp only [isNegative, codeOf, decide_eq_true_eq]
    split <;> omega
  rw [ofCode, e, UInt64.ofNat_toNat, ofBits_toBits]

/-! ## 3. Infinity and not-a-number -/

/-- The code of a bit pattern is its exponent and its mantissa, one behind the other. -/
theorem mod_eq_fields (b : BitVec 64) :
    b.toNat % 2 ^ 63 = (@UnpackedFloat.unpackExponent Format.binary64 b).toNat * 2 ^ 52
      + (@UnpackedFloat.unpackMantissa Format.binary64 b).toNat := by
  simp only [UnpackedFloat.unpackExponent, UnpackedFloat.unpackMantissa, BitVec.toNat_cast,
    BitVec.extractLsb_toNat, Nat.shiftRight_eq_div_pow]
  norm_num
  omega

/-- Infinity is the pattern with the code of infinity, and not-a-number the one above it. -/
theorem isNaN_unpack_and_isInf_unpack (b : BitVec 64) :
    (UnpackedFloat.unpack Format.binary64 b).isNaN = decide (infinityCode < b.toNat % 2 ^ 63) ∧
      (UnpackedFloat.unpack Format.binary64 b).isInf
        = decide (b.toNat % 2 ^ 63 = infinityCode) := by
  have hfields := mod_eq_fields b
  have hmlt : (@UnpackedFloat.unpackMantissa Format.binary64 b).toNat < 2 ^ 52 := BitVec.isLt _
  have helt : (@UnpackedFloat.unpackExponent Format.binary64 b).toNat < 2 ^ 11 := BitVec.isLt _
  have hinf : infinityCode = 2047 * 2 ^ 52 := rfl
  unfold UnpackedFloat.unpack
  dsimp only
  split
  · rename_i he
    have he' : (@UnpackedFloat.unpackExponent Format.binary64 b).toNat = 2047 := by rw [he]; rfl
    split
    · rename_i hm
      have hm' : (@UnpackedFloat.unpackMantissa Format.binary64 b).toNat = 0 := by rw [hm]; rfl
      simp only [UnpackedFloat.isNaN, UnpackedFloat.isInf]
      exact ⟨(decide_eq_false (by omega)).symm, (decide_eq_true (by omega)).symm⟩
    · rename_i hm
      have hm' : (@UnpackedFloat.unpackMantissa Format.binary64 b).toNat ≠ 0 := fun e =>
        hm (BitVec.eq_of_toNat_eq (by simpa using e))
      exact ⟨(decide_eq_true (by omega)).symm, (decide_eq_false (by omega)).symm⟩
  · rename_i he
    have he' : (@UnpackedFloat.unpackExponent Format.binary64 b).toNat ≠ 2047 := fun e =>
      he (BitVec.eq_of_toNat_eq (by simpa using e))
    have hnan : false = decide (infinityCode < b.toNat % 2 ^ 63) :=
      (decide_eq_false (by omega)).symm
    have hnot : false = decide (b.toNat % 2 ^ 63 = infinityCode) :=
      (decide_eq_false (by omega)).symm
    split
    · split
      · exact ⟨hnan, hnot⟩
      · exact ⟨hnan, hnot⟩
    · exact ⟨hnan, hnot⟩

theorem isNaN_eq (x : Float) : x.isNaN = decide (infinityCode < codeOf x) :=
  (isNaN_unpack_and_isInf_unpack x.toBits.toBitVec).1

theorem isInf_eq (x : Float) : x.isInf = decide (codeOf x = infinityCode) :=
  (isNaN_unpack_and_isInf_unpack x.toBits.toBitVec).2

/-- A double that is neither infinite nor not-a-number stands for a number. -/
theorem isFinite_eq (x : Float) : isFinite x = (!x.isNaN && !x.isInf) := by
  rw [isNaN_eq, isInf_eq, isFinite]
  by_cases h : codeOf x < infinityCode
  · have h1 : ¬infinityCode < codeOf x := by omega
    have h2 : codeOf x ≠ infinityCode := by omega
    simp [h, h1, h2]
  · by_cases he : codeOf x = infinityCode
    · simp [he]
    · have h1 : infinityCode < codeOf x := by omega
      simp [h, h1]

/-- A bit pattern up to the code of infinity is a pattern that doubles have. -/
theorem valid_of_le {b : BitVec 64} (h : b.toNat % 2 ^ 63 ≤ infinityCode) :
    Format.binary64.Valid b := by
  refine ⟨fun he hm => ?_⟩
  have hfields := mod_eq_fields b
  have he' : (@UnpackedFloat.unpackExponent Format.binary64 b).toNat = 2047 := by rw [he]; rfl
  have hm' : (@UnpackedFloat.unpackMantissa Format.binary64 b).toNat ≠ 0 := fun e =>
    hm (BitVec.eq_of_toNat_eq (by simpa using e))
  have hinf : infinityCode = 2047 * 2 ^ 52 := rfl
  omega

/-- **A double up to infinity has the code that it was made with.** -/
theorem codeOf_ofCode (negative : Bool) {code : Nat} (h : code ≤ infinityCode) :
    codeOf (ofCode negative code) = code := by
  have hinf : infinityCode = 2047 * 2 ^ 52 := rfl
  have hbits : (UInt64.ofNat ((if negative then 2 ^ 63 else 0) + code)).toBitVec.toNat
      = (if negative then 2 ^ 63 else 0) + code := by
    rw [UInt64.toNat_toBitVec, UInt64.toNat_ofNat']
    split <;> omega
  have hcode : (UInt64.ofNat ((if negative then 2 ^ 63 else 0) + code)).toBitVec.toNat % 2 ^ 63
      = code := by
    rw [hbits]
    split <;> omega
  have hpack := pack_unpack _ (valid_of_le (hcode.trans_le h))
  have htoBits : (ofCode negative code).toBits.toBitVec
      = (UInt64.ofNat ((if negative then 2 ^ 63 else 0) + code)).toBitVec := hpack
  rw [codeOf, ← UInt64.toNat_toBitVec, htoBits, hcode]

/-! ## 4. Equal numbers -/

/-- The double, but for the sign of a zero. -/
def unsigned (x : Float) : Float := if codeOf x = 0 then 0.0 else x

/-- Unpacked doubles compare as equal if they are the same, or if both are zero. -/
theorem beq_unpacked_iff (a b : UnpackedFloat) : a.beq b = true ↔
    (a = b ∧ a.isNaN = false) ∨ (∃ s, a = .zero s) ∧ ∃ s, b = .zero s := by
  cases a with
  | infinity s =>
    cases b with
    | infinity t => cases s <;> cases t <;> simp [UnpackedFloat.isNaN] <;> decide
    | finite t n j h => cases s <;> simp [UnpackedFloat.beq, UnpackedFloat.compare]
    | _ => cases s <;> simp [UnpackedFloat.beq, UnpackedFloat.compare]
  | notANumber => cases b <;> simp [UnpackedFloat.beq, UnpackedFloat.compare, UnpackedFloat.isNaN]
  | zero s =>
    cases b with
    | infinity t => cases t <;> simp [UnpackedFloat.beq, UnpackedFloat.compare]
    | finite t n j h => cases t <;> simp [UnpackedFloat.beq, UnpackedFloat.compare]
    | _ => simp [UnpackedFloat.beq, UnpackedFloat.compare]
  | finite s m i h =>
    cases b with
    | infinity t => cases s <;> cases t <;> simp [UnpackedFloat.beq, UnpackedFloat.compare]
    | finite t n j h =>
      cases s <;> cases t <;>
        simp [UnpackedFloat.beq, UnpackedFloat.compare, UnpackedFloat.isNaN, and_comm]
    | _ => cases s <;> simp [UnpackedFloat.beq, UnpackedFloat.compare]

/-- The pattern of a zero is the one with the code zero. -/
theorem unpack_eq_zero_iff (b : BitVec 64) :
    (∃ s, UnpackedFloat.unpack Format.binary64 b = .zero s) ↔ b.toNat % 2 ^ 63 = 0 := by
  have hmlt : (@UnpackedFloat.unpackMantissa Format.binary64 b).toNat < 2 ^ 52 := BitVec.isLt _
  rw [mod_eq_fields b]
  unfold UnpackedFloat.unpack
  dsimp only
  split
  · rename_i he
    have he' : (@UnpackedFloat.unpackExponent Format.binary64 b).toNat = 2047 := by rw [he]; rfl
    split
    · simp [he']
    · simp [he']
  · split
    · rename_i he
      have he' : (@UnpackedFloat.unpackExponent Format.binary64 b).toNat = 0 := by rw [he]; rfl
      split
      · rename_i hm
        have hm' : (@UnpackedFloat.unpackMantissa Format.binary64 b).toNat = 0 := by rw [hm]; rfl
        simp [he', hm']
      · rename_i hm
        have hm' : (@UnpackedFloat.unpackMantissa Format.binary64 b).toNat ≠ 0 := fun e =>
          hm (BitVec.eq_of_toNat_eq (by simpa using e))
        simp [hm']
    · rename_i he
      have he' : (@UnpackedFloat.unpackExponent Format.binary64 b).toNat ≠ 0 := fun e =>
        he (BitVec.eq_of_toNat_eq (by simpa using e))
      simp [he']

/-- A double is determined by what its bits unpack to. -/
theorem eq_of_unpack_eq {x y : Float}
    (h : UnpackedFloat.unpack Format.binary64 x.toBits.toBitVec
      = UnpackedFloat.unpack Format.binary64 y.toBits.toBitVec) : x = y := by
  obtain ⟨⟨bits, valid⟩⟩ := x
  obtain ⟨⟨bits', valid'⟩⟩ := y
  have hbits : bits.toBitVec = bits'.toBitVec := by
    rw [← pack_unpack bits.toBitVec valid, ← pack_unpack bits'.toBitVec valid']
    exact congrArg _ h
  cases UInt64.toBitVec_inj.1 hbits
  rfl

/-- Doubles are equal as numbers if they are one double, which is not not-a-number, or both
    zero. -/
theorem beq_iff (x y : Float) : (x == y) = true ↔
    (x = y ∧ x.isNaN = false) ∨ (codeOf x = 0 ∧ codeOf y = 0) := by
  have hx := unpack_eq_zero_iff x.toBits.toBitVec
  have hy := unpack_eq_zero_iff y.toBits.toBitVec
  have hbeq : (x == y) = (UnpackedFloat.unpack Format.binary64 x.toBits.toBitVec).beq
      (UnpackedFloat.unpack Format.binary64 y.toBits.toBitVec) := rfl
  rw [hbeq, beq_unpacked_iff]
  refine or_congr (and_congr ⟨eq_of_unpack_eq, ?_⟩ Iff.rfl) (and_congr hx hy)
  rintro rfl
  rfl

/-- **Equal numbers are the doubles that differ at most in the sign of a zero**, not-a-number
    apart. -/
theorem beq_iff_unsigned (x y : Float) :
    (x == y) = true ↔ x.isNaN = false ∧ unsigned x = unsigned y := by
  have hzero : codeOf 0.0 = 0 := by decide
  rw [beq_iff, unsigned, unsigned, isNaN_eq, decide_eq_false_iff_not]
  by_cases hx : codeOf x = 0
  · by_cases hy : codeOf y = 0
    · simp [hx, hy]
    · have hne : x ≠ y := fun e => hy (e ▸ hx)
      have hne' : 0.0 ≠ y := fun e => hy (e ▸ hzero)
      simp [hx, hy, hne, hne']
  · by_cases hy : codeOf y = 0
    · have hne : x ≠ y := fun e => hx (e ▸ hy)
      have hne' : x ≠ 0.0 := fun e => hx (e ▸ hzero)
      simp [hx, hy, hne, hne']
    · simp [hx, hy, and_comm]

end HostedLisp.Double
