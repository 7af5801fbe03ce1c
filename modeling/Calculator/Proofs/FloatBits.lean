import Calculator.Number
import Mathlib

/-!
Doubles as a sign and a magnitude. The two determine a double, and every magnitude up to that of the
infinities is the one of a double of either sign; beyond it all doubles are the same nan.
-/

namespace Calculator.Binary64

theorem toNat_toBits (x : Float) :
    x.toBits.toNat = if isNegative x then signBit + magnitude x else magnitude x := by
  have hlt := x.toBits.toNat_lt
  unfold isNegative magnitude signBit
  by_cases hsign : 0x8000000000000000 ≤ x.toBits.toNat
  · rw [if_pos (decide_eq_true hsign)]
    omega
  · rw [if_neg (by rwa [decide_eq_true_eq])]
    omega

/-- A double is put together from its sign and its magnitude. -/
theorem ofMagnitude_magnitude (x : Float) : ofMagnitude (isNegative x) (magnitude x) = x := by
  rw [ofMagnitude, ← toNat_toBits, UInt64.ofNat_toNat, Float.ofBits_toBits]

theorem eq_of_magnitude {x y : Float} (hsign : isNegative x = isNegative y)
    (hmagnitude : magnitude x = magnitude y) : x = y := by
  rw [← ofMagnitude_magnitude x, hsign, hmagnitude, ofMagnitude_magnitude]

open Float.Model.UnpackedFloat in
/-- Bits whose magnitude is no nan are the bits of a double. -/
theorem toBits_ofBits {bits : UInt64} (h : bits.toNat % signBit ≤ infinity) :
    (Float.ofBits bits).toBits = bits := by
  have hvalid : Float.Model.Format.binary64.Valid bits.toBitVec := by
    constructor
    intro hexponent hmantissa
    have hhigh : bits.toNat / 2 ^ 52 % 2 ^ 11 = 2047 := by
      have hbits := congrArg BitVec.toNat hexponent
      rw [unpackExponent_def] at hbits
      simpa [Float.Model.Format.binary64, Nat.shiftRight_eq_div_pow] using hbits
    have hlow : bits.toNat % 2 ^ 52 ≠ 0 := by
      intro hzero
      apply hmantissa
      rw [unpackMantissa_def]
      apply BitVec.eq_of_toNat_eq
      simpa [Float.Model.Format.binary64] using hzero
    rw [signBit, infinity] at h
    omega
  exact congrArg Float.toBits (Float.ofBits_toBits (Float.ofModel ⟨bits, hvalid⟩))

theorem lt_signBit {m : Nat} (hm : m ≤ infinity) : m < signBit :=
  Nat.lt_of_le_of_lt hm (by decide)

section
variable {m : Nat} (hm : m ≤ infinity) (negative : Bool)
include hm

theorem toNat_toBits_ofMagnitude :
    (ofMagnitude negative m).toBits.toNat = if negative then signBit + m else m := by
  have hlt := lt_signBit hm
  have hbits : (UInt64.ofNat (if negative then signBit + m else m)).toNat =
      if negative then signBit + m else m := by
    apply UInt64.toNat_ofNat_of_lt'
    rw [signBit] at hlt ⊢
    rw [UInt64.size]
    split <;> omega
  have hmagnitude : (if negative then signBit + m else m) % signBit = m := by
    split
    · rw [Nat.add_mod_left, Nat.mod_eq_of_lt hlt]
    · exact Nat.mod_eq_of_lt hlt
  rw [ofMagnitude, toBits_ofBits (by rwa [hbits, hmagnitude]), hbits]

theorem magnitude_ofMagnitude : magnitude (ofMagnitude negative m) = m := by
  rw [magnitude, toNat_toBits_ofMagnitude hm]
  split
  · rw [Nat.add_mod_left, Nat.mod_eq_of_lt (lt_signBit hm)]
  · exact Nat.mod_eq_of_lt (lt_signBit hm)

theorem isNegative_ofMagnitude : isNegative (ofMagnitude negative m) = negative := by
  rw [isNegative, toNat_toBits_ofMagnitude hm]
  cases negative with
  | true => exact decide_eq_true (Nat.le_add_right signBit m)
  | false => exact decide_eq_false (Nat.not_le.mpr (lt_signBit hm))

end

end Calculator.Binary64
