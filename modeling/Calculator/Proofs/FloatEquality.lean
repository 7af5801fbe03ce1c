import Calculator.Proofs.FloatBits

/-!
Equality of doubles is that of the standard for them, which compares signs, exponents and mantissas.
The magnitude of a double holds its exponent and its mantissa, the one in binades and the other in
what is left of them. So two doubles that are no nan are equal if all of their bits are, or if both
are zero (`agrees_iff_beq`).
-/

namespace Calculator.Binary64

open Float.Model Float.Model.UnpackedFloat

variable {x y z : Float}

/-- The bits of a double as the standard cuts them into fields. -/
abbrev word (x : Float) : BitVec Format.binary64.numBits := x.toBits.toBitVec

theorem toNat_unpackExponent (x : Float) :
    (unpackExponent (word x)).toNat = magnitude x / binade := by
  rw [unpackExponent_def]
  simp only [Format.binary64, BitVec.extractLsb'_toNat, UInt64.toNat_toBitVec,
    Nat.shiftRight_eq_div_pow, Nat.reducePow, magnitude, signBit, binade]
  omega

theorem toNat_unpackMantissa (x : Float) :
    (unpackMantissa (word x)).toNat = magnitude x % binade := by
  rw [unpackMantissa_def]
  simp [Format.binary64, magnitude, signBit, binade]

/-- A bit that is not stored stands in front of most mantissas. -/
theorem toNat_implicit_append (x : Float) :
    (1#1 ++ unpackMantissa (word x)).toNat = binade + magnitude x % binade := by
  rw [BitVec.toNat_append, ← Nat.shiftLeft_add_eq_or_of_lt (BitVec.isLt _), toNat_unpackMantissa]
  rfl

def signOf (negative : Bool) : Sign := if negative then .negative else .positive

theorem unpackSign_eq (x : Float) :
    unpackSign (word x) = if isNegative x then 1#1 else 0#1 := by
  have hlt := magnitude_lt x
  apply BitVec.eq_of_toNat_eq
  rw [unpackSign_def, BitVec.extractLsb'_toNat, UInt64.toNat_toBitVec, toNat_toBits x,
    Nat.shiftRight_eq_div_pow]
  have hweight : (2 : Nat) ^ (Format.binary64.mantissaBitsWithoutImplicit +
      Format.binary64.exponentBits) = signBit := rfl
  rw [hweight]
  cases isNegative x with
  | true =>
    rw [if_pos rfl, Nat.add_div_left _ (by decide), Nat.div_eq_of_lt hlt]
    rfl
  | false =>
    rw [if_neg Bool.false_ne_true, Nat.div_eq_of_lt hlt]
    rfl

theorem ofBitVec_unpackSign (x : Float) :
    Sign.ofBitVec (unpackSign (word x)) = signOf (isNegative x) := by
  rw [unpackSign_eq]
  cases isNegative x <;> rfl

section
variable (x : Float)

theorem unpackExponent_eq_ones_iff :
    unpackExponent (word x) = -1#_ ↔ infinity ≤ magnitude x := by
  have hlt := magnitude_lt x
  have hones : (-1#(Format.binary64.exponentBits)).toNat = 2047 := rfl
  rw [← BitVec.toNat_inj, toNat_unpackExponent, hones, binade, infinity]
  rw [signBit] at hlt
  omega

theorem unpackExponent_eq_zero_iff :
    unpackExponent (word x) = 0#_ ↔ magnitude x < binade := by
  have hzero : (0#(Format.binary64.exponentBits)).toNat = 0 := rfl
  rw [← BitVec.toNat_inj, toNat_unpackExponent, hzero, binade]
  omega

theorem unpackMantissa_eq_zero_iff :
    unpackMantissa (word x) = 0#_ ↔ magnitude x % binade = 0 := by
  have hzero : (0#(Format.binary64.mantissaBitsWithoutImplicit)).toNat = 0 := rfl
  rw [← BitVec.toNat_inj, toNat_unpackMantissa, hzero]

end

theorem eq_infinity_of_mod (hgreat : infinity ≤ magnitude x) (hmod : magnitude x % binade = 0) :
    magnitude x = infinity := by
  have hlt := magnitude_lt x
  rw [signBit] at hlt
  rw [infinity] at *
  rw [binade] at hmod
  omega

/-- What stands for a double that is put together from a sign and a magnitude. -/
inductive StandsFor (negative : Bool) (m : Nat) : UnpackedFloat → Prop
  | nan (h : infinity < m) : StandsFor negative m .notANumber
  | infinite (h : m = infinity) : StandsFor negative m (.infinity (signOf negative))
  | zero (h : m = 0) : StandsFor negative m (.zero (signOf negative))
  | finite {mantissa : Nat} {exponent : Int} {hpos : 0 < mantissa} (hm : 0 < m)
      (hless : m < infinity) (h : (m : Int) = mantissa + (exponent + 1074) * binade) :
      StandsFor negative m (.finite (signOf negative) mantissa exponent hpos)

theorem standsFor_unpack (x : Float) :
    StandsFor (isNegative x) (magnitude x) x.toModel.unpack := by
  have hbias : (Format.binary64.exponentBias : Int) +
      Format.binary64.mantissaBitsWithoutImplicit = 1075 := rfl
  change StandsFor _ _ (UnpackedFloat.unpack Format.binary64 (word x))
  rw [UnpackedFloat.unpack, ofBitVec_unpackSign]
  simp only [hbias]
  split
  case isTrue hones =>
    have hgreat := (unpackExponent_eq_ones_iff x).mp hones
    split
    case isTrue hzero =>
      have hmod := (unpackMantissa_eq_zero_iff x).mp hzero
      exact .infinite (eq_infinity_of_mod hgreat hmod)
    case isFalse hzero =>
      refine .nan (Nat.lt_of_le_of_ne hgreat ?_)
      rintro heq
      exact hzero ((unpackMantissa_eq_zero_iff x).mpr (heq ▸ rfl))
  case isFalse hones =>
    have hless : magnitude x < infinity :=
      Nat.not_le.mp (mt (unpackExponent_eq_ones_iff x).mpr hones)
    split
    case isTrue hlow =>
      have hlow := (unpackExponent_eq_zero_iff x).mp hlow
      have hmod := Nat.mod_eq_of_lt hlow
      split
      case isTrue hzero => exact .zero (hmod ▸ (unpackMantissa_eq_zero_iff x).mp hzero)
      case isFalse hzero =>
        rw [unpackMantissa_eq_zero_iff, hmod] at hzero
        refine .finite (Nat.pos_of_ne_zero hzero) hless ?_
        rw [toNat_unpackMantissa, toNat_unpackExponent, hmod, Nat.div_eq_of_lt hlow]
        omega
    case isFalse hlow =>
      have hlow := Nat.not_lt.mp (mt (unpackExponent_eq_zero_iff x).mpr hlow)
      refine .finite (Nat.lt_of_lt_of_le (by decide) hlow) hless ?_
      rw [toNat_implicit_append, toNat_unpackExponent, binade]
      omega

/-- Two zeros apart, equal doubles are the same one. -/
theorem agrees_iff : agrees x y ↔
    isNan x = false ∧ isNan y = false ∧ (x = y ∨ isZero x ∧ isZero y) := by
  have hbits : x.toBits = y.toBits ↔ x = y :=
    ⟨fun h => by rw [← Float.ofBits_toBits x, h, Float.ofBits_toBits], congrArg Float.toBits⟩
  simp only [agrees, Bool.and_eq_true, Bool.or_eq_true, Bool.not_eq_true', beq_iff_eq, hbits,
    and_assoc]

theorem agrees_trans (hxy : agrees x y) (hyz : agrees y z) : agrees x z := by
  rw [agrees_iff] at *
  obtain ⟨hx, -, hxy⟩ := hxy
  obtain ⟨-, hz, hyz⟩ := hyz
  refine ⟨hx, hz, ?_⟩
  rcases hxy with rfl | ⟨hzero, hzero'⟩
  · exact hyz
  · rcases hyz with rfl | ⟨-, hlast⟩
    · exact .inr ⟨hzero, hzero'⟩
    · exact .inr ⟨hzero, hlast⟩

theorem compare_signOf {s t : Bool} : compare (signOf s) (signOf t) = .eq ↔ s = t := by
  cases s <;> cases t <;> simp only [signOf, reduceIte, Bool.false_eq_true, reduceCtorEq] <;> decide

/-- A comparison finds finite values equal if their signs, exponents and mantissas are. -/
theorem compare_finite {s t : Bool} {m n : Nat} {e f : Int} {hm : 0 < m} {hn : 0 < n} :
    (finite (signOf s) m e hm).compare (.finite (signOf t) n f hn) = some .eq ↔
      s = t ∧ e = f ∧ m = n := by
  cases s <;> cases t <;>
    simp only [signOf, reduceIte, Bool.false_eq_true, UnpackedFloat.compare, Option.some.injEq,
      Ordering.swap_eq_eq, Ordering.then_eq_eq, Std.LawfulEqCmp.compare_eq_iff_eq, reduceCtorEq,
      true_and, false_and]

section
variable {s t : Bool} {m n : Nat} {a b : UnpackedFloat}

theorem StandsFor.eq_zero (ha : StandsFor s m a) (hm : m = 0) : a = .zero (signOf s) := by
  cases ha with
  | nan h => exact absurd (hm ▸ h) (Nat.not_lt_zero _)
  | infinite h => exact absurd (h.symm.trans hm) (by decide)
  | zero => rfl
  | finite h => exact absurd hm h.ne'

theorem compare_self (ha : StandsFor s m a) (hm : m ≤ infinity) : a.compare a = some .eq := by
  cases ha with
  | nan h => exact absurd hm (Nat.not_le.mpr h)
  | infinite => rw [UnpackedFloat.compare, compare_signOf.mpr rfl]
  | zero => rfl
  | finite => exact compare_finite.mpr ⟨rfl, rfl, rfl⟩

/-- Values that are found equal are of one kind. -/
theorem StandsFor.of_compare (ha : StandsFor s m a) (hb : StandsFor t n b)
    (h : a.compare b = some .eq) :
    m ≤ infinity ∧ n ≤ infinity ∧ (s = t ∧ m = n ∨ m = 0 ∧ n = 0) := by
  cases ha with
  | nan => cases h
  | infinite hm =>
    cases hb with
    | infinite hn =>
      have hsign := compare_signOf.mp (Option.some.inj h)
      exact ⟨hm.le, hn.le, .inl ⟨hsign, hm.trans hn.symm⟩⟩
    | _ => cases s <;> cases h
  | zero hm =>
    cases hb with
    | zero hn => exact ⟨hm ▸ Nat.zero_le _, hn ▸ Nat.zero_le _, .inr ⟨hm, hn⟩⟩
    | nan => cases h
    | _ => cases t <;> cases h
  | finite _ hm hmagnitude =>
    cases hb with
    | finite _ hn hmagnitude' =>
      obtain ⟨rfl, rfl, rfl⟩ := compare_finite.mp h
      exact ⟨hm.le, hn.le, .inl ⟨rfl, by omega⟩⟩
    | _ => cases s <;> cases t <;> cases h

end

theorem agrees_iff_beq : agrees x y ↔ x == y := by
  have hbeq : (x == y) = (x.toModel.unpack.compare y.toModel.unpack == some .eq) := rfl
  rw [hbeq, beq_iff_eq, agrees_iff]
  simp only [isNan, isZero, decide_eq_true_eq, decide_eq_false_iff_not, Nat.not_lt]
  constructor
  · rintro ⟨hx, -, rfl | ⟨hzero, hzero'⟩⟩
    · exact compare_self (standsFor_unpack x) hx
    · rw [(standsFor_unpack x).eq_zero hzero, (standsFor_unpack y).eq_zero hzero']
      rfl
  · intro h
    obtain ⟨hx, hy, ⟨hsign, hmagnitude⟩ | hzero⟩ :=
      (standsFor_unpack x).of_compare (standsFor_unpack y) h
    · exact ⟨hx, hy, .inl (eq_of_magnitude hsign hmagnitude)⟩
    · exact ⟨hx, hy, .inr hzero⟩

end Calculator.Binary64
