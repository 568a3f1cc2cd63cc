import Mathlib

/-!
# Multiplication by minus one

A product with minus one is exact: it is the other factor with the other sign, for finite numbers of
every size, for zeros, for infinities and for the undefined number. So the factor minus one may move
from one side of a product to the other.

* `roundWithAccuracy_of_canonical`: rounding leaves a mantissa as it is that has no bit too many.
* `targetExponent_of_unpack`: the mantissa of every binary64 number is such a mantissa.
* `mul_neg_one_unpacked`: so a product with minus one changes the sign only.
* `unpack_pack_neg`: a number with the other sign is a number of the format.
* `mul_neg_one_mul`: moving the factor.
-/

namespace Calculator

open Float.Model (UnpackedFloat Format totalExponent)
open Float.Model.UnpackedFloat (Sign ExtendedMantissa shiftToTargetExponent shiftToExponent
  roundWithAccuracy)

/-! ## Rounding what is exact -/

section Rounding

variable {spec : Format} {m : Nat} {e : Int}

/-- Shifting out zeros leaves nothing to round. -/
theorem repeat_shiftRightOne (m n : Nat) :
    n.repeat ExtendedMantissa.shiftRightOne ⟨m * 2 ^ n, false, false⟩ = ⟨m, false, false⟩ := by
  induction n generalizing m with
  | zero => simp [Nat.repeat]
  | succ n ih =>
    rw [Nat.pow_succ', ← Nat.mul_assoc, Nat.repeat, ih]
    simp [ExtendedMantissa.shiftRightOne]

theorem log2_mul_two_pow (hm : 0 < m) (k : Nat) : (m * 2 ^ k).log2 = m.log2 + k := by
  induction k with
  | zero => simp
  | succ k ih =>
    rw [Nat.pow_succ', Nat.mul_left_comm, Nat.log2_two_mul (by positivity), ih, Nat.add_assoc]

theorem shiftToTargetExponent_of_canonical (hm : 0 < m) (k : Nat)
    (hc : spec.targetExponent (totalExponent m e) = e) :
    shiftToTargetExponent spec (m * 2 ^ k) (e - k) .exact = (⟨m, false, false⟩, e) := by
  have htotal : totalExponent (m * 2 ^ k) (e - k) = totalExponent m e := by
    simp only [totalExponent, log2_mul_two_pow hm]
    omega
  have hshift : (e - (e - k)).toNat = k := by omega
  rw [shiftToTargetExponent, htotal, hc, shiftToExponent]
  refine Prod.ext ?_ ?_
  · simp only [hshift]
    exact repeat_shiftRightOne m k
  · simp only [hshift]
    omega

/-- Rounding undoes a multiplication of the mantissa by a power of two, if the exponent is the one
that the format wants for the mantissa. -/
theorem roundWithAccuracy_of_canonical (s : Sign) (hm : 0 < m) (k : Nat)
    (hc : spec.targetExponent (totalExponent m e) = e) :
    roundWithAccuracy spec s (m * 2 ^ k) (e - k) .exact = .finite s m e hm := by
  have hfirst := shiftToTargetExponent_of_canonical hm k hc
  have hround : (ExtendedMantissa.mk m false false).roundedMantissa = m := rfl
  have hsecond := shiftToTargetExponent_of_canonical hm 0 hc
  rw [Nat.pow_zero, Nat.mul_one, Int.natCast_zero, Int.sub_zero] at hsecond
  simp only [roundWithAccuracy, hfirst, hround, hsecond]
  exact dif_neg hm.ne'

end Rounding

/-! ## The numbers of the format -/

section Unpacked

variable {spec : Format} {b : BitVec Format.binary64.numBits}

theorem targetExponent_binary64 (m : Nat) (e : Int) :
    Format.binary64.targetExponent (totalExponent m e) = max (m.log2 + 1 + e - 53) (-1074) := rfl

/-- The exponent of a finite number is the one that the format wants for its mantissa. -/
theorem targetExponent_of_unpack {s : Sign} {m : Nat} {e : Int} {hm : 0 < m}
    (h : UnpackedFloat.unpack .binary64 b = .finite s m e hm) :
    Format.binary64.targetExponent (totalExponent m e) = e := by
  have hbias : (Format.binary64.exponentBias : Int) = 1023 := rfl
  rw [targetExponent_binary64]
  revert h
  fun_cases UnpackedFloat.unpack .binary64 b with
  | case1 => intro h; cases h
  | case2 => intro h; cases h
  | case3 => intro h; cases h
  | case4 mantissa exponent e' _ _ _ hexponent =>
    -- A subnormal number: its mantissa has fewer than 53 bits.
    intro h
    injection h with _ hm' he
    have hlog : m.log2 < 52 := (Nat.log2_lt hm.ne').2 (hm' ▸ mantissa.isLt)
    have hzero : exponent.toNat = 0 := by rw [hexponent]; rfl
    simp only [e', hzero, hbias] at he
    omega
  | case5 mantissa exponent e' _ _ _ hexponent =>
    -- A normal number: its mantissa has 53 bits.
    intro h
    injection h with _ hm' he
    have hvalue : m = 2 ^ 52 + mantissa.toNat := by
      rw [← hm', BitVec.toNat_append, ← Nat.shiftLeft_add_eq_or_of_lt mantissa.isLt]
      rfl
    have hlt : mantissa.toNat < 2 ^ 52 := mantissa.isLt
    have hlog : m.log2 = 52 := (Nat.log2_eq_iff hm.ne').2 ⟨by omega, by omega⟩
    have hpos : 0 < exponent.toNat :=
      Nat.pos_of_ne_zero fun hzero => hexponent (BitVec.eq_of_toNat_eq hzero)
    simp only [e', hbias] at he
    omega

/-- What has been unpacked can be packed and unpacked again. -/
theorem unpack_pack_unpack (b : BitVec Format.binary64.numBits) :
    UnpackedFloat.unpack .binary64 ((UnpackedFloat.unpack .binary64 b).pack .binary64) =
      UnpackedFloat.unpack .binary64 b := by
  rw [UnpackedFloat.pack_unpack b (by decide)]
  split
  · rename_i hnan
    simp only [UnpackedFloat.isNaNBits, decide_eq_true_eq] at hnan
    rw [UnpackedFloat.unpack_packedNaN, UnpackedFloat.unpack]
    simp only [if_pos hnan.1, if_neg hnan.2]
  · rfl

/-- A number of the format with the other sign is one too. -/
theorem exists_unpack_eq_neg (b : BitVec Format.binary64.numBits) :
    ∃ b', (UnpackedFloat.unpack .binary64 b).neg = UnpackedFloat.unpack .binary64 b' := by
  refine ⟨UnpackedFloat.packComponents .binary64 (-Sign.ofBitVec (UnpackedFloat.unpackSign b))
    (UnpackedFloat.unpackExponent b) (UnpackedFloat.unpackMantissa b), ?_⟩
  simp only [UnpackedFloat.unpack, UnpackedFloat.unpackSign_packComponents,
    UnpackedFloat.unpackExponent_packComponents, UnpackedFloat.unpackMantissa_packComponents,
    Sign.ofBitVec_toBitVec]
  split
  · split <;> rfl
  · split
    · split <;> rfl
    · rfl

theorem unpack_pack_neg (f : Float.Model) :
    UnpackedFloat.unpack .binary64 (f.unpack.neg.pack .binary64) = f.unpack.neg := by
  obtain ⟨b, hb⟩ := exists_unpack_eq_neg f.toBits.toBitVec
  rw [Float.Model.unpack, hb, unpack_pack_unpack]

/-! ## Products -/

theorem neg_mul_unpacked (x y : UnpackedFloat) : x.neg.mul spec y = x.mul spec y.neg := by
  have hsign : ∀ s t : Sign, -s * t = s * -t := by rintro (_ | _) (_ | _) <;> rfl
  cases x <;> cases y <;> simp only [UnpackedFloat.mul, UnpackedFloat.neg, hsign]

theorem mul_comm_unpacked (x y : UnpackedFloat) : x.mul spec y = y.mul spec x := by
  have hsign : ∀ s t : Sign, s * t = t * s := by rintro (_ | _) (_ | _) <;> rfl
  cases x <;> cases y <;> simp only [UnpackedFloat.mul, hsign, Nat.mul_comm, Int.add_comm]

theorem mul_neg_one_unpacked (f : Float.Model) :
    f.unpack.mul .binary64 (Float.toModel (-1)).unpack = f.unpack.neg := by
  have hone : (Float.toModel (-1)).unpack = .finite .negative (2 ^ 52) (-52) (by decide) := rfl
  have hsign : ∀ s : Sign, s * .negative = -s := by rintro (_ | _) <;> rfl
  rw [hone]
  cases hf : f.unpack with
  | finite s m e hm =>
    rw [UnpackedFloat.mul, UnpackedFloat.neg, hsign]
    exact roundWithAccuracy_of_canonical (-s) hm 52 (targetExponent_of_unpack hf)
  | _ => simp only [UnpackedFloat.mul, UnpackedFloat.neg, hsign]

end Unpacked

/-- The factor minus one may stand on either side. -/
theorem mul_neg_one_mul (x y : Float) : x * -1 * y = x * (-1 * y) := by
  have hmul : ∀ a b : Float,
      a * b = .ofModel (.pack (a.toModel.unpack.mul .binary64 b.toModel.unpack)) := fun _ _ => rfl
  have hx : (x * -1).toModel.unpack = x.toModel.unpack.neg := by
    rw [← unpack_pack_neg, ← mul_neg_one_unpacked]
    rfl
  have hy : (-1 * y).toModel.unpack = y.toModel.unpack.neg := by
    rw [← unpack_pack_neg, ← mul_neg_one_unpacked, mul_comm_unpacked]
    rfl
  rw [hmul, hx, neg_mul_unpacked, ← hy, ← hmul]

end Calculator
