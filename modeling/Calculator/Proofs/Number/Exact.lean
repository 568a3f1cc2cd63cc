import Calculator.Number.Literal
import Calculator.Proofs.Number.Sign

/-!
# Literals without rounding

A natural number up to `2 ^ 53` is a binary64 number, so nothing is rounded when the value of a
literal becomes a number.

* `rational?`: the number that a float denotes.
* `rational?_ofNat`, `rational?_neg`: the floats of these natural numbers, and their negatives.
* `Literal.isFinite_of_le`, `Literal.ofDigits_concat`: the literal of such a number.
-/

namespace Calculator

open Float.Model (UnpackedFloat Format totalExponent)
open Float.Model.UnpackedFloat (Sign roundWithAccuracy)

/-- The rational number that a float denotes, if it is finite. -/
def rational? (x : Float) : Option ℚ :=
  match x.toModel.unpack with
  | .zero _ => some 0
  | .finite .positive m e _ => some (m * 2 ^ e)
  | .finite .negative m e _ => some (-(m * 2 ^ e))
  | .infinity _ | .notANumber => none

theorem rational?_neg (x : Float) : rational? (-x) = (rational? x).map (- ·) := by
  have hx : (-x).toModel.unpack = x.toModel.unpack.neg := unpack_pack_neg x.toModel
  rw [rational?, hx, rational?]
  cases x.toModel.unpack with
  | finite s m e hm => cases s <;> simp [UnpackedFloat.neg]
  | _ => simp [UnpackedFloat.neg]

/-! ## Natural numbers as floats -/

section Naturals

variable {m n : Nat} {e : Int}

/-- A mantissa of 53 bits with an exponent of the format is a number of the format. -/
theorem exists_unpack_eq_finite (s : Sign) (hm : 0 < m) (hlog : m.log2 = 52) (hlow : -1074 ≤ e)
    (hhigh : e ≤ 971) : ∃ b, UnpackedFloat.unpack .binary64 b = .finite s m e hm := by
  obtain ⟨hle, hlt⟩ := (Nat.log2_eq_iff hm.ne').1 hlog
  obtain ⟨k, hk⟩ : ∃ k : Nat, e = k - 1075 := ⟨(e + 1075).toNat, by omega⟩
  have hexponent : (BitVec.ofNat 11 k).toNat = k := by
    rw [BitVec.toNat_ofNat]
    exact Nat.mod_eq_of_lt (by omega)
  have hmantissa : (1#1 ++ BitVec.ofNat 52 m).toNat = m := by
    rw [BitVec.toNat_append, ← Nat.shiftLeft_add_eq_or_of_lt (BitVec.isLt _), BitVec.toNat_ofNat]
    change 2 ^ 52 + m % 2 ^ 52 = m
    omega
  have hne (b : BitVec 11) (hb : b.toNat ≠ k) : BitVec.ofNat 11 k ≠ b :=
    fun h => hb (h ▸ hexponent)
  refine ⟨UnpackedFloat.packComponents .binary64 s (.ofNat _ k) (.ofNat _ m), ?_⟩
  rw [UnpackedFloat.unpack]
  simp only [UnpackedFloat.unpackSign_packComponents,
    UnpackedFloat.unpackExponent_packComponents, UnpackedFloat.unpackMantissa_packComponents,
    Sign.ofBitVec_toBitVec]
  rw [if_neg (hne _ (by change 2 ^ 11 - 1 ≠ k; omega)), if_neg (hne _ (by change 0 ≠ k; omega))]
  congr 1
  rw [hexponent, hk]
  change (k : Int) - (1023 + 52) = k - 1075
  omega

theorem unpack_pack_of_log2 (s : Sign) (hm : 0 < m) (hlog : m.log2 = 52) (hlow : -1074 ≤ e)
    (hhigh : e ≤ 971) : UnpackedFloat.unpack .binary64
      (UnpackedFloat.pack .binary64 (.finite s m e hm)) = .finite s m e hm := by
  obtain ⟨b, hb⟩ := exists_unpack_eq_finite s hm hlog hlow hhigh
  rw [← hb, unpack_pack_unpack]

/-- A natural number below `2 ^ 53` has 53 bits after a shift. -/
theorem log2_shift (hn : 0 < n) (hlt : n < 2 ^ 53) : (n * 2 ^ (52 - n.log2)).log2 = 52 := by
  have : n.log2 < 53 := (Nat.log2_lt hn.ne').2 hlt
  rw [log2_mul_two_pow hn]
  omega

/-- Rounding a natural number below `2 ^ 53` is no more than shifting it. -/
theorem round_natural (s : Sign) (hn : 0 < n) (hlt : n < 2 ^ 53) :
    UnpackedFloat.round .binary64 s n 0 =
      .finite s (n * 2 ^ (52 - n.log2)) (-(52 - n.log2 : Nat)) (by positivity) := by
  have hlog : n.log2 < 53 := (Nat.log2_lt hn.ne').2 hlt
  have hshift : (0 - Format.binary64.targetExponent (totalExponent n 0)).toNat = 52 - n.log2 := by
    rw [targetExponent_binary64]
    omega
  have hcanonical : Format.binary64.targetExponent (totalExponent (n * 2 ^ (52 - n.log2))
      (-(52 - n.log2 : Nat))) = -(52 - n.log2 : Nat) := by
    rw [targetExponent_binary64, log2_shift hn hlt]
    omega
  have hround := roundWithAccuracy_of_canonical s (by positivity) 0 hcanonical
  rw [UnpackedFloat.round, UnpackedFloat.decreaseExponent, hshift, Nat.shiftLeft_eq]
  simpa using hround

theorem unpack_toFloat (hn : 0 < n) (hlt : n < 2 ^ 53) : n.toUInt64.toFloat.toModel.unpack =
    .finite .positive (n * 2 ^ (52 - n.log2)) (-(52 - n.log2 : Nat)) (by positivity) := by
  have hsize : n.toUInt64.toNat = n := by simp; omega
  have hcompare : compare (n : Int) 0 = .gt := compare_gt_iff_gt.2 (by omega)
  have hmodel : UnpackedFloat.ofUInt64 .binary64 n.toUInt64 =
      .finite .positive (n * 2 ^ (52 - n.log2)) (-(52 - n.log2 : Nat)) (by positivity) := by
    rw [UnpackedFloat.ofUInt64, hsize, UnpackedFloat.ofNat, UnpackedFloat.ofInt,
      UnpackedFloat.normalize, hcompare]
    exact round_natural .positive hn hlt
  have hlog : n.log2 < 53 := (Nat.log2_lt hn.ne').2 hlt
  have hpack := unpack_pack_of_log2 .positive (by positivity) (log2_shift hn hlt)
    (show -1074 ≤ -((52 - n.log2 : Nat) : Int) by omega) (by omega)
  calc n.toUInt64.toFloat.toModel.unpack
    _ = UnpackedFloat.unpack .binary64
          (UnpackedFloat.pack .binary64 (.ofUInt64 .binary64 n.toUInt64)) := rfl
    _ = _ := by rw [hmodel, hpack]

theorem mul_one_unpacked (f : Float.Model) :
    f.unpack.mul .binary64 (Float.toModel 1).unpack = f.unpack := by
  have hone : (Float.toModel 1).unpack = .finite .positive (2 ^ 52) (-52) (by decide) := rfl
  have hsign : ∀ s : Sign, s * .positive = s := by rintro (_ | _) <;> rfl
  rw [hone]
  cases hf : f.unpack with
  | finite s m e hm =>
    rw [UnpackedFloat.mul, hsign]
    exact roundWithAccuracy_of_canonical s hm 52 (targetExponent_of_unpack hf)
  | _ => simp only [UnpackedFloat.mul, hsign]

theorem unpack_ofNat_of_lt (hlt : n < 2 ^ 53) :
    (Float.ofNat n).toModel.unpack = n.toUInt64.toFloat.toModel.unpack := by
  have hproduct : Float.ofNat n = n.toUInt64.toFloat * 1 := by
    -- A small number is multiplied by the power of ten that its exponent wants, here by one.
    have hone : Float.ofBits 0x3FF0000000000000 = 1 := by decide +kernel
    change Float.ofScientific n false 0 = _
    rw [Float.ofScientific, dif_pos ⟨hlt, by decide⟩, ← hone]
    rfl
  rw [hproduct]
  calc (n.toUInt64.toFloat * 1).toModel.unpack
    _ = UnpackedFloat.unpack .binary64 (UnpackedFloat.pack .binary64
          (n.toUInt64.toFloat.toModel.unpack.mul .binary64 (Float.toModel 1).unpack)) := rfl
    _ = _ := by rw [mul_one_unpacked, Float.Model.unpack, unpack_pack_unpack]

/-- The bound itself has 54 bits, the last of which is zero. -/
theorem unpack_ofNat_two_pow :
    (Float.ofNat (2 ^ 53)).toModel.unpack = .finite .positive (2 ^ 52) 1 (by decide) := by
  have hbits : Float.ofNat (2 ^ 53) = .ofBits 0x4340000000000000 := by decide +kernel
  rw [hbits]
  rfl

/-- The float of a natural number up to `2 ^ 53` denotes this number. -/
theorem rational?_ofNat (hn : n ≤ 2 ^ 53) : rational? (Float.ofNat n) = some (n : ℚ) := by
  rcases Nat.eq_zero_or_pos n with rfl | hpos
  · rfl
  rcases Nat.lt_or_eq_of_le hn with hlt | rfl
  · rw [rational?, unpack_ofNat_of_lt hlt, unpack_toFloat hpos hlt]
    simp
  · rw [rational?, unpack_ofNat_two_pow]
    norm_num

end Naturals

/-! ## Literals -/

namespace Literal

theorem isFinite_of_le {n : Nat} (h : n ≤ 2 ^ 53) : IsFinite n := by
  have hlt : ∀ k, 53 < k → n < Nat.pow 2 k :=
    fun k hk => Nat.lt_of_le_of_lt h (Nat.pow_lt_pow_right Nat.one_lt_two hk)
  unfold IsFinite
  apply hlt
  decide

theorem ofDigits_concat (digits : List (Fin 10)) (digit : Fin 10) :
    ofDigits (digits ++ [digit]) = push (ofDigits digits) digit := by
  rw [ofDigits, List.foldl_append]
  rfl

end Literal

end Calculator
