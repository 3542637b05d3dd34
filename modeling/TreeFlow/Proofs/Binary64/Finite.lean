import Mathlib.Algebra.Group.Nat.Defs
import TreeFlow.Json.Basic
/-
Integers as binary64 numbers.

A conversion rounds an integer, and rounding may carry into a greater exponent.  A bound on the
mantissa and the exponent that go into a rounding bounds the exponent that comes out
(`Below.round`), and far below the greatest exponent that is enough: the integers of a word stay
finite (`isFinite_ofInt`).
-/

namespace TreeFlow
namespace Binary64

open Float.Model (Format UnpackedFloat totalExponent)
open Float.Model.UnpackedFloat

/-- A zero, or a finite value whose mantissa has at most `bits` bits and whose exponent is at most
`top`. -/
inductive Below (bits : Nat) (top : Int) : UnpackedFloat → Prop
  | zero {s : Sign} : Below bits top (.zero s)
  | finite {s : Sign} {m : Nat} {e : Int} {hm : 0 < m} (hbits : m < 2 ^ bits) (htop : e ≤ top) :
      Below bits top (.finite s m e hm)

variable {u v : UnpackedFloat} {bits bits' m : Nat} {top top' e : Int}

theorem mantissaBits_binary64 : Format.binary64.mantissaBits = 53 := rfl

theorem Below.isFinite (h : Below bits top u) : u.isFinite = true := by
  cases h <;> rfl

theorem Below.mono (h : Below bits top u) (hle : top ≤ top') : Below bits top' u := by
  cases h with
  | zero => exact .zero
  | finite hbits htop => exact .finite hbits (Int.le_trans htop hle)

theorem Below.neg (h : Below bits top u) : Below bits top u.neg := by
  cases h with
  | zero => exact .zero
  | finite hbits htop => exact .finite hbits htop

/-! ## Rounding -/

theorem mantissa_shiftRight_le (x : ExtendedMantissa) (n : Nat) :
    (x >>> n).mantissa ≤ x.mantissa := by
  induction n with
  | zero => exact Nat.le_refl _
  | succ n ih => exact Nat.le_trans (Nat.div_le_self _ 2) ih

theorem roundedMantissa_le (x : ExtendedMantissa) : x.roundedMantissa ≤ x.mantissa + 1 := by
  obtain ⟨m, roundBit, stickyBit⟩ := x
  cases roundBit <;> cases stickyBit <;>
    simp only [ExtendedMantissa.roundedMantissa, ExtendedMantissa.accuracy,
      Accuracy.roundToNearestEven] <;> omega

theorem mantissa_ofMantissaAndAccuracy (m : Nat) (a : Accuracy) :
    (ExtendedMantissa.ofMantissaAndAccuracy m a).mantissa = m := by
  cases a with
  | exact => rfl
  | inexact o => cases o <;> rfl

theorem mantissa_shiftToTargetExponent_le (m : Nat) (e : Int) (a : Accuracy) :
    (shiftToTargetExponent Format.binary64 m e a).1.mantissa ≤ m := by
  refine Nat.le_trans (mantissa_shiftRight_le _ _) ?_
  exact Nat.le_of_eq (mantissa_ofMantissaAndAccuracy m a)

theorem log2_le_of_lt (h : m < 2 ^ bits) : m.log2 ≤ bits := by
  by_cases hm : m = 0
  · rw [hm, Nat.log2_zero]
    exact Nat.zero_le bits
  · exact Nat.le_of_lt ((Nat.log2_lt hm).2 h)

/-- Shifting raises an exponent by no more than the mantissa has bits. -/
theorem exponent_shiftToTargetExponent_le (hm : m < 2 ^ bits) (he : e ≤ top) (htop : -1074 ≤ top)
    (a : Accuracy) : (shiftToTargetExponent Format.binary64 m e a).2 ≤ top + bits := by
  have hlog := log2_le_of_lt hm
  show e + ((Format.binary64.targetExponent (totalExponent m e) - e).toNat : Int) ≤ top + bits
  simp only [Format.targetExponent, totalExponent, mantissaBits_binary64, Format.minExponent]
  omega

theorem Below.round (hm : m < 2 ^ bits) (he : e ≤ top) (htop : -1074 ≤ top) (s : Sign)
    (a : Accuracy) :
    Below (bits + 1) (top + 2 * bits + 1) (roundWithAccuracy Format.binary64 s m e a) := by
  have hm₁ := mantissa_shiftToTargetExponent_le m e a
  have he₁ := exponent_shiftToTargetExponent_le hm he htop a
  rw [roundWithAccuracy]
  generalize shiftToTargetExponent Format.binary64 m e a = shifted at hm₁ he₁
  obtain ⟨x, e₁⟩ := shifted
  dsimp only at hm₁ he₁ ⊢
  have hpow : 2 ^ (bits + 1) = 2 ^ bits * 2 := Nat.pow_succ 2 bits
  have hrounded : x.roundedMantissa < 2 ^ (bits + 1) := by
    have hle := roundedMantissa_le x
    omega
  have hm₂ := mantissa_shiftToTargetExponent_le x.roundedMantissa e₁ .exact
  have he₂ := exponent_shiftToTargetExponent_le hrounded he₁ (by omega) .exact
  generalize shiftToTargetExponent Format.binary64 x.roundedMantissa e₁ .exact = final at hm₂ he₂
  by_cases hzero : final.1.mantissa = 0
  · rw [dif_pos hzero]
    exact .zero
  · rw [dif_neg hzero]
    exact .finite (by omega) (by omega)

/-! ## Packing -/

/-- A full mantissa is packed beside the field of its exponent. -/
theorem pack_full {s : Sign} {hm : 0 < m} (hfull : m.log2 + 1 = Format.binary64.mantissaBits)
    (hmax : e ≤ 971) :
    ∃ exponent : BitVec 11,
      UnpackedFloat.pack Format.binary64 (.finite s m e hm)
          = packComponents Format.binary64 s exponent (.ofNat 52 m) ∧
        exponent ≠ -1#11 ∧ exponent.toNat = (e + 1075).toNat := by
  have hfits : ¬ 2 ^ 11 ≤ (e + (1023 : Nat) + (52 : Nat)).toNat + 1 := by omega
  have hfield : (BitVec.ofNat 11 (e + (1023 : Nat) + (52 : Nat)).toNat).toNat
      = (e + 1075).toNat := by
    rw [BitVec.toNat_ofNat, Nat.mod_eq_of_lt (by omega)]
    omega
  refine ⟨BitVec.ofNat 11 (e + (1023 : Nat) + (52 : Nat)).toNat,
    (if_neg hfits).trans (if_pos hfull), fun heq => ?_, hfield⟩
  have htoNat := hfield.symm.trans (congrArg BitVec.toNat heq)
  have hlast : (-1#11).toNat = 2047 := by decide
  omega

/-- What is below the greatest exponent is packed with its own exponent. -/
theorem Below.exists_components (h : Below bits top u) (htop : -1074 ≤ top) (hmax : top ≤ 971) :
    ∃ (s : Sign) (exponent : BitVec 11) (mantissa : BitVec 52),
      UnpackedFloat.pack Format.binary64 u = packComponents Format.binary64 s exponent mantissa ∧
        exponent ≠ -1#11 ∧ (exponent.toNat : Int) ≤ top + 1075 := by
  cases h with
  | @zero s =>
    refine ⟨s, 0, 0, rfl, by decide, ?_⟩
    show (0 : Int) ≤ _
    omega
  | @finite s m e _ _ he =>
    by_cases hfull : m.log2 + 1 = Format.binary64.mantissaBits
    · obtain ⟨exponent, hpack, hne, hfield⟩ := pack_full hfull (Int.le_trans he hmax)
      exact ⟨s, exponent, _, hpack, hne, by omega⟩
    · have hfits : ¬ 2 ^ 11 ≤ (e + (1023 : Nat) + (52 : Nat)).toNat + 1 := by omega
      refine ⟨s, 0, BitVec.ofNat 52 m, ?_, by decide, ?_⟩
      · exact (if_neg hfits).trans (if_neg hfull)
      · show (0 : Int) ≤ _
        omega

/-- Only the greatest exponent of all stands for infinities and NaN. -/
theorem below_unpack {b : BitVec Format.binary64.numBits} (hne : unpackExponent b ≠ -1#11)
    (hle : ((unpackExponent b).toNat : Int) ≤ top + 1075) (htop : -1074 ≤ top) :
    Below 53 top (UnpackedFloat.unpack Format.binary64 b) := by
  have hmantissa : (unpackMantissa b).toNat < 2 ^ 52 := (unpackMantissa b).isLt
  have hbits : Format.binary64.mantissaBitsWithoutImplicit = 52 := rfl
  have hbias : Format.binary64.exponentBias = 1023 := rfl
  delta UnpackedFloat.unpack
  dsimp only
  rw [if_neg hne]
  by_cases hzero : unpackExponent b = 0#11
  · rw [if_pos hzero]
    have hnat : (unpackExponent b).toNat = 0 := congrArg BitVec.toNat hzero
    by_cases hm : unpackMantissa b = 0#52
    · rw [dif_pos hm]
      exact .zero
    · rw [dif_neg hm]
      exact .finite (by omega) (by omega)
  · rw [if_neg hzero]
    exact .finite (BitVec.isLt _) (by omega)

/-- Packing keeps what is below the greatest exponent. -/
theorem Below.unpack_pack (h : Below bits top u) (htop : -1074 ≤ top) (hmax : top ≤ 971) :
    Below 53 top (UnpackedFloat.unpack Format.binary64 (UnpackedFloat.pack Format.binary64 u)) := by
  obtain ⟨s, exponent, mantissa, hpack, hne, hle⟩ := h.exists_components htop hmax
  rw [hpack]
  refine below_unpack ?_ ?_ htop
  · rwa [unpackExponent_packComponents]
  · rwa [unpackExponent_packComponents]

/-- What is packed as a number and bounded is a finite number. -/
theorem Below.isFinite_pack (h : Below bits top u) (htop : -1074 ≤ top) (hmax : top ≤ 971) :
    (Float.ofModel (Float.Model.pack u)).isFinite = true :=
  (h.unpack_pack htop hmax).isFinite

/-! ## Integers -/

theorem below_normalize (n : UInt64) :
    Below 117 233 (UnpackedFloat.ofUInt64 Format.binary64 n) := by
  have hn : n.toNat < 2 ^ 64 := n.toNat_lt
  have hround : ∀ m : Nat, m < 2 ^ 64 →
      Below 117 233 (UnpackedFloat.round Format.binary64 .positive m 0) := by
    intro m hm
    rw [UnpackedFloat.round]
    have htarget : -52 ≤ Format.binary64.targetExponent (totalExponent m 0) := by
      simp only [Format.targetExponent, totalExponent, mantissaBits_binary64, Format.minExponent]
      omega
    generalize Format.binary64.targetExponent (totalExponent m 0) = target at htarget
    have hshift : m <<< (0 - target).toNat < 2 ^ 116 := by
      rw [Nat.shiftLeft_eq]
      have hpow : 2 ^ (0 - target).toNat ≤ 2 ^ 52 := Nat.pow_le_pow_right (by omega) (by omega)
      calc m * 2 ^ (0 - target).toNat ≤ m * 2 ^ 52 := Nat.mul_le_mul_left m hpow
        _ < 2 ^ 64 * 2 ^ 52 := Nat.mul_lt_mul_of_pos_right hm (by decide)
        _ = 2 ^ 116 := by decide
    have hexponent : (0 : Int) - ((0 - target).toNat : Int) ≤ 0 := by omega
    exact Below.round hshift hexponent (by decide) .positive .exact
  show Below 117 233 (UnpackedFloat.normalize Format.binary64 (n.toNat : Int) 0 .positive)
  rw [UnpackedFloat.normalize]
  split
  · exact absurd (Int.compare_eq_lt.1 ‹_›) (by omega)
  · exact .zero
  · exact hround _ hn

theorem below_ofUInt64 (n : UInt64) : Below 53 233 (Float.Model.ofUInt64 n).unpack :=
  (below_normalize n).unpack_pack (by decide) (by decide)

theorem Below.mul (hu : Below bits top u) (hv : Below bits' top' v) (htop : -1074 ≤ top + top') :
    Below (bits + bits' + 1) (top + top' + 2 * (bits + bits' : Nat) + 1)
      (UnpackedFloat.mul Format.binary64 u v) := by
  cases hu with
  | zero => cases hv <;> exact .zero
  | @finite s m e _ hm he =>
    cases hv with
    | zero => exact .zero
    | @finite s' m' e' _ hm' he' =>
      have hproduct : m * m' < 2 ^ (bits + bits') := by
        rw [Nat.pow_add]
        exact Nat.mul_lt_mul_of_lt_of_le hm (Nat.le_of_lt hm') (Nat.two_pow_pos bits')
      exact Below.round hproduct (Int.add_le_add he he') htop _ _

theorem below_ofScientific {n : Nat} (h : n < 2 ^ 64) :
    Below 119 184 (UnpackedFloat.ofScientific Format.binary64 n 0) := by
  rw [UnpackedFloat.ofScientific]
  by_cases hn : n = 0
  · rw [dif_pos hn]
    exact .zero
  · have hbits : (0 : Int) ≤ 2 ^ Format.binary64.exponentBits := by decide
    have hmantissa : n <<< 53 < 2 ^ 117 := by
      rw [Nat.shiftLeft_eq]
      omega
    rw [dif_neg hn, if_neg (by decide), if_neg (by omega), if_pos (by decide)]
    exact Below.mul (.finite hmantissa (Int.le_refl (-53)))
      (.finite (show 10 ^ (0 : Int).toNat < 2 ^ 1 by decide) (Int.le_refl 0)) (by decide)

theorem below_one : Below 53 0 (Float.Model.ofBits 0x3FF0000000000000).unpack := by
  show Below 53 0 (.finite .positive (2 ^ 52) (-52) _)
  exact .finite (by decide) (by decide)

theorem below_ofNat {n : Nat} (h : n < 2 ^ 64) :
    Below 53 970 (Float.ofNat n).toModel.unpack := by
  show Below 53 970 (Float.ofScientific n false 0).toModel.unpack
  rw [Float.ofScientific]
  split
  · -- A small integer is converted exactly and multiplied with one.
    have hproduct := (below_ofUInt64 n.toUInt64).mul below_one (by decide)
    exact Below.unpack_pack (hproduct.mono (by decide)) (by decide) (by decide)
  · exact Below.unpack_pack ((below_ofScientific h).mono (by decide)) (by decide) (by decide)

/-- An integer with at most 64 bits is a finite number. -/
theorem isFinite_ofInt {n : Int} (h : n.natAbs < 2 ^ 64) : (Float.ofInt n).isFinite = true := by
  cases n with
  | ofNat n => exact (below_ofNat h).isFinite
  | negSucc n => exact Below.isFinite_pack (below_ofNat h).neg (by decide) (by decide)

end Binary64
end TreeFlow
