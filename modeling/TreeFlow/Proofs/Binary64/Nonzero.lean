import TreeFlow.Binary64.Parts
import TreeFlow.Proofs.Binary64.Finite
/-
An integer other than zero is a number other than zero.

`AtLeastOne` says that a value is finite and normal and that its magnitude is one or more: a full
mantissa of 53 bits over an exponent of at least -52.  Rounding a product or an integer of magnitude
one or more keeps to that, and so does packing, so no conversion of an integer comes near to zero
(`ofInt64_beq_zero`).
-/

namespace TreeFlow
namespace Binary64

open Float.Model (Format UnpackedFloat totalExponent)
open Float.Model.UnpackedFloat

/-- A finite value with a full mantissa whose magnitude is one or more. -/
inductive AtLeastOne : UnpackedFloat → Prop
  | finite {s : Sign} {m : Nat} {e : Int} {hm : 0 < m} (low : 2 ^ 52 ≤ m) (high : m < 2 ^ 53)
    (exponent : -52 ≤ e) : AtLeastOne (.finite s m e hm)

variable {u v : UnpackedFloat} {bits m : Nat} {top e : Int}

theorem AtLeastOne.neg (h : AtLeastOne u) : AtLeastOne u.neg := by
  cases h with
  | finite low high exponent => exact .finite low high exponent

/-! ## Rounding -/

theorem mantissa_shiftRight (x : ExtendedMantissa) (n : Nat) :
    (x >>> n).mantissa = x.mantissa / 2 ^ n := by
  induction n with
  | zero => exact (Nat.div_one _).symm
  | succ n ih =>
    show (x >>> n).mantissa / 2 = _
    rw [ih, Nat.div_div_eq_div_mul, Nat.pow_succ]

theorem le_roundedMantissa (x : ExtendedMantissa) : x.mantissa ≤ x.roundedMantissa := by
  obtain ⟨m, roundBit, stickyBit⟩ := x
  cases roundBit <;> cases stickyBit <;>
    simp only [ExtendedMantissa.roundedMantissa, ExtendedMantissa.accuracy,
      Accuracy.roundToNearestEven] <;> omega

/-- A mantissa with at least 53 bits is shifted to 53 bits. -/
theorem shiftToTargetExponent_full (hm : 2 ^ 52 ≤ m) (he : 0 ≤ m.log2 + e) (a : Accuracy) :
    2 ^ 52 ≤ (shiftToTargetExponent Format.binary64 m e a).1.mantissa ∧
      (shiftToTargetExponent Format.binary64 m e a).1.mantissa < 2 ^ 53 ∧
      -52 ≤ (shiftToTargetExponent Format.binary64 m e a).2 := by
  have hne : m ≠ 0 := by omega
  have hlog : 52 ≤ m.log2 := (Nat.le_log2 hne).2 hm
  obtain ⟨k, hk⟩ := Nat.exists_eq_add_of_le hlog
  have hshift : (Format.binary64.targetExponent (totalExponent m e) - e).toNat = k := by
    simp only [Format.targetExponent, totalExponent, mantissaBits_binary64, Format.minExponent]
    omega
  have hmantissa : (shiftToTargetExponent Format.binary64 m e a).1.mantissa = m / 2 ^ k := by
    rw [← hshift]
    exact (mantissa_shiftRight _ _).trans (by rw [mantissa_ofMantissaAndAccuracy])
  have hexponent : (shiftToTargetExponent Format.binary64 m e a).2 = e + k := by
    rw [← hshift]
    rfl
  have hpos : 0 < 2 ^ k := Nat.two_pow_pos k
  have hlow : 2 ^ 52 * 2 ^ k ≤ m := by
    rw [← Nat.pow_add, ← hk]
    exact Nat.log2_self_le hne
  have hhigh : m < 2 ^ 53 * 2 ^ k := by
    rw [← Nat.pow_add, show 53 + k = m.log2 + 1 by omega]
    exact Nat.lt_log2_self
  rw [hmantissa, hexponent]
  exact ⟨(Nat.le_div_iff_mul_le hpos).2 hlow, (Nat.div_lt_iff_lt_mul hpos).2 hhigh, by omega⟩

theorem atLeastOne_round (hm : 2 ^ 52 ≤ m) (he : 0 ≤ m.log2 + e) (s : Sign) (a : Accuracy) :
    AtLeastOne (roundWithAccuracy Format.binary64 s m e a) := by
  obtain ⟨hlow, -, hexponent⟩ := shiftToTargetExponent_full hm he a
  rw [roundWithAccuracy]
  generalize shiftToTargetExponent Format.binary64 m e a = shifted at hlow hexponent
  obtain ⟨x, e₁⟩ := shifted
  dsimp only at hlow hexponent ⊢
  have hrounded : 2 ^ 52 ≤ x.roundedMantissa := Nat.le_trans hlow (le_roundedMantissa x)
  have hlog : 52 ≤ x.roundedMantissa.log2 := (Nat.le_log2 (by omega)).2 hrounded
  obtain ⟨hlow, hhigh, hexponent⟩ := shiftToTargetExponent_full hrounded (e := e₁) (by omega) .exact
  rw [dif_neg (by omega)]
  exact .finite hlow hhigh hexponent

/-! ## Packing -/

/-- A value of one or more is packed with its own exponent, which is no end of the range. -/
theorem AtLeastOne.exists_components (h : AtLeastOne u) (hbelow : Below bits top u)
    (hmax : top ≤ 971) :
    ∃ (s : Sign) (exponent : BitVec 11) (mantissa : BitVec 52),
      UnpackedFloat.pack Format.binary64 u = packComponents Format.binary64 s exponent mantissa ∧
        exponent ≠ -1#11 ∧ 1023 ≤ exponent.toNat := by
  cases h with
  | @finite s m e _ low high exponent =>
    cases hbelow with
    | finite _ htop =>
      have hfull : m.log2 + 1 = Format.binary64.mantissaBits :=
        congrArg (· + 1) ((Nat.log2_eq_iff (by omega)).2 ⟨low, high⟩)
      obtain ⟨exponent, hpack, hne, hfield⟩ := pack_full hfull (Int.le_trans htop hmax)
      exact ⟨s, exponent, _, hpack, hne, by omega⟩

/-- A mantissa gets its leading bit back. -/
theorem full_mantissa (v : BitVec 52) : 2 ^ 52 ≤ (1#1 ++ v).toNat ∧ (1#1 ++ v).toNat < 2 ^ 53 := by
  refine ⟨?_, (1#1 ++ v).isLt⟩
  rw [BitVec.toNat_append]
  exact Nat.left_le_or

theorem atLeastOne_unpack {b : BitVec Format.binary64.numBits} (hne : unpackExponent b ≠ -1#11)
    (hle : 1023 ≤ (unpackExponent b).toNat) :
    AtLeastOne (UnpackedFloat.unpack Format.binary64 b) := by
  have hbits : Format.binary64.mantissaBitsWithoutImplicit = 52 := rfl
  have hbias : Format.binary64.exponentBias = 1023 := rfl
  have hzero : ¬ unpackExponent b = 0#11 := by
    intro hzero
    have hnat : (unpackExponent b).toNat = 0 := congrArg BitVec.toNat hzero
    omega
  delta UnpackedFloat.unpack
  dsimp only
  rw [if_neg hne, if_neg hzero]
  obtain ⟨hlow, hhigh⟩ := full_mantissa (unpackMantissa b)
  exact .finite hlow hhigh (by omega)

theorem AtLeastOne.unpack_pack (h : AtLeastOne u) (hbelow : Below bits top u) (hmax : top ≤ 971) :
    AtLeastOne (UnpackedFloat.unpack Format.binary64 (UnpackedFloat.pack Format.binary64 u)) := by
  obtain ⟨s, exponent, mantissa, hpack, hne, hle⟩ := h.exists_components hbelow hmax
  rw [hpack]
  refine atLeastOne_unpack ?_ ?_
  · rwa [unpackExponent_packComponents]
  · rwa [unpackExponent_packComponents]

/-! ## Integers -/

theorem atLeastOne_mul {s s' : Sign} {m' : Nat} {e' : Int} {hm : 0 < m} {hm' : 0 < m'}
    (hproduct : 2 ^ 52 ≤ m * m') (hexponent : 0 ≤ (m * m').log2 + (e + e')) :
    AtLeastOne (UnpackedFloat.mul Format.binary64 (.finite s m e hm) (.finite s' m' e' hm')) :=
  atLeastOne_round hproduct hexponent _ _

theorem AtLeastOne.mul (hu : AtLeastOne u) (hv : AtLeastOne v) :
    AtLeastOne (UnpackedFloat.mul Format.binary64 u v) := by
  cases hu with
  | @finite s m e _ low _ exponent =>
    cases hv with
    | @finite s' m' e' _ low' _ exponent' =>
      have hproduct : 2 ^ 104 ≤ m * m' :=
        calc 2 ^ 104 = 2 ^ 52 * 2 ^ 52 := by decide
          _ ≤ m * m' := Nat.mul_le_mul low low'
      have hlog : 104 ≤ (m * m').log2 := (Nat.le_log2 (by omega)).2 hproduct
      exact atLeastOne_mul (by omega) (by omega)

/-- Conversion shifts a short integer to the left until its mantissa is full. -/
theorem atLeastOne_normalize {n : UInt64} (hn : 0 < n.toNat) :
    AtLeastOne (UnpackedFloat.ofUInt64 Format.binary64 n) := by
  have hround : ∀ m : Nat, 0 < m →
      AtLeastOne (UnpackedFloat.round Format.binary64 .positive m 0) := by
    intro m hm
    rw [UnpackedFloat.round]
    have htarget : Format.binary64.targetExponent (totalExponent m 0) = m.log2 - 52 := by
      simp only [Format.targetExponent, totalExponent, mantissaBits_binary64, Format.minExponent]
      omega
    rw [htarget]
    show AtLeastOne (roundWithAccuracy Format.binary64 .positive
      (m <<< (0 - ((m.log2 : Int) - 52)).toNat) (0 - ((0 - ((m.log2 : Int) - 52)).toNat : Int)) .exact)
    generalize hk : (0 - ((m.log2 : Int) - 52)).toNat = k
    have hself := Nat.log2_self_le (Nat.ne_of_gt hm)
    have hshift : 2 ^ (m.log2 + k) ≤ m <<< k := by
      rw [Nat.shiftLeft_eq, Nat.pow_add]
      exact Nat.mul_le_mul_right _ hself
    have hne : m <<< k ≠ 0 := Nat.ne_of_gt (Nat.lt_of_lt_of_le (Nat.two_pow_pos _) hshift)
    have hlog : m.log2 + k ≤ (m <<< k).log2 := (Nat.le_log2 hne).2 hshift
    have hfull : 2 ^ 52 ≤ m <<< k :=
      Nat.le_trans (Nat.pow_le_pow_right (by decide) (by omega)) hshift
    exact atLeastOne_round hfull (by omega) _ _
  show AtLeastOne (UnpackedFloat.normalize Format.binary64 (n.toNat : Int) 0 .positive)
  rw [UnpackedFloat.normalize]
  split
  · exact absurd (Int.compare_eq_lt.1 ‹_›) (by omega)
  · exact absurd (Int.compare_eq_eq.1 ‹_›) (by omega)
  · exact hround _ hn

theorem atLeastOne_ofUInt64 {n : UInt64} (hn : 0 < n.toNat) :
    AtLeastOne (Float.Model.ofUInt64 n).unpack :=
  (atLeastOne_normalize hn).unpack_pack (below_normalize n) (by decide)

theorem atLeastOne_ofScientific {n : Nat} (hn : 0 < n) :
    AtLeastOne (UnpackedFloat.ofScientific Format.binary64 n 0) := by
  have hbits : (0 : Int) ≤ 2 ^ Format.binary64.exponentBits := by decide
  have hmantissa : 2 ^ 53 ≤ n <<< Format.binary64.mantissaBits * 10 ^ (0 : Int).toNat := by
    rw [mantissaBits_binary64, Nat.shiftLeft_eq]
    show 2 ^ 53 ≤ n * 2 ^ 53 * 1
    omega
  have hlog := (Nat.le_log2 (by omega)).2 hmantissa
  rw [UnpackedFloat.ofScientific, dif_neg (by omega), if_neg (by decide), if_neg (by omega),
    if_pos (by decide)]
  exact atLeastOne_mul (by omega) (by rw [mantissaBits_binary64] at hlog ⊢; omega)

theorem atLeastOne_ofNat {n : Nat} (hn : 0 < n) (h : n < 2 ^ 64) :
    AtLeastOne (Float.ofNat n).toModel.unpack := by
  show AtLeastOne (Float.ofScientific n false 0).toModel.unpack
  rw [Float.ofScientific]
  split
  next hsmall =>
    -- A small integer is converted exactly and multiplied with one.
    have htoNat : 0 < n.toUInt64.toNat := by
      rw [Nat.toUInt64_eq, UInt64.toNat_ofNat_of_lt' h]
      exact hn
    have hone : AtLeastOne (Float.Model.ofBits 0x3FF0000000000000).unpack := by
      show AtLeastOne (.finite .positive (2 ^ 52) (-52) _)
      exact .finite (by decide) (by decide) (by decide)
    have hproduct := (below_ofUInt64 n.toUInt64).mul below_one (by decide)
    exact ((atLeastOne_ofUInt64 htoNat).mul hone).unpack_pack hproduct (by decide)
  next =>
    exact (atLeastOne_ofScientific hn).unpack_pack (below_ofScientific h) (by decide)

theorem atLeastOne_ofInt {n : Int} (hn : n ≠ 0) (h : n.natAbs < 2 ^ 64) :
    AtLeastOne (Float.ofInt n).toModel.unpack := by
  cases n with
  | ofNat n => exact atLeastOne_ofNat (Nat.pos_of_ne_zero fun heq => hn (congrArg _ heq)) h
  | negSucc n =>
    exact (atLeastOne_ofNat n.succ_pos h).neg.unpack_pack (below_ofNat h).neg (by decide)

theorem AtLeastOne.beq_zero (h : AtLeastOne u) : u.beq (.zero .positive) = false := by
  cases h with
  | @finite s => cases s <;> rfl

theorem toInt_ne_zero {b : Int64} (hb : b ≠ 0) : b.toInt ≠ 0 :=
  fun h => hb (Int64.toInt_inj.1 h)

/-- No integer other than zero is rounded to zero. -/
theorem ofInt64_beq_zero {b : Int64} (hb : b ≠ 0) : (ofInt64 b == 0) = false := by
  have hzero : (0 : Float).toModel.unpack = .zero .positive := rfl
  have hword : b.toInt.natAbs < 2 ^ 64 := by
    have hle := b.le_toInt
    have hlt := b.toInt_lt
    omega
  show UnpackedFloat.beq (Float.ofInt b.toInt).toModel.unpack (0 : Float).toModel.unpack = false
  rw [hzero]
  exact (atLeastOne_ofInt (toInt_ne_zero hb) hword).beq_zero

end Binary64
end TreeFlow
