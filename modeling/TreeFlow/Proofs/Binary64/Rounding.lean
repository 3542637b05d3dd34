import Mathlib
import TreeFlow.Proofs.Binary64.Nonzero
/-
Rounding to the nearest number.

A rounding drops the low bits of a mantissa until 53 are left, keeps the first dropped bit and
whether any other was set, and from these two goes to the nearest mantissa, at equal distance to the
even one (`nearest`).  This can carry into a bit too many, and then the mantissa is a power of two
(`roundWithAccuracy_eq`).  Nothing is lost where the dropped bits are zero.

A mantissa and an exponent as they come out of a rounding are told apart by their value, and packing
keeps them, unless the exponent is too large for the format.
-/

namespace TreeFlow
namespace Binary64

open Float.Model (Format UnpackedFloat totalExponent)
open Float.Model.UnpackedFloat

variable {m k : Nat} {e : Int} {s : Sign}

/-! ## The nearest mantissa -/

/-- The integer nearest to `m / 2 ^ k`, the even one at equal distance. -/
def nearest (m k : Nat) : Nat :=
  m / 2 ^ k
    + if 2 ^ k < 2 * (m % 2 ^ k) ∨ (2 * (m % 2 ^ k) = 2 ^ k ∧ m / 2 ^ k % 2 = 1) then 1 else 0

theorem nearest_of_dvd (h : 2 ^ k ∣ m) : nearest m k = m / 2 ^ k := by
  have hpos := Nat.two_pow_pos k
  rw [nearest, Nat.mod_eq_zero_of_dvd h, if_neg (by omega), Nat.add_zero]

theorem div_le_nearest : m / 2 ^ k ≤ nearest m k := Nat.le_add_right _ _

theorem nearest_le : nearest m k ≤ m / 2 ^ k + 1 := by
  rw [nearest]
  split <;> omega

/-- A mantissa that nothing is left beside. -/
def unrounded (m : Nat) : ExtendedMantissa := ⟨m, false, false⟩

/-- After a shift the round bit is the last bit dropped, and the sticky bit tells whether any other
was set. -/
theorem shiftRight_succ (m k : Nat) :
    unrounded m >>> (k + 1)
      = ⟨m / 2 ^ (k + 1), m / 2 ^ k % 2 != 0, m % 2 ^ k != 0⟩ := by
  induction k with
  | zero =>
    show ExtendedMantissa.shiftRightOne ⟨m, false, false⟩ = _
    simp [ExtendedMantissa.shiftRightOne, Nat.mod_one]
  | succ k ih =>
    show ExtendedMantissa.shiftRightOne (unrounded m >>> (k + 1)) = _
    rw [ih]
    have hmod : m % 2 ^ (k + 1) = m % 2 ^ k + 2 ^ k * (m / 2 ^ k % 2) := Nat.mod_pow_succ
    have hpos := Nat.two_pow_pos k
    have hsticky : (m / 2 ^ k % 2 != 0 || m % 2 ^ k != 0) = (m % 2 ^ (k + 1) != 0) := by
      rw [hmod]
      rcases Nat.mod_two_eq_zero_or_one (m / 2 ^ k) with hbit | hbit <;> simp [hbit]
    simp only [ExtendedMantissa.shiftRightOne, hsticky, Nat.div_div_eq_div_mul, ← Nat.pow_succ]

theorem roundedMantissa_shiftRight (m k : Nat) :
    (unrounded m >>> k).roundedMantissa = nearest m k := by
  cases k with
  | zero =>
    rw [nearest_of_dvd (Nat.one_dvd m), Nat.pow_zero, Nat.div_one]
    rfl
  | succ k =>
    have hmod : m % 2 ^ (k + 1) = m % 2 ^ k + 2 ^ k * (m / 2 ^ k % 2) := Nat.mod_pow_succ
    have hlt := Nat.mod_lt m (Nat.two_pow_pos k)
    have hpow : 2 ^ (k + 1) = 2 ^ k * 2 := Nat.pow_succ 2 k
    have hround := Nat.mod_two_eq_zero_or_one (m / 2 ^ k)
    rw [shiftRight_succ, nearest, hmod]
    generalize m / 2 ^ (k + 1) = q
    generalize m / 2 ^ k % 2 = bit at hround
    generalize m % 2 ^ k = r at hlt
    rw [hpow]
    generalize 2 ^ k = unit at hlt
    have hsticky : r ≠ 0 → (r != 0) = true := bne_iff_ne.2
    rcases hround with rfl | rfl <;> rcases Nat.eq_zero_or_pos r with rfl | hr
    · rw [if_neg (by omega)]
      rfl
    · rw [hsticky (by omega), if_neg (by omega)]
      rfl
    · show q + q % 2 = _
      split <;> omega
    · rw [hsticky (by omega), if_pos (by omega)]
      rfl

/-! ## Roundings -/

/-- The exponent that a mantissa with an exponent is shifted to. -/
def target (m : Nat) (e : Int) : Int := max ((m.log2 : Int) - 52 + e) minExponent

theorem targetExponent_eq (m : Nat) (e : Int) :
    Format.binary64.targetExponent (totalExponent m e) = target m e := by
  simp only [Format.targetExponent, totalExponent, mantissaBits_binary64, Format.minExponent,
    target, minExponent]
  omega

theorem shiftToTargetExponent_eq (m : Nat) (e : Int) :
    shiftToTargetExponent Format.binary64 m e .exact
      = (unrounded m >>> (target m e - e).toNat, e + (target m e - e).toNat) := by
  rw [shiftToTargetExponent, targetExponent_eq]
  rfl

/-- A mantissa of at most 53 bits stays, where its exponent is in the format. -/
theorem shiftToTargetExponent_of_lt (hm : m < 2 ^ 53) (he : minExponent ≤ e) :
    shiftToTargetExponent Format.binary64 m e .exact = (unrounded m, e) := by
  have hlog : m.log2 ≤ 52 := by
    by_cases h : m = 0
    · rw [h]
      decide
    · exact Nat.le_of_lt_succ ((Nat.log2_lt h).2 hm)
  have hshift : (target m e - e).toNat = 0 := by
    rw [target]
    omega
  rw [shiftToTargetExponent_eq, hshift]
  exact Prod.ext rfl (Int.add_zero e)

theorem shiftToTargetExponent_carry (he : minExponent ≤ e) :
    shiftToTargetExponent Format.binary64 (2 ^ 53) e .exact
      = (unrounded (2 ^ 52), e + 1) := by
  have hlog : (2 ^ 53 : Nat).log2 = 53 := Nat.log2_two_pow
  have hshift : (target (2 ^ 53) e - e).toNat = 1 := by
    rw [target, hlog, minExponent] at *
    omega
  rw [shiftToTargetExponent_eq, hshift]
  rfl

theorem div_lt (hk : (target m e - e).toNat = k) : m / 2 ^ k < 2 ^ 53 := by
  have hlog : m.log2 + 1 ≤ 53 + k := by
    rw [target] at hk
    omega
  refine (Nat.div_lt_iff_lt_mul (Nat.two_pow_pos k)).2 ?_
  calc m < 2 ^ (m.log2 + 1) := Nat.lt_log2_self
    _ ≤ 2 ^ (53 + k) := Nat.pow_le_pow_right (by decide) hlog
    _ = 2 ^ 53 * 2 ^ k := Nat.pow_add 2 53 k

theorem le_div (hm : m ≠ 0) (hk : m.log2 = 52 + k) : 2 ^ 52 ≤ m / 2 ^ k := by
  refine (Nat.le_div_iff_mul_le (Nat.two_pow_pos k)).2 ?_
  rw [← Nat.pow_add, ← hk]
  exact Nat.log2_self_le hm

theorem roundWithAccuracy_eq (s : Sign) (hk : (target m e - e).toNat = k) :
    roundWithAccuracy Format.binary64 s m e .exact
      = if h : nearest m k = 0 then .zero s
        else if nearest m k < 2 ^ 53 then .finite s (nearest m k) (e + k) (Nat.pos_of_ne_zero h)
        else .finite s (2 ^ 52) (e + k + 1) (by decide) := by
  have he : minExponent ≤ e + k := by
    rw [target] at hk
    omega
  have hcarry : nearest m k ≤ 2 ^ 53 := Nat.le_trans nearest_le (div_lt hk)
  rw [roundWithAccuracy, shiftToTargetExponent_eq, hk]
  dsimp only
  rw [roundedMantissa_shiftRight]
  generalize nearest m k = q at hcarry
  by_cases hq : q < 2 ^ 53
  · rw [shiftToTargetExponent_of_lt hq he]
    simp only [if_pos hq]
    rfl
  · obtain rfl : q = 2 ^ 53 := by omega
    rw [shiftToTargetExponent_carry he]
    rfl

/-! ## Canonical forms -/

/-- A mantissa and an exponent as they come out of a rounding: the mantissa has 53 bits, unless the
exponent is the least one. -/
structure Canonical (m : Nat) (e : Int) : Prop where
  lt : m < 2 ^ 53
  least : minExponent ≤ e
  full : 2 ^ 52 ≤ m ∨ e = minExponent

/-- A zero, or a canonical form that the format has room for. -/
inductive Proper : UnpackedFloat → Prop
  | zero {s : Sign} : Proper (.zero s)
  | finite {s : Sign} {m : Nat} {e : Int} {hm : 0 < m} (canonical : Canonical m e) (le : e ≤ 971) :
      Proper (.finite s m e hm)

theorem Proper.isFinite {u : UnpackedFloat} (h : Proper u) : u.isFinite = true := by
  cases h <;> rfl

theorem Proper.neg {u : UnpackedFloat} (h : Proper u) : Proper u.neg := by
  cases h with
  | zero => exact .zero
  | finite canonical le => exact .finite canonical le

/-! ## Packing -/

theorem finite_congr {s : Sign} {m m' : Nat} {e e' : Int} {hm : 0 < m} {hm' : 0 < m'} (h : m = m')
    (he : e = e') : UnpackedFloat.finite s m e hm = .finite s m' e' hm' := by
  subst h he
  rfl

theorem toNat_leadingOne (v : BitVec 52) : (1#1 ++ v).toNat = 2 ^ 52 + v.toNat := by
  rw [BitVec.toNat_append, ← Nat.shiftLeft_add_eq_or_of_lt v.isLt]
  rfl

section

variable {b : BitVec Format.binary64.numBits}

theorem unpack_subnormal (hm : 0 < m) (hexponent : unpackExponent b = 0#11)
    (hsign : .ofBitVec (unpackSign b) = s) (hmantissa : (unpackMantissa b).toNat = m) :
    UnpackedFloat.unpack Format.binary64 b = .finite s m minExponent hm := by
  have hfield : ((unpackExponent b).toNat : Int) = 0 := by
    rw [hexponent]
    rfl
  have hlast : unpackExponent b ≠ -1#11 := by
    rw [hexponent]
    decide
  have hzero : unpackMantissa b ≠ 0#52 := by
    intro h
    rw [h] at hmantissa
    exact Nat.ne_of_gt hm hmantissa.symm
  subst hsign
  delta UnpackedFloat.unpack
  dsimp only
  rw [if_neg hlast, if_pos hexponent, dif_neg hzero]
  refine finite_congr hmantissa ?_
  rw [hfield]
  rfl

theorem unpack_normal (hm : 0 < m) (hlast : unpackExponent b ≠ -1#11)
    (hfirst : unpackExponent b ≠ 0#11) (hsign : .ofBitVec (unpackSign b) = s)
    (hmantissa : 2 ^ 52 + (unpackMantissa b).toNat = m)
    (hexponent : ((unpackExponent b).toNat : Int) - 1075 = e) :
    UnpackedFloat.unpack Format.binary64 b = .finite s m e hm := by
  subst hsign
  delta UnpackedFloat.unpack
  dsimp only
  rw [if_neg hlast, if_neg hfirst]
  exact finite_congr ((toNat_leadingOne _).trans hmantissa) hexponent

end

theorem sign_packComponents (s : Sign) (exponent : BitVec 11) (mantissa : BitVec 52) :
    .ofBitVec (unpackSign (packComponents Format.binary64 s exponent mantissa)) = s := by
  rw [unpackSign_packComponents, Sign.ofBitVec_toBitVec]

/-- Packing keeps what the format has room for. -/
theorem Proper.unpack_pack {u : UnpackedFloat} (h : Proper u) :
    (Float.Model.pack u).unpack = u := by
  show UnpackedFloat.unpack Format.binary64 (UnpackedFloat.pack Format.binary64 u) = u
  cases h with
  | @zero s => cases s <;> rfl
  | @finite s m e hm canonical le =>
    obtain ⟨hlt, hleast, hfull⟩ := canonical
    rw [minExponent] at hleast
    by_cases hnormal : 2 ^ 52 ≤ m
    · have hbits : m.log2 + 1 = Format.binary64.mantissaBits :=
        congrArg (· + 1) ((Nat.log2_eq_iff (Nat.ne_of_gt hm)).2 ⟨hnormal, hlt⟩)
      obtain ⟨exponent, hpack, hlast, hfield⟩ := @pack_full m e s hm hbits le
      have hfirst : exponent ≠ 0#11 := by
        rintro rfl
        have hzero : (0#11).toNat = 0 := rfl
        omega
      rw [hpack]
      refine unpack_normal hm ?_ ?_ (sign_packComponents s exponent _) ?_ ?_
      · rwa [unpackExponent_packComponents]
      · rwa [unpackExponent_packComponents]
      · rw [unpackMantissa_packComponents, BitVec.toNat_ofNat]
        show 2 ^ 52 + m % 2 ^ 52 = m
        omega
      · rw [unpackExponent_packComponents, hfield]
        omega
    · have he : e = minExponent := hfull.resolve_left hnormal
      have hlog : m.log2 < 52 := (Nat.log2_lt (Nat.ne_of_gt hm)).2 (by omega)
      have hbits : m.log2 + 1 ≠ Format.binary64.mantissaBits := by
        rw [mantissaBits_binary64]
        omega
      have hfits : ¬ 2 ^ 11 ≤ (e + (1023 : Nat) + (52 : Nat)).toNat + 1 := by omega
      have hpack : UnpackedFloat.pack Format.binary64 (.finite s m e hm)
          = packComponents Format.binary64 s 0 (.ofNat 52 m) :=
        (if_neg hfits).trans (if_neg hbits)
      subst he
      rw [hpack]
      refine unpack_subnormal hm ?_ (sign_packComponents s _ _) ?_
      · exact unpackExponent_packComponents
      · rw [unpackMantissa_packComponents, BitVec.toNat_ofNat]
        exact Nat.mod_eq_of_lt (Nat.lt_of_not_le hnormal)

/-! ## Parts -/

/-- The parts of an unpacked number. -/
def unpackedParts? : UnpackedFloat → Option Parts
  | .zero s => some ⟨s == .negative, 0, minExponent⟩
  | .finite s m e _ => some ⟨s == .negative, m, e⟩
  | .infinity _ | .notANumber => none

section

variable (b : BitVec Format.binary64.numBits)

theorem toNat_unpackMantissa : (unpackMantissa b).toNat = b.toNat % leastNormal := by
  simp [unpackMantissa, leastNormal]

theorem toNat_unpackExponent : (unpackExponent b).toNat = b.toNat / leastNormal % 2048 := by
  simp [unpackExponent, leastNormal, Nat.shiftRight_eq_div_pow]

theorem sign_eq :
    (Sign.ofBitVec (unpackSign b) == .negative) = decide (signWeight ≤ b.toNat) := by
  have hlt : b.toNat < 2 ^ 64 := b.isLt
  have hbit : (unpackSign b).toNat = b.toNat / signWeight % 2 := by
    simp [unpackSign, signWeight, Nat.shiftRight_eq_div_pow]
  by_cases hsign : unpackSign b = 0#1
  · rw [hsign] at hbit ⊢
    have hzero : (0#1).toNat = 0 := rfl
    have hsmall : ¬ signWeight ≤ b.toNat := by
      rw [signWeight] at *
      omega
    exact (decide_eq_false hsmall).symm
  · have hone : unpackSign b = 1#1 := (BitVec.eq_zero_or_eq_one _).resolve_left hsign
    rw [hone] at hbit ⊢
    have hone : (1#1).toNat = 1 := rfl
    have hlarge : signWeight ≤ b.toNat := by
      rw [signWeight] at *
      omega
    exact (decide_eq_true hlarge).symm

theorem unpack_last (h : unpackExponent b = -1#11) :
    unpackedParts? (UnpackedFloat.unpack Format.binary64 b) = none := by
  delta UnpackedFloat.unpack
  dsimp only
  rw [if_pos h]
  split <;> rfl

theorem unpack_zero (hexponent : unpackExponent b = 0#11) (hmantissa : unpackMantissa b = 0#52) :
    UnpackedFloat.unpack Format.binary64 b = .zero (.ofBitVec (unpackSign b)) := by
  have hlast : unpackExponent b ≠ -1#11 := by
    rw [hexponent]
    decide
  delta UnpackedFloat.unpack
  dsimp only
  rw [if_neg hlast, if_pos hexponent, dif_pos hmantissa]

end

/-- The bits of a number hold the parts of its unpacked form. -/
theorem parts?_eq (x : Float) : parts? x = unpackedParts? x.toModel.unpack := by
  obtain ⟨b, hb⟩ : ∃ b : BitVec Format.binary64.numBits, x.toModel.toBits.toBitVec = b := ⟨_, rfl⟩
  have hbits : x.toBits.toNat = b.toNat := congrArg BitVec.toNat hb
  show _ = unpackedParts? (UnpackedFloat.unpack Format.binary64 x.toModel.toBits.toBitVec)
  rw [hb]
  unfold parts?
  dsimp only
  rw [hbits, ← toNat_unpackMantissa, ← toNat_unpackExponent, ← sign_eq]
  by_cases hlast : unpackExponent b = -1#11
  · have htoNat : (unpackExponent b).toNat = 2047 := congrArg BitVec.toNat hlast
    rw [if_pos htoNat, unpack_last b hlast]
  have hne : (unpackExponent b).toNat ≠ 2047 := fun h => hlast (BitVec.eq_of_toNat_eq h)
  rw [if_neg hne]
  by_cases hfirst : unpackExponent b = 0#11
  · have htoNat : (unpackExponent b).toNat = 0 := congrArg BitVec.toNat hfirst
    rw [if_pos htoNat]
    by_cases hmantissa : unpackMantissa b = 0#52
    · rw [unpack_zero b hfirst hmantissa, hmantissa]
      rfl
    · have hpos : 0 < (unpackMantissa b).toNat :=
        Nat.pos_of_ne_zero fun h => hmantissa (BitVec.eq_of_toNat_eq h)
      rw [unpack_subnormal hpos hfirst rfl rfl]
      rfl
  · have hnat : (unpackExponent b).toNat ≠ 0 := fun h => hfirst (BitVec.eq_of_toNat_eq h)
    have hpos : 0 < 2 ^ 52 + (unpackMantissa b).toNat := Nat.add_pos_left (by decide) _
    rw [if_neg hnat, unpack_normal hpos hlast hfirst rfl rfl rfl]
    rfl

/-- What is unpacked with parts is a canonical form. -/
theorem proper_unpack {b : BitVec Format.binary64.numBits} {p : Parts}
    (h : unpackedParts? (UnpackedFloat.unpack Format.binary64 b) = some p) :
    Proper (UnpackedFloat.unpack Format.binary64 b) := by
  have hmantissa : (unpackMantissa b).toNat < 2 ^ 52 := (unpackMantissa b).isLt
  have hexponent : (unpackExponent b).toNat < 2 ^ 11 := (unpackExponent b).isLt
  by_cases hlast : unpackExponent b = -1#11
  · rw [unpack_last b hlast] at h
    cases h
  by_cases hfirst : unpackExponent b = 0#11
  · by_cases hzero : unpackMantissa b = 0#52
    · rw [unpack_zero b hfirst hzero]
      exact .zero
    · have hpos : 0 < (unpackMantissa b).toNat :=
        Nat.pos_of_ne_zero fun h => hzero (BitVec.eq_of_toNat_eq h)
      rw [unpack_subnormal hpos hfirst rfl rfl]
      exact .finite ⟨by omega, Int.le_refl _, .inr rfl⟩ (by decide)
  · have hpos : 0 < 2 ^ 52 + (unpackMantissa b).toNat := Nat.add_pos_left (by decide) _
    have hnonzero : (unpackExponent b).toNat ≠ 0 := fun h => hfirst (BitVec.eq_of_toNat_eq h)
    have hsmall : (unpackExponent b).toNat ≠ 2047 := fun h => hlast (BitVec.eq_of_toNat_eq h)
    rw [unpack_normal hpos hlast hfirst rfl rfl rfl]
    exact .finite ⟨by omega, by rw [minExponent]; omega, .inl (Nat.le_add_right _ _)⟩ (by omega)

end Binary64
end TreeFlow
