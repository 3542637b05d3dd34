import TreeFlow.Proofs.Binary64.Rounding
/-
Exact arithmetic.

A sum, a difference or a product of numbers comes out exact if there is a number with its value at
all: rounding a representable value drops nothing but zeros.  Values are rational numbers here, and
`Denotes` says which value a number has; both zeros have the value zero.
-/

namespace TreeFlow
namespace Binary64

open Float.Model (Format UnpackedFloat totalExponent)
open Float.Model.UnpackedFloat

variable {u v : UnpackedFloat} {s s' : Sign} {m m' k : Nat} {e e' : Int} {p q : ℚ}

/-- The value of a finite unpacked number. -/
def valueOf : UnpackedFloat → ℚ
  | .finite s m e _ => s.apply m * 2 ^ e
  | .zero _ | .infinity _ | .notANumber => 0

/-- An unpacked number that the format has room for, and its value. -/
structure Denotes (u : UnpackedFloat) (q : ℚ) : Prop where
  proper : Proper u
  value : valueOf u = q

/-- The values of finite numbers. -/
def Representable (q : ℚ) : Prop :=
  ∃ (m : Nat) (e : Int), m < 2 ^ 53 ∧ minExponent ≤ e ∧ e ≤ 971 ∧ |q| = m * 2 ^ e

theorem denotes_zero (s : Sign) : Denotes (.zero s) 0 := ⟨.zero, rfl⟩

/-! ## Scaling -/

theorem natCast_mul_zpow (n : Nat) (h : e ≤ e') :
    (n : ℚ) * 2 ^ e' = (n * 2 ^ (e' - e).toNat : Nat) * 2 ^ e := by
  obtain ⟨j, rfl⟩ := Int.le.dest h
  rw [show (e + j - e).toNat = j by omega, zpow_add₀ two_ne_zero, zpow_natCast]
  push_cast
  ring

theorem natCast_mul_zpow_inj : (m : ℚ) * 2 ^ e = m' * 2 ^ e ↔ m = m' := by
  rw [mul_left_inj' (zpow_ne_zero e two_ne_zero), Nat.cast_inj]

theorem abs_sign_apply (s : Sign) (m : Nat) (e : Int) :
    |((s.apply m : Int) : ℚ) * 2 ^ e| = m * 2 ^ e := by
  have hpos : (0 : ℚ) < 2 ^ e := zpow_pos two_pos e
  rw [abs_mul, abs_of_pos hpos]
  cases s with
  | positive => simp [Sign.apply]
  | negative => simp [Sign.apply]

theorem sign_apply_congr (s : Sign) (h : (m : ℚ) * 2 ^ e = m' * 2 ^ e') :
    ((s.apply m : Int) : ℚ) * 2 ^ e = (s.apply m' : Int) * 2 ^ e' := by
  cases s with
  | positive => simpa [Sign.apply] using h
  | negative => simpa [Sign.apply] using h

theorem sign_apply_neg (s : Sign) (n : Int) : (-s).apply n = -s.apply n := by
  cases s with
  | positive => rfl
  | negative => exact (Int.neg_neg n).symm

theorem sign_apply_mul (s s' : Sign) (m m' : Nat) :
    (s * s').apply (m * m' : Nat) = s.apply m * s'.apply m' := by
  rw [Int.natCast_mul]
  cases s <;> cases s'
  · exact (Int.neg_mul_neg _ _).symm
  · exact (Int.neg_mul _ _).symm
  · exact (Int.mul_neg _ _).symm
  · rfl

theorem two_zpow_log2_le (hm : m ≠ 0) (e : Int) : (2 : ℚ) ^ (m.log2 + e) ≤ m * 2 ^ e := by
  rw [zpow_add₀ two_ne_zero, zpow_natCast]
  refine mul_le_mul_of_nonneg_right ?_ (zpow_pos two_pos e).le
  exact_mod_cast Nat.log2_self_le hm

theorem lt_two_zpow {n : Nat} (hm : m < 2 ^ n) (e : Int) : (m : ℚ) * 2 ^ e < 2 ^ (n + e) := by
  rw [zpow_add₀ two_ne_zero, zpow_natCast]
  refine mul_lt_mul_of_pos_right ?_ (zpow_pos two_pos e)
  exact_mod_cast hm

/-! ## Rounding -/

/-- Two ways to write a value: the one with few bits has the greater exponent. -/
theorem log2_add_lt {n : Nat} (hm : m ≠ 0) (hm' : m' < 2 ^ n) (h : (m : ℚ) * 2 ^ e = m' * 2 ^ e') :
    m.log2 + e < n + e' := by
  refine (zpow_lt_zpow_iff_right₀ (one_lt_two (α := ℚ))).1 ?_
  calc (2 : ℚ) ^ (m.log2 + e) ≤ m * 2 ^ e := two_zpow_log2_le hm e
    _ = m' * 2 ^ e' := h
    _ < 2 ^ (n + e') := lt_two_zpow hm' e'

/-- A representable value is rounded to itself. -/
theorem denotes_roundWithAccuracy (hm : 0 < m) (he : e ≤ target m e)
    (h : Representable (s.apply m * 2 ^ e)) :
    Denotes (roundWithAccuracy Format.binary64 s m e .exact) (s.apply m * 2 ^ e) := by
  obtain ⟨M, E, hM, hleast, hmax, hvalue⟩ := h
  rw [abs_sign_apply] at hvalue
  have hne : m ≠ 0 := Nat.ne_of_gt hm
  have hlog := log2_add_lt hne hM hvalue
  have htarget : target m e ≤ E := by
    rw [target]
    omega
  obtain ⟨k, hk⟩ := Int.le.dest he
  obtain ⟨j, hj⟩ := Int.le.dest htarget
  have hshift : (target m e - e).toNat = k := by omega
  rw [natCast_mul_zpow M (Int.le_trans he htarget), natCast_mul_zpow_inj,
    show (E - e).toNat = j + k by omega, Nat.pow_add, ← Nat.mul_assoc] at hvalue
  have hdvd : 2 ^ k ∣ m := ⟨M * 2 ^ j, hvalue.trans (Nat.mul_comm _ _)⟩
  have hquotient := nearest_of_dvd hdvd
  have hlt := div_lt hshift
  have hmul : m / 2 ^ k * 2 ^ k = m := Nat.div_mul_cancel hdvd
  have hpos : 0 < m / 2 ^ k := Nat.pos_of_ne_zero fun h => hne (by rw [← hmul, h, Nat.zero_mul])
  have hround : roundWithAccuracy Format.binary64 s m e .exact
      = .finite s (m / 2 ^ k) (target m e) hpos := by
    rw [roundWithAccuracy_eq s hshift, dif_neg (by omega), if_pos (by omega)]
    exact finite_congr hquotient hk
  have hfull : 2 ^ 52 ≤ m / 2 ^ k ∨ target m e = minExponent := by
    by_cases hminimal : target m e = minExponent
    · exact .inr hminimal
    · refine .inl (le_div hne ?_)
      rw [target] at hminimal hk
      omega
  rw [hround]
  refine ⟨.finite ⟨hlt, Int.le_max_right _ _, hfull⟩ (Int.le_trans htarget hmax), ?_⟩
  refine sign_apply_congr s ?_
  rw [natCast_mul_zpow _ he, hshift, hmul]

theorem Representable.neg (h : Representable q) : Representable (-q) := by
  obtain ⟨m, e, hm, hleast, hmax, hq⟩ := h
  exact ⟨m, e, hm, hleast, hmax, by rw [abs_neg, hq]⟩

theorem Denotes.representable (h : Denotes u q) : Representable q := by
  obtain ⟨hproper, rfl⟩ := h
  cases hproper with
  | zero => exact ⟨0, 0, by decide, by decide, by decide, by simp [valueOf]⟩
  | @finite s m e _ canonical le =>
    exact ⟨m, e, canonical.lt, canonical.least, le, abs_sign_apply s m e⟩

theorem Denotes.neg (h : Denotes u q) : Denotes u.neg (-q) := by
  obtain ⟨hproper, rfl⟩ := h
  refine ⟨hproper.neg, ?_⟩
  cases hproper with
  | zero => exact neg_zero.symm
  | @finite s m e =>
    cases s with
    | positive =>
      show ((-(m : Int) : Int) : ℚ) * 2 ^ e = -((m : Int) * 2 ^ e)
      rw [Int.cast_neg, neg_mul]
    | negative =>
      show ((m : Int) : ℚ) * 2 ^ e = -((-(m : Int) : Int) * 2 ^ e)
      rw [Int.cast_neg, neg_mul, neg_neg]

theorem log2_shiftLeft (hm : m ≠ 0) (j : Nat) : (m <<< j).log2 = m.log2 + j := by
  induction j with
  | zero => rfl
  | succ j ih =>
    have hne : m <<< j ≠ 0 := by
      rw [Nat.shiftLeft_eq]
      exact Nat.mul_ne_zero hm (Nat.ne_of_gt (Nat.two_pow_pos j))
    rw [Nat.shiftLeft_succ, Nat.log2_two_mul hne, ih, Nat.add_assoc]

theorem Denotes.abs (h : Denotes u q) : Denotes u.abs |q| := by
  obtain ⟨hproper, rfl⟩ := h
  cases hproper with
  | zero =>
    show Denotes (.zero .positive) |0|
    rw [abs_zero]
    exact denotes_zero _
  | @finite s m e hm canonical le =>
    show Denotes (.finite .positive m e hm) _
    exact ⟨.finite canonical le, (abs_sign_apply s m e).symm⟩

/-- A shift to the left gives a rounding enough bits. -/
theorem denotes_round (hm : 0 < m) (h : Representable (s.apply m * 2 ^ e)) :
    Denotes (UnpackedFloat.round Format.binary64 s m e) (s.apply m * 2 ^ e) := by
  rw [UnpackedFloat.round, targetExponent_eq]
  show Denotes (roundWithAccuracy Format.binary64 s (m <<< (e - target m e).toNat)
    (e - (e - target m e).toNat) .exact) _
  generalize hj : (e - target m e).toNat = j
  have hvalue : (m : ℚ) * 2 ^ e = (m <<< j : Nat) * 2 ^ (e - j) := by
    rw [natCast_mul_zpow m (Int.sub_le_self e (Int.natCast_nonneg j)), Nat.shiftLeft_eq,
      show (e - (e - j)).toNat = j by omega]
  have hpos : 0 < m <<< j := by
    rw [Nat.shiftLeft_eq]
    exact Nat.mul_pos hm (Nat.two_pow_pos j)
  have hlog := log2_shiftLeft (Nat.ne_of_gt hm) j
  rw [sign_apply_congr s hvalue] at h ⊢
  refine denotes_roundWithAccuracy hpos ?_ h
  rw [target] at hj ⊢
  omega

theorem denotes_normalize {n : Int} {zeroSign : Sign} (h : Representable (n * 2 ^ e)) :
    Denotes (UnpackedFloat.normalize Format.binary64 n e zeroSign) (n * 2 ^ e) := by
  rw [UnpackedFloat.normalize]
  split
  next hcompare =>
    have hn := Int.compare_eq_lt.1 hcompare
    have happly : Sign.negative.apply ((-n).toNat : Nat) = n := by
      show -(((-n).toNat : Nat) : Int) = n
      omega
    have hround := denotes_round (s := .negative) (m := (-n).toNat) (e := e) (by omega)
    rw [happly] at hround
    exact hround h
  next hcompare =>
    rw [Int.compare_eq_eq.1 hcompare]
    simpa using denotes_zero zeroSign
  next hcompare =>
    have hn := Int.compare_eq_gt.1 hcompare
    have happly : Sign.positive.apply (n.toNat : Nat) = n := by
      show ((n.toNat : Nat) : Int) = n
      omega
    have hround := denotes_round (s := .positive) (m := n.toNat) (e := e) (by omega)
    rw [happly] at hround
    exact hround h

/-! ## Operations -/

theorem decreaseExponent_value (s : Sign) (m : Nat) (h : e' ≤ e) :
    ((s.apply (decreaseExponent m e e').1 : Int) : ℚ) * 2 ^ e' = s.apply m * 2 ^ e := by
  refine sign_apply_congr s ?_
  rw [natCast_mul_zpow m h, decreaseExponent, Nat.shiftLeft_eq]

theorem Denotes.add (hu : Denotes u p) (hv : Denotes v q) (h : Representable (p + q)) :
    Denotes (UnpackedFloat.add Format.binary64 u v) (p + q) := by
  obtain ⟨hproper, rfl⟩ := hu
  obtain ⟨hproper', rfl⟩ := hv
  cases hproper with
  | @zero s =>
    cases hproper' with
    | @zero s' =>
      show Denotes (if s == s' then .zero s else .zero .positive) (0 + 0)
      rw [add_zero]
      split <;> exact denotes_zero _
    | @finite s' m' e' hm' canonical' le' =>
      show Denotes (.finite s' m' e' hm') (0 + _)
      rw [zero_add]
      exact ⟨.finite canonical' le', rfl⟩
  | @finite s m e hm canonical le =>
    cases hproper' with
    | zero =>
      show Denotes (.finite s m e hm) (_ + 0)
      rw [add_zero]
      exact ⟨.finite canonical le, rfl⟩
    | @finite s' m' e' hm' canonical' le' =>
      have hsum : valueOf (.finite s m e hm) + valueOf (.finite s' m' e' hm')
          = ((s.apply (decreaseExponent m e (min e e')).1
            + s'.apply (decreaseExponent m' e' (min e e')).1 : Int) : ℚ) * 2 ^ min e e' := by
        rw [Int.cast_add, add_mul, decreaseExponent_value s m (Int.min_le_left e e'),
          decreaseExponent_value s' m' (Int.min_le_right e e')]
        rfl
      rw [hsum] at h ⊢
      exact denotes_normalize h

theorem unpacked_sub_eq (u v : UnpackedFloat) :
    UnpackedFloat.sub Format.binary64 u v = UnpackedFloat.add Format.binary64 u v.neg := by
  cases u with
  | notANumber => rfl
  | infinity s => cases v <;> rfl
  | zero s => cases v <;> rfl
  | finite s m e hm =>
    cases v with
    | notANumber => rfl
    | infinity s' => rfl
    | zero s' => rfl
    | finite s' m' e' hm' =>
      show UnpackedFloat.normalize Format.binary64 (_ - s'.apply _) _ _
        = UnpackedFloat.normalize Format.binary64 (_ + (-s').apply _) _ _
      rw [sign_apply_neg, Int.sub_eq_add_neg]

theorem Denotes.sub (hu : Denotes u p) (hv : Denotes v q) (h : Representable (p - q)) :
    Denotes (UnpackedFloat.sub Format.binary64 u v) (p - q) := by
  rw [unpacked_sub_eq]
  rw [sub_eq_add_neg] at h ⊢
  exact hu.add hv.neg h

theorem le_target {n : Nat} (h : 2 ^ 52 ≤ n) (e : Int) : e ≤ target n e := by
  have hlog : 52 ≤ n.log2 := (Nat.le_log2 (by omega)).2 h
  rw [target]
  omega

theorem Denotes.mul (hu : Denotes u p) (hv : Denotes v q) (h : Representable (p * q)) :
    Denotes (UnpackedFloat.mul Format.binary64 u v) (p * q) := by
  obtain ⟨hproper, rfl⟩ := hu
  obtain ⟨hproper', rfl⟩ := hv
  cases hproper with
  | @zero s =>
    cases hproper' with
    | @zero s' =>
      show Denotes (.zero (s * s')) (0 * 0)
      rw [mul_zero]
      exact denotes_zero _
    | @finite s' m' e' hm' canonical' le' =>
      show Denotes (.zero (s * s')) (0 * _)
      rw [zero_mul]
      exact denotes_zero _
  | @finite s m e hm canonical le =>
    cases hproper' with
    | @zero s' =>
      show Denotes (.zero (s * s')) (_ * 0)
      rw [mul_zero]
      exact denotes_zero _
    | @finite s' m' e' hm' canonical' le' =>
      have hproduct : valueOf (.finite s m e hm) * valueOf (.finite s' m' e' hm')
          = (((s * s').apply (m * m' : Nat) : Int) : ℚ) * 2 ^ (e + e') := by
        rw [sign_apply_mul, Int.cast_mul, zpow_add₀ two_ne_zero, mul_mul_mul_comm]
        rfl
      have hbits : e + e' ≤ target (m * m') (e + e') := by
        obtain hfull | hleast := canonical.full
        · exact le_target (Nat.le_trans hfull (Nat.le_mul_of_pos_right m hm')) _
        · obtain hfull | hleast' := canonical'.full
          · exact le_target (Nat.le_trans hfull (Nat.le_mul_of_pos_left m' hm)) _
          · rw [target, hleast, hleast', minExponent]
            omega
      rw [hproduct] at h ⊢
      exact denotes_roundWithAccuracy (Nat.mul_pos hm hm') hbits h

/-! ## Numbers -/

/-- A finite number, and its value. -/
def HasValue (x : Float) (q : ℚ) : Prop := Denotes x.toModel.unpack q

variable {x y : Float}

theorem Denotes.pack (h : Denotes u q) : HasValue (Float.ofModel (Float.Model.pack u)) q := by
  show Denotes (Float.Model.pack u).unpack q
  rwa [h.proper.unpack_pack]

theorem HasValue.neg (h : HasValue x q) : HasValue (-x) (-q) := Denotes.pack (Denotes.neg h)

theorem HasValue.abs (h : HasValue x q) : HasValue x.abs |q| := Denotes.pack (Denotes.abs h)

theorem HasValue.add (hx : HasValue x p) (hy : HasValue y q) (h : Representable (p + q)) :
    HasValue (x + y) (p + q) := (Denotes.add hx hy h).pack

theorem HasValue.sub (hx : HasValue x p) (hy : HasValue y q) (h : Representable (p - q)) :
    HasValue (x - y) (p - q) := (Denotes.sub hx hy h).pack

theorem HasValue.mul (hx : HasValue x p) (hy : HasValue y q) (h : Representable (p * q)) :
    HasValue (x * y) (p * q) := (Denotes.mul hx hy h).pack

/-! ## Integers -/

theorem hasValue_toFloat {w : UInt64} (h : Representable (w.toNat : ℚ)) :
    HasValue w.toFloat w.toNat := by
  have hscaled : ((w.toNat : Int) : ℚ) * 2 ^ (0 : Int) = w.toNat := by simp
  have hnormal : Denotes (UnpackedFloat.ofUInt64 Format.binary64 w) w.toNat := by
    rw [← hscaled] at h ⊢
    exact denotes_normalize h
  exact hnormal.pack

theorem ofScientific_eq {n : Nat} (hn : 0 < n) :
    UnpackedFloat.ofScientific Format.binary64 n 0
      = roundWithAccuracy Format.binary64 .positive (n <<< 53) (-53) .exact := by
  have hbits : (0 : Int) ≤ 2 ^ Format.binary64.exponentBits := by decide
  rw [UnpackedFloat.ofScientific, dif_neg (by omega), if_neg (by decide), if_neg (by omega),
    if_pos (by decide)]
  show roundWithAccuracy Format.binary64 .positive (n <<< 53 * 1) (-53 + 0) .exact = _
  rw [Nat.mul_one, Int.add_zero]

/-- A shift to the left by 53 bits makes up for the exponent. -/
theorem shifted_value (n : Nat) :
    ((Sign.positive.apply (n <<< 53 : Nat) : Int) : ℚ) * 2 ^ (-53 : Int) = n := by
  have hscaled := natCast_mul_zpow (e := -53) n (show (-53 : Int) ≤ 0 by decide)
  rw [zpow_zero, mul_one] at hscaled
  rw [hscaled, Nat.shiftLeft_eq]
  rfl

theorem hasValue_one : HasValue (Float.ofBits 0x3FF0000000000000) 1 := by
  show Denotes (.finite .positive (2 ^ 52) (-52) (by decide)) 1
  exact ⟨.finite ⟨by decide, by decide, .inl (by decide)⟩ (by decide),
    by norm_num [valueOf, Sign.apply]⟩

theorem hasValue_ofScientific {n : Nat} (h : Representable (n : ℚ)) :
    HasValue (Float.ofScientific n false 0) n := by
  rw [Float.ofScientific]
  split
  next hsmall =>
    have hword : n.toUInt64.toNat = n := by
      rw [Nat.toUInt64_eq]
      exact UInt64.toNat_ofNat_of_lt' (Nat.lt_trans hsmall.1 (by decide))
    have hfloat := hasValue_toFloat (w := n.toUInt64) (hword.symm ▸ h)
    rw [hword] at hfloat
    have hproduct := hfloat.mul hasValue_one (by rwa [mul_one])
    rwa [mul_one] at hproduct
  next hlarge =>
    have hpos : 0 < n := by omega
    have hshifted := Nat.mul_pos hpos (Nat.two_pow_pos 53)
    rw [← Nat.shiftLeft_eq] at hshifted
    refine Denotes.pack (u := UnpackedFloat.ofScientific Format.binary64 n 0) ?_
    rw [ofScientific_eq hpos]
    rw [← shifted_value n] at h ⊢
    refine denotes_roundWithAccuracy hshifted (le_target ?_ _) h
    rw [Nat.shiftLeft_eq]
    omega

theorem hasValue_ofNat {n : Nat} (h : Representable (n : ℚ)) : HasValue (Float.ofNat n) n :=
  hasValue_ofScientific h

theorem hasValue_ofInt {n : Int} (h : Representable (n : ℚ)) : HasValue (Float.ofInt n) n := by
  cases n with
  | ofNat n => exact hasValue_ofNat h
  | negSucc n =>
    have hneg : ((Int.negSucc n : Int) : ℚ) = -((n + 1 : Nat) : ℚ) := Int.cast_negSucc n
    rw [hneg] at h ⊢
    exact (hasValue_ofNat (neg_neg ((n + 1 : Nat) : ℚ) ▸ h.neg)).neg

/-- An integer of at most 53 significant bits. -/
def Short (n : Int) : Prop := ∃ m k : Nat, m < 2 ^ 53 ∧ n.natAbs = m * 2 ^ k

theorem Short.representable {n : Int} (h : Short n) (hsize : n.natAbs < 2 ^ 64) :
    Representable (n : ℚ) := by
  obtain ⟨m, k, hm, hn⟩ := h
  have habs : |(n : ℚ)| = m * 2 ^ k := by
    rw [← Int.cast_abs, Int.abs_eq_natAbs, hn]
    push_cast
    rfl
  by_cases hzero : m = 0
  · exact ⟨0, 0, by decide, by decide, by decide, by simp [habs, hzero]⟩
  · have hk : 2 ^ k < 2 ^ 64 :=
      Nat.lt_of_le_of_lt (Nat.le_mul_of_pos_left _ (Nat.pos_of_ne_zero hzero)) (hn ▸ hsize)
    have hlt : k < 64 := (Nat.pow_lt_pow_iff_right (by decide)).1 hk
    exact ⟨m, k, hm, by rw [minExponent]; omega, by omega, habs⟩

theorem short_of_representable {n : Int} (h : Representable (n : ℚ)) : Short n := by
  obtain ⟨m, e, hm, -, -, hn⟩ := h
  rw [← Int.cast_abs, Int.abs_eq_natAbs] at hn
  have hscaled : (n.natAbs : ℚ) * 2 ^ (0 : Int) = m * 2 ^ e := by
    rw [zpow_zero, mul_one]
    exact hn
  obtain hpos | hneg := Int.le_total 0 e
  · rw [natCast_mul_zpow m hpos, natCast_mul_zpow_inj] at hscaled
    exact ⟨m, _, hm, hscaled⟩
  · rw [natCast_mul_zpow n.natAbs hneg, natCast_mul_zpow_inj] at hscaled
    have hle : n.natAbs ≤ m := hscaled ▸ Nat.le_mul_of_pos_right _ (Nat.two_pow_pos _)
    exact ⟨n.natAbs, 0, Nat.lt_of_le_of_lt hle hm, by rw [Nat.pow_zero, Nat.mul_one]⟩

end Binary64
end TreeFlow
