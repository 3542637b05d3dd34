import TreeFlow.Binary64.Layout
import TreeFlow.Proofs.Binary64.Numeral
import TreeFlow.Proofs.Binary64.Whole
/-
Numbers as decimals.

A finite number is an integer over a power of two, `2 ^ 1074` at most, and so one over the same
power of ten.  The numeral of that integer, with a point at its place, is read as the number itself:
the quotient that it stands for comes out exact (`denotes_div`), and a number other than zero is
determined by its value (`HasValue.unique`).
-/

namespace TreeFlow
namespace Binary64

open Float.Model (Format UnpackedFloat totalExponent)
open Float.Model.UnpackedFloat

variable {x y : Float} {u v : UnpackedFloat} {m m' n j k : Nat} {e e' : Int} {q : ℚ}

/-! ## Exact quotients -/

/-- The bits that a dividend is extended by: the quotient then has 53 bits at least, or the format
has no further places for it. -/
def extension (m m' : Nat) : Nat := (-max ((m.log2 : Int) - m'.log2 - 53) minExponent).toNat

theorem divCore_eq (h : m * 2 ^ extension m m' = k * m') (hm' : 0 < m') :
    divCore Format.binary64 m 0 m' 0 = (k, -(extension m m' : Int), .exact) := by
  have htarget : Format.binary64.targetExponent (totalExponent m 0 - totalExponent m' 0)
      = max ((m.log2 : Int) - m'.log2 - 53) minExponent := by
    simp only [Format.targetExponent, totalExponent, mantissaBits_binary64, Format.minExponent,
      minExponent]
    omega
  have hexponent : min ((0 : Int) - 0) (max ((m.log2 : Int) - m'.log2 - 53) minExponent)
      = -(extension m m' : Int) := by
    rw [extension]
    omega
  have hshift : ((0 : Int) - 0 - -(extension m m' : Int)).toNat = extension m m' := by omega
  simp only [divCore, htarget, hexponent, hshift, Nat.shiftLeft_eq, h, Nat.mul_div_cancel _ hm',
    Nat.mul_mod_left]
  rfl

/-- An extended dividend with a representable quotient leaves no rest. -/
theorem exists_quotient (hm : 0 < m) (hm' : 0 < m') (h : Representable ((m : ℚ) / m')) :
    ∃ k, m * 2 ^ extension m m' = k * m' := by
  obtain ⟨M, E, hM, hleast, -, hvalue⟩ := h
  have hne : (m' : ℚ) ≠ 0 := Nat.cast_ne_zero.2 (Nat.ne_of_gt hm')
  rw [abs_of_nonneg (div_nonneg m.cast_nonneg m'.cast_nonneg), div_eq_iff hne] at hvalue
  have hscaled : (m : ℚ) * 2 ^ (0 : Int) = (M * m' : Nat) * 2 ^ E := by
    rw [zpow_zero, mul_one, hvalue]
    push_cast
    ring
  have hbits : M * m' < 2 ^ (53 + (m'.log2 + 1)) := by
    rw [Nat.pow_add]
    exact Nat.mul_lt_mul'' hM Nat.lt_log2_self
  have hlog := log2_add_lt (Nat.ne_of_gt hm) hbits hscaled
  have hzero : -(extension m m' : Int) ≤ 0 := by omega
  have hexponent : -(extension m m' : Int) ≤ E := by
    rw [extension]
    omega
  rw [natCast_mul_zpow m hzero, natCast_mul_zpow _ hexponent, natCast_mul_zpow_inj] at hscaled
  rw [show ((0 : Int) - -(extension m m' : Int)).toNat = extension m m' by omega,
    Nat.mul_right_comm] at hscaled
  exact ⟨_, hscaled⟩

theorem quotient_pos (hm : 0 < m) (h : m * 2 ^ extension m m' = k * m') : 0 < k := by
  have hpos := Nat.mul_pos hm (Nat.two_pow_pos (extension m m'))
  exact Nat.pos_of_mul_pos_right (h ▸ hpos)

theorem le_quotient (hm : 0 < m) (h : m * 2 ^ extension m m' = k * m')
    (hfull : minExponent < -(extension m m' : Int)) : 2 ^ 52 ≤ k := by
  have hlog : 53 + m'.log2 ≤ m.log2 + extension m m' := by
    rw [extension] at hfull ⊢
    omega
  refine Nat.le_of_lt (Nat.lt_of_mul_lt_mul_right (a := 2 ^ (m'.log2 + 1)) ?_)
  calc 2 ^ 52 * 2 ^ (m'.log2 + 1) = 2 ^ (53 + m'.log2) := by ring
    _ ≤ 2 ^ (m.log2 + extension m m') := Nat.pow_le_pow_right (by decide) hlog
    _ = 2 ^ m.log2 * 2 ^ extension m m' := Nat.pow_add _ _ _
    _ ≤ m * 2 ^ extension m m' := Nat.mul_le_mul_right _ (Nat.log2_self_le (Nat.ne_of_gt hm))
    _ = k * m' := h
    _ < k * 2 ^ (m'.log2 + 1) := Nat.mul_lt_mul_of_pos_left Nat.lt_log2_self (quotient_pos hm h)

/-- A quotient of integers is exact if it is representable. -/
theorem denotes_div (hm : 0 < m) (hm' : 0 < m') (h : Representable ((m : ℚ) / m')) :
    Denotes (UnpackedFloat.div Format.binary64 (.finite .positive m 0 hm)
      (.finite .positive m' 0 hm')) (m / m') := by
  obtain ⟨k, hk⟩ := exists_quotient hm hm' h
  have hvalue : (m : ℚ) / m' = (Sign.positive.apply k : Int) * 2 ^ (-(extension m m' : Int)) := by
    have hne : (m' : ℚ) ≠ 0 := Nat.cast_ne_zero.2 (Nat.ne_of_gt hm')
    rw [div_eq_iff hne, mul_right_comm, zpow_neg, zpow_natCast, ← div_eq_mul_inv,
      eq_div_iff (pow_ne_zero _ two_ne_zero)]
    show (m : ℚ) * 2 ^ extension m m' = ((k : Int) : ℚ) * m'
    exact_mod_cast hk
  show Denotes (let (m, e, a) := divCore Format.binary64 m 0 m' 0
    roundWithAccuracy Format.binary64 .positive m e a) _
  rw [divCore_eq hk hm']
  rw [hvalue] at h ⊢
  refine denotes_roundWithAccuracy (quotient_pos hm hk) ?_ h
  by_cases hfull : minExponent < -(extension m m' : Int)
  · exact le_target (le_quotient hm hk hfull) _
  · rw [target]
    omega

/-! ## Decimals -/

/-- A decimal with more places than the table of powers of ten has is found as a quotient. -/
theorem ofDecimal_places (hn : 0 < n) (hj : 22 < j) (hguard : j ≤ n.log2 / 3 + 402) :
    ofDecimal n (-j) = Float.ofModel (Float.Model.pack (UnpackedFloat.div Format.binary64
      (.finite .positive n 0 hn) (.finite .positive (10 ^ j) 0 (Nat.pow_pos (by decide))))) := by
  obtain ⟨i, rfl⟩ := Nat.exists_eq_succ_of_ne_zero (Nat.ne_of_gt (Nat.zero_lt_of_lt hj))
  unfold ofDecimal
  rw [if_neg (Nat.ne_of_gt hn), if_neg (by omega), if_neg (by omega)]
  show Float.ofScientific n true (i + 1) = _
  rw [Float.ofScientific, dif_neg (by omega)]
  refine congrArg (fun u => Float.ofModel (Float.Model.pack u)) ?_
  have hbits : (2 : Int) ^ Format.binary64.exponentBits = 2048 := rfl
  show UnpackedFloat.ofScientific Format.binary64 n (-(i + 1 : Nat)) = _
  rw [UnpackedFloat.ofScientific, dif_neg (Nat.ne_of_gt hn), hbits, if_neg (by omega),
    if_neg (by omega), if_neg (by omega)]
  simp only [Int.neg_neg, Int.toNat_natCast]

theorem hasValue_ofDecimal_places (hn : 0 < n) (hj : 22 < j) (hguard : j ≤ n.log2 / 3 + 402)
    (h : Representable ((n : ℚ) / 10 ^ j)) : HasValue (ofDecimal n (-j)) (n / 10 ^ j) := by
  have hcast : ((10 ^ j : Nat) : ℚ) = 10 ^ j := by push_cast; rfl
  rw [ofDecimal_places hn hj hguard]
  rw [← hcast] at h ⊢
  exact (denotes_div hn _ h).pack

/-- What is written in positional notation reads as the decimal. -/
theorem numeral?_positionalChars (layout : Layout) (n j : Nat) :
    numeral? (layout.positionalChars (Nat.toDigits 10 n) (.negSucc j))
      = some (ofDecimal n (.negSucc j)) := by
  have hdigits : ∀ c ∈ Nat.toDigits 10 n, c.isDigit = true := fun _ => Text.isDigit_of_mem_numeral
  have hvalue : Nat.ofDigitChars 10 (Nat.toDigits 10 n) 0 = n := Nat.ofDigitChars_ten_toDigits
  have hplaces : Int.negSucc j = -((j + 1 : Nat) : Int) := rfl
  simp only [Layout.positionalChars]
  generalize Nat.toDigits 10 n = digits at hdigits hvalue
  split
  next hlt =>
    have hne : digits.take (digits.length - (j + 1)) ≠ [] := by
      rw [Ne, List.take_eq_nil_iff]
      rintro (h | rfl)
      · omega
      · cases hlt
    rw [numeral?_point hne (fun c hc => hdigits c (List.mem_of_mem_take hc))
      fun c hc => hdigits c (List.mem_of_mem_drop hc), List.take_append_drop, hvalue,
      List.length_drop, hplaces]
    congr 3
    omega
  next hle =>
    have hzeros : ∀ c ∈ zeros (j + 1 - digits.length) ++ digits, c.isDigit = true := by
      intro c hc
      obtain hc | hc := List.mem_append.1 hc
      · rw [List.eq_of_mem_replicate hc]
        rfl
      · exact hdigits c hc
    show numeral? (['0'] ++ '.' :: (zeros _ ++ digits)) = _
    rw [numeral?_point (List.cons_ne_nil _ _) (List.all_eq_true.1 rfl) hzeros, hplaces]
    have hread : Nat.ofDigitChars 10 (['0'] ++ (zeros (j + 1 - digits.length) ++ digits)) 0
        = n := by
      rw [Nat.ofDigitChars_append, Nat.ofDigitChars_append, zeros,
        Nat.ofDigitChars_replicate_zero]
      exact hvalue
    rw [hread, List.length_append, zeros, List.length_replicate]
    congr 3
    omega

/-! ## Uniqueness -/

theorem eq_of_unpack_eq (h : x.toModel.unpack = y.toModel.unpack) : x = y := by
  have hbits := (unpack_inj_of_valid x.toModel.valid y.toModel.valid).1 h
  exact Float.toBits_inj.1 (UInt64.toBitVec_inj.1 hbits)

theorem Canonical.unique (h : Canonical m e) (h' : Canonical m' e')
    (hvalue : (m : ℚ) * 2 ^ e = m' * 2 ^ e') : m = m' ∧ e = e' := by
  obtain hlt | rfl | hgt := lt_trichotomy e e'
  · exact absurd hvalue (h.lt_of_exponent_lt h' hlt).ne
  · exact ⟨natCast_mul_zpow_inj.1 hvalue, rfl⟩
  · exact absurd hvalue (h'.lt_of_exponent_lt h hgt).ne'

theorem Denotes.unique (hu : Denotes u q) (hv : Denotes v q) (hq : q ≠ 0) : u = v := by
  obtain ⟨hproper, rfl⟩ := hu
  obtain ⟨hproper', hvalue⟩ := hv
  cases hproper with
  | zero => exact absurd rfl hq
  | @finite s m e hm canonical =>
    cases hproper' with
    | zero => exact absurd hvalue.symm hq
    | @finite s' m' e' hm' canonical' =>
      have habs := congrArg (fun r : ℚ => |r|) hvalue
      simp only [valueOf, abs_sign_apply] at habs
      obtain ⟨rfl, rfl⟩ := canonical'.unique canonical habs
      have hpos := valueOf_positive_pos (e := e') hm
      cases s <;> cases s'
      · rfl
      · rw [valueOf_negative] at hvalue
        exact absurd hvalue (neg_lt_self hpos).ne'
      · rw [valueOf_negative] at hvalue
        exact absurd hvalue (neg_lt_self hpos).ne
      · rfl

/-- A number other than zero is determined by its value. -/
theorem HasValue.unique (hx : HasValue x q) (hy : HasValue y q) (hq : q ≠ 0) : x = y :=
  eq_of_unpack_eq (Denotes.unique hx hy hq)

/-- A finite number whose sign bit is not set is zero, or has the value of its parts. -/
theorem eq_zero_or_hasValue (h : parts? x = some ⟨false, m, e⟩) :
    (m = 0 ∧ x = 0) ∨ (0 < m ∧ minExponent ≤ e ∧ HasValue x (m * 2 ^ e)) := by
  rw [parts?_eq] at h
  have hproper : Proper x.toModel.unpack := proper_unpack h
  cases hu : x.toModel.unpack with
  | zero s =>
    rw [hu] at h
    cases s with
    | positive =>
      cases h
      exact .inl ⟨rfl, eq_of_unpack_eq hu⟩
    | negative => cases h
  | finite s m' e' hm' =>
    rw [hu] at h hproper
    cases s with
    | positive =>
      cases h
      have hvalue : HasValue x (m * 2 ^ e) := ⟨hu ▸ hproper, by rw [hu]; rfl⟩
      cases hproper with
      | finite canonical => exact .inr ⟨hm', canonical.least, hvalue⟩
    | negative => cases h
  | infinity | notANumber =>
    rw [hu] at h
    cases h

/-! ## Numerals of numbers -/

/-- The digits of `m · 2 ^ e` with a number of decimal places. -/
def digitsWithPlaces (m : Nat) (e : Int) (j : Nat) : Nat := m * 2 ^ (e + j).toNat * 5 ^ j

theorem digitsWithPlaces_value (h : -(j : Int) ≤ e) :
    (digitsWithPlaces m e j : ℚ) / 10 ^ j = m * 2 ^ e := by
  have hten : (10 : ℚ) ^ j = 2 ^ j * 5 ^ j := by
    rw [← mul_pow]
    norm_num
  have hfive : (5 : ℚ) ^ j ≠ 0 := pow_ne_zero j (by norm_num)
  rw [natCast_mul_zpow m h, digitsWithPlaces, Int.sub_neg, Nat.cast_mul, Nat.cast_pow 5, hten,
    zpow_neg, zpow_natCast, ← div_eq_mul_inv]
  exact mul_div_mul_right _ _ hfive

/-- With as many places as any number needs, the digits of a number are read as the number. -/
theorem ofDecimal_digitsWithPlaces (hj : minExponent = -j) (h : parts? x = some ⟨false, m, e⟩) :
    ofDecimal (digitsWithPlaces m e j) minExponent = x := by
  obtain ⟨rfl, rfl⟩ | ⟨hm, hleast, hvalue⟩ := eq_zero_or_hasValue h
  · rw [digitsWithPlaces, Nat.zero_mul, Nat.zero_mul]
    rfl
  have hdigits := digitsWithPlaces_value (m := m) (hj ▸ hleast)
  have hscaled : 0 < m * 2 ^ (e + j).toNat := Nat.mul_pos hm (Nat.two_pow_pos _)
  have hpos : 0 < digitsWithPlaces m e j := Nat.mul_pos hscaled (Nat.pow_pos (by decide))
  have hlog : 2 * j ≤ (digitsWithPlaces m e j).log2 := by
    refine (Nat.le_log2 (Nat.ne_of_gt hpos)).2 ?_
    calc 2 ^ (2 * j) = 4 ^ j := by rw [Nat.pow_mul]
      _ ≤ 5 ^ j := Nat.pow_le_pow_left (by decide) _
      _ ≤ digitsWithPlaces m e j := Nat.le_mul_of_pos_left _ hscaled
  have hplaces : j = 1074 := by
    rw [minExponent] at hj
    omega
  have hdecimal := hasValue_ofDecimal_places hpos (by omega) (by omega)
    (hdigits ▸ hvalue.representable)
  rw [hdigits, ← hj] at hdecimal
  have hne : (m : ℚ) * 2 ^ e ≠ 0 :=
    mul_ne_zero (Nat.cast_ne_zero.2 (Nat.ne_of_gt hm)) (zpow_ne_zero e two_ne_zero)
  exact hdecimal.unique hvalue hne

theorem mem_positionalChars {layout : Layout} {digits : List Char} {c : Char}
    (h : c ∈ layout.positionalChars digits (.negSucc j)) : c ∈ digits ∨ c = '0' ∨ c = '.' := by
  simp only [Layout.positionalChars] at h
  split at h
  · simp only [List.mem_append, List.mem_cons] at h
    rcases h with h | rfl | h
    · exact .inl (List.mem_of_mem_take h)
    · exact .inr (.inr rfl)
    · exact .inl (List.mem_of_mem_drop h)
  · simp only [List.mem_cons, List.mem_append, zeros, List.mem_replicate] at h
    tauto

/-- A finite number whose sign bit is not set. -/
def NonNegative (x : Float) : Prop := ∃ m e, parts? x = some ⟨false, m, e⟩

/-- Such a number can be written with digits and a point so that it is read again. -/
theorem NonNegative.exists_numeral (h : NonNegative x) :
    ∃ text, (∀ c ∈ text, c.isDigit = true ∨ c = '.') ∧ numeral? text = some x := by
  obtain ⟨m, e, h⟩ := h
  obtain ⟨j, hj⟩ : ∃ j, minExponent = .negSucc j := ⟨1073, rfl⟩
  have hread := ofDecimal_digitsWithPlaces (j := j + 1) hj h
  refine ⟨plainLayout.positionalChars (Nat.toDigits 10 (digitsWithPlaces m e (j + 1))) (.negSucc j),
    fun c hc => ?_, ?_⟩
  · obtain hc | rfl | rfl := mem_positionalChars hc
    · exact .inl (Text.isDigit_of_mem_numeral hc)
    · exact .inl rfl
    · exact .inr rfl
  · rw [numeral?_positionalChars, ← hj, hread]

end Binary64
end TreeFlow
