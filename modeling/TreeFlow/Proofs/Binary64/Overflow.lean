import TreeFlow.Proofs.Binary64.Whole
/-
Integers beyond 53 bits.

The conversion of a longer integer keeps its first 53 bits, rounded, and counts the others in the
exponent.  So the number is whole and no less than the greatest power of two in the integer, until
the exponent is too large for the format: `overflow` is the least integer that is converted to
infinity.
-/

namespace TreeFlow
namespace Binary64

open Float.Model (Format UnpackedFloat)
open Float.Model.UnpackedFloat

variable {n k : Nat} {x : Float}

/-- The least integer that is rounded to `2 ^ (k + 54)`, half a step below that power. -/
def carry (k : Nat) : Nat := 2 ^ k * (2 ^ 54 - 1)

/-- The least integer that is converted to infinity, `2 ^ 1024 - 2 ^ 970`. -/
def overflow : Nat := carry 970

theorem lt_carry (h : n.log2 < k + 53) : n < carry k := by
  calc n < 2 ^ (n.log2 + 1) := Nat.lt_log2_self
    _ ≤ 2 ^ (k + 53) := Nat.pow_le_pow_right two_pos h
    _ = 2 ^ k * 2 ^ 53 := Nat.pow_add 2 k 53
    _ ≤ carry k := Nat.mul_le_mul_left _ (by decide)

theorem carry_le (hn : n ≠ 0) (h : k + 54 ≤ n.log2) : carry k ≤ n := by
  calc carry k ≤ 2 ^ k * 2 ^ 54 := Nat.mul_le_mul_left _ (by decide)
    _ = 2 ^ (k + 54) := (Nat.pow_add 2 k 54).symm
    _ ≤ 2 ^ n.log2 := Nat.pow_le_pow_right two_pos h
    _ ≤ n := Nat.log2_self_le hn

theorem nearest_shiftLeft (m k j : Nat) : nearest (m <<< j) (k + j) = nearest m k := by
  have hpos := Nat.two_pow_pos j
  have hquotient : m * 2 ^ j / (2 ^ k * 2 ^ j) = m / 2 ^ k := Nat.mul_div_mul_right _ _ hpos
  have hrest : m * 2 ^ j % (2 ^ k * 2 ^ j) = m % 2 ^ k * 2 ^ j := Nat.mul_mod_mul_right _ _ _
  have hlt : 2 ^ k * 2 ^ j < 2 * (m % 2 ^ k * 2 ^ j) ↔ 2 ^ k < 2 * (m % 2 ^ k) := by
    rw [← Nat.mul_assoc]
    exact Nat.mul_lt_mul_right hpos
  have heq : 2 * (m % 2 ^ k * 2 ^ j) = 2 ^ k * 2 ^ j ↔ 2 * (m % 2 ^ k) = 2 ^ k := by
    rw [← Nat.mul_assoc]
    exact Nat.mul_left_inj (Nat.ne_of_gt hpos)
  simp only [nearest, Nat.shiftLeft_eq, Nat.pow_add, hquotient, hrest, hlt, heq]

/-- From `carry` on a mantissa is rounded up to a bit too many. -/
theorem nearest_lt_iff (hn : n.log2 = k + 53) : nearest n (k + 1) < 2 ^ 53 ↔ n < carry k := by
  have hlt : n < 2 ^ 54 * 2 ^ k := by
    rw [← Nat.pow_add, show 54 + k = n.log2 + 1 by omega]
    exact Nat.lt_log2_self
  rw [nearest, carry, Nat.pow_succ']
  have hpos := Nat.two_pow_pos k
  generalize 2 ^ k = unit at *
  have hsplit := Nat.div_add_mod n (2 * unit)
  have hrest := Nat.mod_lt n (Nat.mul_pos two_pos hpos)
  have hquotient : n / (2 * unit) < 2 ^ 53 := by
    refine (Nat.div_lt_iff_lt_mul (Nat.mul_pos two_pos hpos)).2 ?_
    omega
  generalize n / (2 * unit) = q at *
  generalize n % (2 * unit) = r at *
  obtain rfl | hq : q = 2 ^ 53 - 1 ∨ q ≤ 2 ^ 53 - 2 := by omega
  · -- The last mantissa is odd, so half a step above it rounds up.
    split <;> omega
  · have hle : 2 * unit * q ≤ 2 * unit * (2 ^ 53 - 2) := Nat.mul_le_mul_left _ hq
    refine iff_of_true ?_ (by omega)
    split <;> omega

/-! ## Conversion -/

theorem ofNat_eq (hn : 2 ^ 53 ≤ n) :
    Float.ofNat n = .ofModel (.pack (roundWithAccuracy Format.binary64 .positive (n <<< 53) (-53)
      .exact)) := by
  show Float.ofScientific n false 0 = _
  rw [Float.ofScientific, dif_neg (by omega), ← ofScientific_eq (by omega)]
  rfl

/-- A long integer is rounded to a full mantissa and an exponent, which is in the format up to
`overflow`. -/
theorem exists_finite (hn : 2 ^ 53 ≤ n) : ∃ (m : Nat) (e : Int) (hm : 0 < m),
    Float.ofNat n = .ofModel (.pack (.finite .positive m e hm)) ∧ 2 ^ 52 ≤ m ∧ m < 2 ^ 53 ∧
      (n.log2 : Int) ≤ e + 52 ∧ (e ≤ 971 ↔ n < overflow) := by
  have hne : n ≠ 0 := by omega
  have hlog : 53 ≤ n.log2 := (Nat.le_log2 hne).2 hn
  obtain ⟨k, hk⟩ := Nat.exists_eq_add_of_le (Nat.le_of_lt hlog)
  have hshift : (target (n <<< 53) (-53) - -53).toNat = k + 53 := by
    rw [target, log2_shiftLeft hne, minExponent]
    omega
  have hround := roundWithAccuracy_eq .positive hshift
  rw [nearest_shiftLeft] at hround
  have hfull : 2 ^ 52 ≤ nearest n k := Nat.le_trans (le_div hne hk) div_le_nearest
  -- Below and above the last exponent the power of two in the integer decides.
  have hsmall : k ≤ 970 → n < overflow := fun hle => lt_carry (by omega)
  have hlarge : 972 ≤ k → ¬ n < overflow := fun hle => Nat.not_lt.2 (carry_le hne (by omega))
  have hlast : k = 971 → (nearest n k < 2 ^ 53 ↔ n < overflow) := by
    rintro rfl
    exact nearest_lt_iff hk
  have hcases : k ≤ 970 ∨ k = 971 ∨ 972 ≤ k := by omega
  rw [ofNat_eq hn, hround, dif_neg (by omega)]
  by_cases hcarry : nearest n k < 2 ^ 53
  · rw [if_pos hcarry]
    refine ⟨_, _, _, rfl, hfull, hcarry, by omega, ?_⟩
    obtain hk | hk | hk := hcases
    · exact iff_of_true (by omega) (hsmall hk)
    · exact iff_of_true (by omega) ((hlast hk).1 hcarry)
    · exact iff_of_false (by omega) (hlarge hk)
  · rw [if_neg hcarry]
    refine ⟨_, _, _, rfl, Nat.le_refl _, by decide, by omega, ?_⟩
    obtain hk | hk | hk := hcases
    · exact iff_of_true (by omega) (hsmall hk)
    · exact iff_of_false (by omega) fun h => hcarry ((hlast hk).2 h)
    · exact iff_of_false (by omega) (hlarge hk)

/-- A long integer below `overflow` is converted to a whole number of no less than its greatest
power of two. -/
theorem exists_hasValue_ofNat (hn : 2 ^ 53 ≤ n) (h : n < overflow) :
    ∃ v : Nat, HasValue (Float.ofNat n) ((v : Int) : ℚ) ∧ 2 ^ n.log2 ≤ v := by
  obtain ⟨m, e, hm, hofNat, hlow, hhigh, hlog, hmax⟩ := exists_finite hn
  have hlog' : 53 ≤ n.log2 := (Nat.le_log2 (by omega)).2 hn
  obtain ⟨j, rfl⟩ := Int.eq_ofNat_of_zero_le (show 0 ≤ e by omega)
  have hproper : Proper (.finite .positive m j hm) :=
    .finite ⟨hhigh, by rw [minExponent]; omega, .inl hlow⟩ (hmax.2 h)
  refine ⟨m * 2 ^ j, ?_, ?_⟩
  · rw [hofNat]
    exact Denotes.pack ⟨hproper, by simp [valueOf, Sign.apply]⟩
  · calc 2 ^ n.log2 ≤ 2 ^ (52 + j) := Nat.pow_le_pow_right two_pos (by omega)
      _ = 2 ^ 52 * 2 ^ j := Nat.pow_add 2 52 j
      _ ≤ m * 2 ^ j := Nat.mul_le_mul_right _ hlow

theorem HasValue.isFinite {q : ℚ} (h : HasValue x q) : x.isFinite = true := h.proper.isFinite

/-- From `overflow` on an integer is converted to infinity. -/
theorem isFinite_ofNat (hn : 2 ^ 53 ≤ n) (h : ¬ n < overflow) :
    (Float.ofNat n).isFinite = false ∧ (-Float.ofNat n).isFinite = false := by
  obtain ⟨m, e, hm, hofNat, -, -, -, hmax⟩ := exists_finite hn
  have hlarge : 2 ^ 11 ≤ (e + (1023 : Nat) + (52 : Nat)).toNat + 1 := by
    have hexponent := mt hmax.1 h
    omega
  have hpack : UnpackedFloat.pack Format.binary64 (.finite .positive m e hm)
      = UnpackedFloat.pack Format.binary64 (.infinity .positive) := if_pos hlarge
  have hmodel : Float.ofNat n = .ofModel (.pack (.infinity .positive)) := by
    simp only [hofNat, Float.Model.pack, hpack]
  rw [hmodel]
  exact ⟨rfl, rfl⟩

end Binary64
end TreeFlow
