import TreeFlow.Binary64.Whole
import TreeFlow.Proofs.Binary64.Exact
/-
Whole numbers.

A number whose value is an integer is rounded to that integer in every way, and no other number
counts as whole.  Between numbers of known value comparison goes by the value.
-/

namespace TreeFlow
namespace Binary64

open Float.Model (Format UnpackedFloat)
open Float.Model.UnpackedFloat

variable {x y : Float} {p q : ℚ}

/-! ## Whole numbers -/

/-- The magnitude of parts that stand for a whole number is that number. -/
theorem Parts.whole_of_value {p : Parts} {n : Nat} (h : (p.mantissa : ℚ) * 2 ^ p.exponent = n) :
    p.isWhole = true ∧ ∀ mode, p.whole mode = n := by
  obtain ⟨negative, m, e⟩ := p
  have hscaled : (n : ℚ) * 2 ^ (0 : Int) = m * 2 ^ e := by
    rw [zpow_zero, mul_one]
    exact h.symm
  cases e with
  | ofNat e =>
    rw [Int.ofNat_eq_natCast, natCast_mul_zpow m (Int.natCast_nonneg e), natCast_mul_zpow_inj]
      at hscaled
    refine ⟨rfl, fun mode => ?_⟩
    rw [hscaled]
    exact Nat.shiftLeft_eq m e
  | negSucc e =>
    rw [natCast_mul_zpow n (Int.le_of_lt (Int.negSucc_lt_zero e)), natCast_mul_zpow_inj] at hscaled
    have hunit : m = n * (1 <<< (e + 1)) := by
      rw [← hscaled, Nat.one_shiftLeft, Int.zero_sub, Int.neg_negSucc]
      rfl
    have hpos : 0 < 1 <<< (e + 1) := by
      rw [Nat.one_shiftLeft]
      exact Nat.two_pow_pos _
    have hrest : m % (1 <<< (e + 1)) = 0 := by rw [hunit, Nat.mul_mod_left]
    refine ⟨by simp [Parts.isWhole, hrest], fun mode => ?_⟩
    have hraises : mode.raises negative 0 (1 <<< (e + 1)) = false := by
      cases mode <;> simp [Rounding.raises]
    simp only [Parts.whole, hrest, hraises]
    rw [hunit, Nat.mul_div_cancel _ hpos]
    rfl

theorem natAbs_of_value {s : Sign} {m : Nat} {e n : Int} (h : (s.apply m : Int) * (2 : ℚ) ^ e = n) :
    (m : ℚ) * 2 ^ e = n.natAbs := by
  rw [← abs_sign_apply s m e, h, ← Int.cast_abs, Int.abs_eq_natAbs]
  rfl

/-- The parts of a number with an integer for its value. -/
theorem HasValue.exists_parts {n : Int} (h : HasValue x n) :
    ∃ p, parts? x = some p ∧ (p.mantissa : ℚ) * 2 ^ p.exponent = n.natAbs ∧
      (if p.negative then -(n.natAbs : Int) else n.natAbs) = n := by
  rw [HasValue] at h
  rw [parts?_eq]
  obtain ⟨hproper, hvalue⟩ := h
  generalize x.toModel.unpack = u at hproper hvalue
  cases hproper with
  | @zero s =>
    obtain rfl : n = 0 := Int.cast_eq_zero.1 hvalue.symm
    exact ⟨_, rfl, by simp, by simp⟩
  | @finite s m e hm =>
    have habs := natAbs_of_value hvalue
    refine ⟨_, rfl, habs, ?_⟩
    cases s with
    | positive =>
      show (n.natAbs : Int) = n
      refine Int.cast_injective (α := ℚ) ?_
      rw [Int.cast_natCast, ← habs, ← hvalue]
      rfl
    | negative =>
      show -(n.natAbs : Int) = n
      refine Int.cast_injective (α := ℚ) ?_
      rw [Int.cast_neg, Int.cast_natCast, ← habs, ← hvalue, ← neg_mul]
      show _ = ((-(m : Int) : Int) : ℚ) * 2 ^ e
      rw [Int.cast_neg]
      rfl

theorem HasValue.isWhole {n : Int} (h : HasValue x n) : Binary64.isWhole x = true := by
  obtain ⟨p, hp, hvalue, -⟩ := h.exists_parts
  rw [Binary64.isWhole, hp]
  exact (Parts.whole_of_value hvalue).1

theorem HasValue.toInt {n : Int} (h : HasValue x n) (mode : Rounding) :
    Binary64.toInt mode x = n := by
  obtain ⟨p, hp, hvalue, hn⟩ := h.exists_parts
  rw [Binary64.toInt, hp]
  dsimp only
  rw [(Parts.whole_of_value hvalue).2 mode, hn]

theorem Parts.exists_of_isWhole {p : Parts} (h : p.isWhole = true) :
    ∃ n : Nat, (p.mantissa : ℚ) * 2 ^ p.exponent = n := by
  obtain ⟨negative, m, e⟩ := p
  cases e with
  | ofNat e =>
    refine ⟨m * 2 ^ e, ?_⟩
    push_cast
    rfl
  | negSucc e =>
    have hrest : m % (1 <<< (e + 1)) = 0 := beq_iff_eq.1 h
    rw [Nat.one_shiftLeft] at hrest
    obtain ⟨n, rfl⟩ := Nat.dvd_of_mod_eq_zero hrest
    refine ⟨n, ?_⟩
    have hscaled := natCast_mul_zpow (e := Int.negSucc e) n (Int.le_of_lt (Int.negSucc_lt_zero e))
    rw [zpow_zero, mul_one, Int.zero_sub, Int.neg_negSucc, Nat.mul_comm] at hscaled
    exact hscaled.symm

/-- A number that counts as whole has an integer for its value. -/
theorem exists_hasValue (h : isWhole x = true) : ∃ n : Int, HasValue x n := by
  rw [isWhole, parts?_eq] at h
  cases hparts : unpackedParts? x.toModel.unpack with
  | none =>
    rw [hparts] at h
    cases h
  | some p =>
    rw [hparts] at h
    obtain ⟨n, hn⟩ := Parts.exists_of_isWhole h
    have hproper : Proper x.toModel.unpack := proper_unpack hparts
    simp only [HasValue]
    generalize x.toModel.unpack = u at hparts hproper
    cases hproper with
    | @zero s => exact ⟨0, Int.cast_zero (R := ℚ) ▸ denotes_zero s⟩
    | @finite s m e hm canonical le =>
      obtain rfl := Option.some.inj hparts
      have hscaled : (m : ℚ) * 2 ^ e = n * 2 ^ (0 : Int) := by
        rw [zpow_zero, mul_one]
        exact hn
      refine ⟨s.apply n, .finite canonical le, (sign_apply_congr s hscaled).trans ?_⟩
      rw [zpow_zero, mul_one]

/-! ## Comparison -/

section

variable {m m' : Nat} {e e' : Int}

theorem Canonical.lt_of_exponent_lt (h : Canonical m e) (h' : Canonical m' e') (he : e < e') :
    (m : ℚ) * 2 ^ e < m' * 2 ^ e' := by
  have hfull : 2 ^ 52 ≤ m' := h'.full.resolve_right (by have := h.least; omega)
  have hlog : 52 ≤ m'.log2 := (Nat.le_log2 (by omega)).2 hfull
  calc (m : ℚ) * 2 ^ e < 2 ^ ((53 : Nat) + e) := lt_two_zpow h.lt e
    _ ≤ 2 ^ (m'.log2 + e') := zpow_le_zpow_right₀ one_le_two (by omega)
    _ ≤ m' * 2 ^ e' := two_zpow_log2_le (by omega) e'

/-- Canonical forms are compared by the exponents first. -/
theorem Canonical.compare_eq_lt_iff (h : Canonical m e) (h' : Canonical m' e') :
    (compare e e').then (compare m m') = .lt ↔ (m : ℚ) * 2 ^ e < m' * 2 ^ e' := by
  obtain hlt | rfl | hgt := lt_trichotomy e e'
  · have hvalue := h.lt_of_exponent_lt h' hlt
    simp [compare_lt_iff_lt.2 hlt, hvalue]
  · have hpos : (0 : ℚ) < 2 ^ e := zpow_pos two_pos e
    rw [mul_lt_mul_iff_of_pos_right hpos, Nat.cast_lt, compare_eq_iff_eq.2 rfl]
    exact compare_lt_iff_lt
  · have hvalue := h'.lt_of_exponent_lt h hgt
    simp [compare_gt_iff_gt.2 hgt, hvalue.le]

end

theorem valueOf_positive_pos {m : Nat} {e : Int} (hm : 0 < m) :
    0 < valueOf (.finite .positive m e hm) :=
  mul_pos (Int.cast_pos.2 (Int.natCast_pos.2 hm)) (zpow_pos two_pos e)

theorem valueOf_negative {m : Nat} {e : Int} (hm : 0 < m) :
    valueOf (.finite .negative m e hm) = -valueOf (.finite .positive m e hm) := by
  show ((-(m : Int) : Int) : ℚ) * 2 ^ e = -((m : Int) * 2 ^ e)
  rw [Int.cast_neg, neg_mul]

theorem lt_eq_true_iff {u v : UnpackedFloat} : u.lt v = true ↔ u.compare v = some .lt := beq_iff_eq

/-- Numbers are compared by their values. -/
theorem Proper.lt_iff {u v : UnpackedFloat} (hu : Proper u) (hv : Proper v) :
    u.lt v = true ↔ valueOf u < valueOf v := by
  have hzero : ∀ s, valueOf (.zero s) = 0 := fun _ => rfl
  rw [lt_eq_true_iff]
  cases hu with
  | @zero s =>
    rw [hzero]
    cases hv with
    | @zero s' => simp [UnpackedFloat.compare, hzero]
    | @finite s' m' e' hm' canonical' =>
      have hpos := valueOf_positive_pos (e := e') hm'
      cases s' with
      | positive => simp [UnpackedFloat.compare, hpos]
      | negative => simp [UnpackedFloat.compare, valueOf_negative, hpos.le]
  | @finite s m e hm canonical =>
    have hpos := valueOf_positive_pos (e := e) hm
    cases hv with
    | @zero s' =>
      rw [hzero]
      cases s with
      | positive => simp [UnpackedFloat.compare, hpos.le]
      | negative => simp [UnpackedFloat.compare, valueOf_negative, hpos]
    | @finite s' m' e' hm' canonical' =>
      have hpos' := valueOf_positive_pos (e := e') hm'
      cases s <;> cases s'
      · rw [valueOf_negative, valueOf_negative, neg_lt_neg_iff]
        show some ((compare e e').then (compare m m')).swap = some .lt ↔ _
        rw [Option.some_inj, Ordering.swap_then, ← Std.OrientedOrd.eq_swap,
          ← Std.OrientedOrd.eq_swap]
        exact canonical'.compare_eq_lt_iff canonical
      · have hlt : valueOf (.finite .negative m e hm) < valueOf (.finite .positive m' e' hm') := by
          rw [valueOf_negative]
          exact (neg_lt_zero.2 hpos).trans hpos'
        exact iff_of_true rfl hlt
      · have hlt : valueOf (.finite .negative m' e' hm') < valueOf (.finite .positive m e hm) := by
          rw [valueOf_negative]
          exact (neg_lt_zero.2 hpos').trans hpos
        exact iff_of_false nofun hlt.not_gt
      · show some ((compare e e').then (compare m m')) = some .lt ↔ _
        rw [Option.some_inj]
        exact canonical.compare_eq_lt_iff canonical'

theorem HasValue.lt_iff (hx : HasValue x p) (hy : HasValue y q) : x < y ↔ p < q := by
  rw [← hx.value, ← hy.value, ← hx.proper.lt_iff hy.proper]
  show decide (x.toModel < y.toModel) = true ↔ _
  rw [decide_eq_true_iff]
  rfl

end Binary64
end TreeFlow
