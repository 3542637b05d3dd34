import TreeFlow.Expression
import TreeFlow.Proofs.Binary64.Numeral
import TreeFlow.Proofs.Binary64.Whole
import TreeFlow.Proofs.Component.Integral
/-
Integer expressions on integers.

An expression computes with numbers, so an integer that goes into it is the nearest number from
there on.  Where the integers that an expression of sums, differences and products goes through are
all values of numbers, its steps are exact, and the integer comes out again.  And nothing else can
come out: every integer result is the value of a number, so an integer with more significant bits
than a number has is changed by every expression that should leave it as it is.
-/

namespace TreeFlow
namespace Expression

open Binary64 (HasValue Representable Short)
open Component (Fits)

/-! ## Integer expressions -/

/-- What is built from the variable and integer literals by signs, sums, differences and
products. -/
inductive Polynomial where
  | x
  | literal (n : Nat)
  | plus (a : Polynomial)
  | minus (a : Polynomial)
  | add (a b : Polynomial)
  | sub (a b : Polynomial)
  | mul (a b : Polynomial)

namespace Polynomial

/-- The formula that a polynomial is read as.  A plus sign leaves no trace. -/
def formula : Polynomial → Formula
  | .x => .variable
  | .literal n => .number (Binary64.ofDecimal n 0)
  | .plus a => a.formula
  | .minus a => .negate a.formula
  | .add a b => .binary .add a.formula b.formula
  | .sub a b => .binary .sub a.formula b.formula
  | .mul a b => .binary .mul a.formula b.formula

/-- The exact value at `v`. -/
def value (v : Int) : Polynomial → Int
  | .x => v
  | .literal n => n
  | .plus a => a.value v
  | .minus a => -a.value v
  | .add a b => a.value v + b.value v
  | .sub a b => a.value v - b.value v
  | .mul a b => a.value v * b.value v

/-- The exact values of all subexpressions at `v`. -/
def values (v : Int) : Polynomial → List Int
  | .x => [v]
  | .literal n => [n]
  | .plus a => a.value v :: a.values v
  | .minus a => -a.value v :: a.values v
  | .add a b => (a.value v + b.value v) :: (a.values v ++ b.values v)
  | .sub a b => (a.value v - b.value v) :: (a.values v ++ b.values v)
  | .mul a b => (a.value v * b.value v) :: (a.values v ++ b.values v)

variable {v : Int} {a : Polynomial}

theorem value_mem_values (a : Polynomial) (v : Int) : a.value v ∈ a.values v := by
  cases a <;> exact List.mem_cons_self

/-- Evaluation is exact as long as all values on the way are those of numbers. -/
theorem hasValue_eval (h : ∀ n ∈ a.values v, Representable (n : ℚ)) :
    HasValue (a.formula.eval (Float.ofInt v)) (a.value v : Int) := by
  have hvalue := h _ (value_mem_values a v)
  induction a with
  | x => exact Binary64.hasValue_ofInt hvalue
  | literal n => exact Binary64.hasValue_ofDecimal hvalue
  | plus a ih => exact ih (fun n hn => h n (List.mem_cons_of_mem _ hn)) hvalue
  | minus a ih =>
    have ha := fun n hn => h n (List.mem_cons_of_mem _ hn)
    have hneg := (ih ha (ha _ (value_mem_values a v))).neg
    rwa [← Int.cast_neg] at hneg
  | add a b iha ihb =>
    have ha := fun n hn => h n (List.mem_cons_of_mem _ (List.mem_append_left _ hn))
    have hb := fun n hn => h n (List.mem_cons_of_mem _ (List.mem_append_right _ hn))
    rw [value, Int.cast_add] at hvalue ⊢
    exact (iha ha (ha _ (value_mem_values a v))).add (ihb hb (hb _ (value_mem_values b v))) hvalue
  | sub a b iha ihb =>
    have ha := fun n hn => h n (List.mem_cons_of_mem _ (List.mem_append_left _ hn))
    have hb := fun n hn => h n (List.mem_cons_of_mem _ (List.mem_append_right _ hn))
    rw [value, Int.cast_sub] at hvalue ⊢
    exact (iha ha (ha _ (value_mem_values a v))).sub (ihb hb (hb _ (value_mem_values b v))) hvalue
  | mul a b iha ihb =>
    have ha := fun n hn => h n (List.mem_cons_of_mem _ (List.mem_append_left _ hn))
    have hb := fun n hn => h n (List.mem_cons_of_mem _ (List.mem_append_right _ hn))
    rw [value, Int.cast_mul] at hvalue ⊢
    exact (iha ha (ha _ (value_mem_values a v))).mul (ihb hb (hb _ (value_mem_values b v))) hvalue

end Polynomial

/-! ## Integers that come out -/

/-- What the bound on integer results says about a value. -/
theorem abs_lt_iff_of_hasValue {x : Float} {n : Int} (h : HasValue x n) :
    x.abs < 9223372036854775808 ↔ -9223372036854775808 < n ∧ n < 9223372036854775808 := by
  have hbound : HasValue (9223372036854775808 : Float) ((9223372036854775808 : Nat) : ℚ) :=
    Binary64.hasValue_ofNat ⟨1, 63, by decide, by decide, by decide, by norm_num⟩
  rw [h.abs.lt_iff hbound, abs_lt]
  constructor
  · rintro ⟨hlow, hhigh⟩
    exact ⟨by exact_mod_cast hlow, by exact_mod_cast hhigh⟩
  · rintro ⟨hlow, hhigh⟩
    exact ⟨by exact_mod_cast hlow, by exact_mod_cast hhigh⟩

theorem toInt_toInt64 {x : Float} {n : Int} (h : HasValue x n) (hlow : -9223372036854775808 < n)
    (hhigh : n < 9223372036854775808) : (Binary64.toInt64 .towardZero x).toInt = n := by
  rw [Binary64.toInt64, h.toInt]
  exact Binary64.saturate_of_le (Int.le_of_lt hlow) (Int.le_of_lt_add_one hhigh)

/-- A number below `2 ^ 63` in magnitude whose value is an integer comes out as that integer. -/
theorem integral_of_hasValue {x : Float} {n : Int} (h : HasValue x n)
    (hlow : -9223372036854775808 < n) (hhigh : n < 9223372036854775808) :
    ∃ w, integral x = .integer w ∧ w.toInt = n := by
  have hbound := (abs_lt_iff_of_hasValue h).2 ⟨hlow, hhigh⟩
  refine ⟨_, ?_, toInt_toInt64 h hlow hhigh⟩
  rw [integral, if_pos (by simp [h.isWhole, hbound])]

/-- Every integer that comes out is the value of a number. -/
theorem short_of_integral {x : Float} {w : Int64} (h : integral x = .integer w) :
    Short w.toInt := by
  rw [integral] at h
  split at h
  next hcond =>
    rw [Bool.and_eq_true, decide_eq_true_iff] at hcond
    obtain ⟨n, hn⟩ := Binary64.exists_hasValue hcond.1
    obtain ⟨hlow, hhigh⟩ := (abs_lt_iff_of_hasValue hn).1 hcond.2
    obtain rfl := Item.integer.inj h
    rw [toInt_toInt64 hn hlow hhigh]
    exact Binary64.short_of_representable hn.representable
  next => cases h

/-! ## Applications -/

/-- The expressions that should leave integers as they are: `x`, `x + 0` and `x * 1`. -/
def identities : List Polynomial := [.x, .add .x (.literal 0), .mul .x (.literal 1)]

theorem applyTo_of_short {a : Polynomial} {v : Int64} {e : Expression} (he : e.formula = a.formula)
    (hvalues : ∀ n ∈ a.values v.toInt, Fits n ∧ Short n)
    (hlowest : a.value v.toInt ≠ Int64.minValue.toInt) :
    ∃ w, e.applyTo (.integer v) = .integer w ∧ w.toInt = a.value v.toInt := by
  have hrepresentable : ∀ n ∈ a.values v.toInt, Representable (n : ℚ) := by
    intro n hn
    obtain ⟨hfits, hshort⟩ := hvalues n hn
    rw [Component.fits_iff] at hfits
    exact hshort.representable (by omega)
  obtain ⟨hlow, hhigh⟩ := Component.fits_iff.1 (hvalues _ (a.value_mem_values v.toInt)).1
  have hvalue := Polynomial.hasValue_eval hrepresentable
  rw [← he] at hvalue
  have hne : a.value v.toInt ≠ -9223372036854775808 := hlowest
  exact integral_of_hasValue hvalue (by omega) (by omega)

theorem identities_values {a : Polynomial} (ha : a ∈ identities) (v : Int) :
    a.value v = v ∧ ∀ n ∈ a.values v, n = v ∨ n = 0 ∨ n = 1 := by
  simp only [identities, List.mem_cons, List.not_mem_nil, or_false] at ha
  obtain rfl | rfl | rfl := ha <;> simp [Polynomial.value, Polynomial.values]

/-- An expression of integer literals, signs, sums, differences and products takes an integer to its
exact value if the exact values of all subexpressions are words of at most 53 significant bits; the
lowest word, as a result, is left out.  So the expressions `x`, `x + 0` and `x * 1` leave any other
integer as it is exactly if it has at most 53 significant bits. -/
theorem polynomial_exact :
    (∀ (a : Polynomial) (v : Int64) (e : Expression), e.formula = a.formula →
      (∀ n ∈ a.values v.toInt, Fits n ∧ Short n) → a.value v.toInt ≠ Int64.minValue.toInt →
      ∃ w, e.applyTo (.integer v) = .integer w ∧ w.toInt = a.value v.toInt) ∧
    ∀ a ∈ identities, ∀ (v : Int64) (e : Expression), e.formula = a.formula →
      v ≠ Int64.minValue → (e.applyTo (.integer v) = .integer v ↔ Short v.toInt) := by
  refine ⟨fun a v e he hvalues hlowest => applyTo_of_short he hvalues hlowest,
    fun a ha v e he hv => ⟨short_of_integral, fun hshort => ?_⟩⟩
  obtain ⟨hvalue, hvalues⟩ := identities_values ha v.toInt
  have hall : ∀ n ∈ a.values v.toInt, Fits n ∧ Short n := by
    intro n hn
    obtain rfl | rfl | rfl := hvalues n hn
    · exact ⟨⟨v.minValue_le_toInt, v.toInt_le⟩, hshort⟩
    · exact ⟨by decide, 0, 0, by decide, rfl⟩
    · exact ⟨by decide, 1, 0, by decide, rfl⟩
  have hlowest : a.value v.toInt ≠ Int64.minValue.toInt := by
    rw [hvalue]
    exact fun h => hv (Int64.toInt_inj.1 h)
  obtain ⟨w, happly, hw⟩ := applyTo_of_short he hall hlowest
  rw [happly, Int64.toInt_inj.1 (hw.trans hvalue)]

namespace Sample

/-- The lowest word and 1024: a sum of 53 significant bits. -/
def raised : Polynomial := .add .x (.literal 1024)

def raisedExpression : Expression := ⟨"x+1024", raised.formula⟩

end Sample

theorem polynomial_exact_sample :
    parse "x+1024" = .ok Sample.raisedExpression ∧
    Sample.raisedExpression.formula = Sample.raised.formula ∧
    (∀ n ∈ Sample.raised.values Int64.minValue.toInt, Fits n ∧ Short n) ∧
    Sample.raised.value Int64.minValue.toInt ≠ Int64.minValue.toInt ∧
    (∃ w, Sample.raisedExpression.applyTo (.integer Int64.minValue) = .integer w ∧
      w.toInt = Sample.raised.value Int64.minValue.toInt) := by
  have hvalues : ∀ n ∈ Sample.raised.values Int64.minValue.toInt, Fits n ∧ Short n := by
    intro n hn
    obtain rfl | rfl | rfl : n = -9223372036854774784 ∨ n = -9223372036854775808 ∨ n = 1024 := by
      simpa [Sample.raised, Polynomial.values, Polynomial.value] using hn
    · exact ⟨by decide, 2 ^ 53 - 1, 10, by decide, by decide⟩
    · exact ⟨by decide, 1, 63, by decide, by decide⟩
    · exact ⟨by decide, 1024, 0, by decide, by decide⟩
  exact ⟨by decide +kernel, rfl, hvalues, by decide,
    polynomial_exact.1 _ _ _ rfl hvalues (by decide)⟩

/-- An integer of 54 significant bits is changed by the expression `x`, as its value fits a word. -/
theorem variable_not_exact :
    ∃ e, parse "x" = .ok e ∧ e.formula = Polynomial.x.formula ∧
      (∀ n ∈ Polynomial.x.values (9007199254740993 : Int64).toInt, Fits n) ∧
      ¬ ∃ w, e.applyTo (.integer 9007199254740993) = .integer w ∧
        w.toInt = Polynomial.x.value (9007199254740993 : Int64).toInt := by
  have happly : (⟨"x", .variable⟩ : Expression).applyTo (.integer 9007199254740993)
      = .integer 9007199254740992 := by
    decide +kernel
  refine ⟨⟨"x", .variable⟩, by decide +kernel, rfl, by decide, ?_⟩
  rw [happly]
  rintro ⟨w, hw, hvalue⟩
  cases hw
  exact absurd hvalue (by decide)

end Expression
end TreeFlow
