import TreeFlow.Component.Parameter
import TreeFlow.Proofs.Binary64.Numeral
import TreeFlow.Proofs.Binary64.Overflow
import TreeFlow.Proofs.Component.Integral
/-
Integers from texts.

A text is read as an integer, and failing that as a number that is rounded.  So the numeral of an
integer out of the range of words is not refused: it is read as the nearest number, and the
conversion to a word saturates.  Only a numeral so large that the number is infinite gives nothing.
-/

namespace TreeFlow
namespace Item

open Binary64 (HasValue overflow saturate)
open Component (Fits word? fits_iff)
open Text (Padded)

variable {k : Int} {n : Nat} {s : String}

/-! ## Saturation -/

theorem saturate_of_fits (h : Fits k) : saturate k = Int64.ofInt k :=
  Int64.toInt_inj.1 ((Binary64.saturate_of_le h.1 h.2).trans
    (Int64.toInt_ofInt_of_le h.1 (Int.lt_of_le_of_lt h.2 (by decide))).symm)

theorem saturate_of_ge (h : Int64.maxValue.toInt ≤ k) : saturate k = Int64.maxValue := by
  rw [saturate, Int.min_eq_left h]
  rfl

theorem saturate_of_le (h : k ≤ Int64.minValue.toInt) : saturate k = Int64.minValue := by
  have hle : k ≤ Int64.maxValue.toInt := Int.le_trans h (by decide)
  rw [saturate, Int.min_eq_right hle, Int.max_eq_left h]
  rfl

/-- What the integer with the numeral of `k` is read as: the nearest word, but nothing for an
integer that is converted to infinity. -/
def nearestWord? (k : Int) : Option Int64 :=
  if k.natAbs < overflow then some (saturate k) else none

theorem natAbs_lt_overflow (h : Fits k) : k.natAbs < overflow := by
  have hrange := fits_iff.1 h
  have hlog : k.natAbs.log2 ≤ 64 := Binary64.log2_le_of_lt (by omega)
  exact Binary64.lt_carry (by omega)

theorem nearestWord?_of_fits (h : Fits k) : nearestWord? k = some (Int64.ofInt k) := by
  rw [nearestWord?, if_pos (natAbs_lt_overflow h), saturate_of_fits h]

/-! ## Numerals -/

theorem integer?_text (h : Padded (toString k).toList s.toList) :
    (Item.text s).integer? = (word? k).or
      ((Binary64.numeral? (toString k).toList).bind integerOfFloat?) := by
  have hword : Text.int64? (toString k).toList = word? k := by
    rw [Text.int64?, Text.integer?_toString, Option.filter_some, word?]
    by_cases hfits : Int64.minValue.toInt ≤ k ∧ k ≤ Int64.maxValue.toInt
    · rw [if_pos (by simpa using hfits), if_pos hfits]
      rfl
    · rw [if_neg (by simpa using hfits), if_neg hfits]
      rfl
  rw [integer?, Text.trimmed_toString h, hword]

/-- A number of magnitude `2 ^ 63` or more is converted to the last word on its side. -/
theorem integerOfFloat?_of_hasValue {x : Float} {v : Int} (h : HasValue x v) :
    integerOfFloat? x = some (saturate v) := by
  rw [integerOfFloat?, if_pos h.isFinite, Binary64.toInt64, h.toInt]

/-- A numeral beyond the words is read as a number, if it is not refused for being infinite. -/
theorem integerOfFloat?_ofNat (hn : 9223372036854775808 ≤ n) :
    integerOfFloat? (Float.ofNat n) = nearestWord? n ∧
      integerOfFloat? (-Float.ofNat n) = nearestWord? (-n) := by
  have hlong : 2 ^ 53 ≤ n := Nat.le_trans (by decide) hn
  rw [nearestWord?, nearestWord?, Int.natAbs_neg, Int.natAbs_natCast]
  by_cases hfinite : n < overflow
  · obtain ⟨v, hv, hlow⟩ := Binary64.exists_hasValue_ofNat hlong hfinite
    have hlog : 63 ≤ n.log2 := (Nat.le_log2 (by omega)).2 hn
    have hge : 9223372036854775808 ≤ v :=
      Nat.le_trans (Nat.pow_le_pow_right two_pos hlog) hlow
    have hneg := hv.neg
    rw [← Int.cast_neg] at hneg
    rw [if_pos hfinite, if_pos hfinite, integerOfFloat?_of_hasValue hv,
      integerOfFloat?_of_hasValue hneg]
    have hmax : Int64.maxValue.toInt = 9223372036854775807 := rfl
    have hmin : Int64.minValue.toInt = -9223372036854775808 := rfl
    constructor
    · rw [saturate_of_ge (by omega), saturate_of_ge (by omega)]
    · rw [saturate_of_le (by omega), saturate_of_le (by omega)]
  · obtain ⟨hpos, hneg⟩ := Binary64.isFinite_ofNat hlong hfinite
    rw [if_neg hfinite, if_neg hfinite, integerOfFloat?, integerOfFloat?, hpos, hneg]
    exact ⟨rfl, rfl⟩

theorem integer?_numeral (h : Padded (toString k).toList s.toList) :
    (Item.text s).integer? = nearestWord? k := by
  rw [integer?_text h]
  by_cases hfits : Fits k
  · obtain ⟨w, hword, hw⟩ := Component.exists_word hfits
    rw [hword, nearestWord?_of_fits hfits, ← hw, Int64.ofInt_toInt]
    rfl
  · rw [Component.word?_eq_none hfits, Option.none_or]
    rw [fits_iff] at hfits
    cases k with
    | ofNat n =>
      have hn : 9223372036854775808 ≤ n := by
        rw [Int.ofNat_eq_natCast] at hfits
        omega
      have hdigits := Text.digits?_eq_some_iff.1 (Text.digits?_toDigits n)
      rw [Text.toList_ofNat, (Binary64.numeral?_digits hdigits).1, Binary64.ofDecimal_zero]
      exact (integerOfFloat?_ofNat hn).1
    | negSucc n =>
      have hn : 9223372036854775808 ≤ n + 1 := by
        rw [Int.negSucc_eq] at hfits
        omega
      have hdigits := Text.digits?_eq_some_iff.1 (Text.digits?_toDigits (n + 1))
      rw [Text.toList_negSucc, (Binary64.numeral?_digits hdigits).2, Binary64.ofDecimal_zero]
      exact (integerOfFloat?_ofNat hn).2

theorem nearestWord?_eq_word?_iff : nearestWord? k = word? k ↔ Fits k ∨ overflow ≤ k.natAbs := by
  by_cases hfits : Fits k
  · have hword : word? k = some (Int64.ofInt k) := if_pos hfits
    simp [nearestWord?_of_fits hfits, hword, hfits]
  · simp [nearestWord?, Component.word?_eq_none hfits, hfits]

/-! ## Readers of integers -/

/-- The numeral of an integer, in any padding, is read as the nearest word by all readers of
integers: the view, the parameter and the arguments of calls.  It is refused, as an integer out of
range should be, only where it is too large for any number. -/
theorem integer?_exact_iff (k : Int) (s : String) (h : Padded (toString k).toList s.toList) :
    (Item.text s).integer? = nearestWord? k ∧
    Component.Parameter.integer.coerce? (.text s) = (nearestWord? k).map Item.integer ∧
    (∀ args i input, Component.argument args i = .item (.text s) →
      Component.integerAt args i input
        = (nearestWord? k).elim (.error (.wrongForm input .integer (.text s))) .ok) ∧
    (nearestWord? k = word? k ↔ Fits k ∨ overflow ≤ k.natAbs) := by
  have hview := integer?_numeral h
  refine ⟨hview, ?_, fun args i input hargument => ?_, nearestWord?_eq_word?_iff⟩
  · show (Item.text s).integer?.map Item.integer = _
    rw [hview]
  · rw [Component.integerAt, Component.formed, hargument]
    dsimp only
    rw [hview]
    cases nearestWord? k <;> rfl

theorem integer?_exact_iff_sample :
    Padded (toString (-9223372036854775809 : Int)).toList "\t-9223372036854775809 ".toList ∧
    (Item.text "\t-9223372036854775809 ").integer? = nearestWord? (-9223372036854775809) ∧
    Component.Parameter.integer.coerce? (.text "\t-9223372036854775809 ")
      = (nearestWord? (-9223372036854775809)).map Item.integer ∧
    (∀ args i input,
      Component.argument args i = .item (.text "\t-9223372036854775809 ") →
      Component.integerAt args i input = (nearestWord? (-9223372036854775809)).elim
        (.error (.wrongForm input .integer (.text "\t-9223372036854775809 "))) .ok) ∧
    (nearestWord? (-9223372036854775809) = word? (-9223372036854775809) ↔
      Fits (-9223372036854775809) ∨ overflow ≤ (-9223372036854775809 : Int).natAbs) := by
  have h : Padded (toString (-9223372036854775809 : Int)).toList
      "\t-9223372036854775809 ".toList :=
    ⟨['\t'], [' '], List.all_eq_true.1 rfl, List.all_eq_true.1 rfl, by decide⟩
  exact ⟨h, integer?_exact_iff _ _ h⟩

/-- The first integer above the words is read as the last word. -/
theorem numeral_not_refused :
    Padded (toString (9223372036854775808 : Int)).toList "9223372036854775808".toList ∧
    word? 9223372036854775808 = none ∧
    (Item.text "9223372036854775808").integer? = some Int64.maxValue := by
  refine ⟨⟨[], [], nofun, nofun, by decide +kernel⟩, by decide, by decide +kernel⟩

end Item
end TreeFlow
