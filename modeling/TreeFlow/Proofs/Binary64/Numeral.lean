import TreeFlow.Binary64.Numeral
import TreeFlow.Proofs.Binary64.Exact
import TreeFlow.Proofs.Text.Numeral
/-
Numerals of digits.

A numeral of digits, with a point behind some of them or none, has neither sign nor exponent and is
no word, so it reads as the decimal that is written.
-/

namespace TreeFlow
namespace Binary64

variable {whole places rest : List Char} {n : Nat} {c : Char}

/-- The words for numbers start with one of two letters. -/
theorem word?_eq_none (hi : c.toLower ≠ 'i') (hn : c.toLower ≠ 'n') : word? (c :: rest) = none := by
  have hne : ∀ d ds, c.toLower ≠ d →
      String.ofList (c.toLower :: rest.map Char.toLower) ≠ String.ofList (d :: ds) :=
    fun d ds hd h => hd (List.cons.inj (String.ofList_inj.1 h)).1
  simp only [word?, List.map_cons]
  rw [if_neg, if_neg]
  · simpa using hne 'n' ['a', 'n'] hn
  · simp only [Bool.or_eq_true, decide_eq_true_eq, not_or]
    exact ⟨hne 'i' ['n', 'f'] hi, hne 'i' ['n', 'f', 'i', 'n', 'i', 't', 'y'] hi⟩

theorem toLower_of_isDigit (hc : c.isDigit = true) : c.toLower ≠ 'i' ∧ c.toLower ≠ 'n' := by
  have hlower : ∀ d < 10, d.digitChar.toLower ≠ 'i' ∧ d.digitChar.toLower ≠ 'n' := by decide
  obtain ⟨d, hd, rfl⟩ := Text.exists_digitChar hc
  exact hlower d hd

/-- A numeral that starts with a digit or a point has no sign and is no word. -/
theorem numeral?_cons (hc : c.isDigit = true ∨ c = '.') (rest : List Char) :
    numeral? (c :: rest) = decimal? (c :: rest) ∧ unsigned? (c :: rest) = decimal? (c :: rest) := by
  have hlower : c.toLower ≠ 'i' ∧ c.toLower ≠ 'n' := by
    obtain hc | rfl := hc
    · exact toLower_of_isDigit hc
    · decide
  have hsign : c ≠ '+' ∧ c ≠ '-' := by
    obtain hc | rfl := hc
    · exact Text.isDigit_ne_sign hc
    · decide
  have hunsigned : unsigned? (c :: rest) = decimal? (c :: rest) := by
    rw [unsigned?, word?_eq_none hlower.1 hlower.2, Option.none_or]
  refine ⟨?_, hunsigned⟩
  unfold numeral?
  split
  next heq => exact absurd (List.cons.inj heq).1 hsign.1
  next heq => exact absurd (List.cons.inj heq).1 hsign.2
  next => exact hunsigned

theorem splitDigits_append (hwhole : ∀ c ∈ whole, c.isDigit = true) (rest : List Char)
    (hrest : rest.head?.all (fun c => !c.isDigit)) :
    splitDigits (whole ++ rest) = (whole, rest) := by
  have hstop : rest.takeWhile Char.isDigit = [] ∧ rest.dropWhile Char.isDigit = rest := by
    cases rest with
    | nil => exact ⟨rfl, rfl⟩
    | cons c rest =>
      have hc : c.isDigit = false := by simpa using hrest
      exact ⟨List.takeWhile_cons_of_neg (by simp [hc]), List.dropWhile_cons_of_neg (by simp [hc])⟩
  rw [splitDigits, List.takeWhile_append_of_pos hwhole, List.dropWhile_append_of_pos hwhole,
    hstop.1, hstop.2, List.append_nil]

theorem decimal?_digits (hne : whole ≠ []) (hwhole : ∀ c ∈ whole, c.isDigit = true) :
    decimal? whole = some (ofDecimal (Nat.ofDigitChars 10 whole 0) 0) := by
  have hsplit := splitDigits_append hwhole [] rfl
  rw [List.append_nil] at hsplit
  have hempty : whole.isEmpty = false := List.isEmpty_eq_false_iff.2 hne
  simp [decimal?, hsplit, hempty, exponent?]

theorem decimal?_point (hne : whole ≠ []) (hwhole : ∀ c ∈ whole, c.isDigit = true)
    (hplaces : ∀ c ∈ places, c.isDigit = true) :
    decimal? (whole ++ '.' :: places)
      = some (ofDecimal (Nat.ofDigitChars 10 (whole ++ places) 0) (-places.length)) := by
  have hsplit := splitDigits_append hwhole ('.' :: places) rfl
  have hsplit' := splitDigits_append hplaces [] rfl
  rw [List.append_nil] at hsplit'
  have hempty : whole.isEmpty = false := List.isEmpty_eq_false_iff.2 hne
  simp [decimal?, hsplit, hsplit', hempty, exponent?]

/-- Digits read as the integer that they write, with a sign in front or not. -/
theorem numeral?_digits {cs : List Char} (h : Text.Digits cs n) :
    numeral? cs = some (ofDecimal n 0) ∧ numeral? ('-' :: cs) = some (-ofDecimal n 0) := by
  obtain ⟨hne, hdigits, rfl⟩ :=
    Text.digits?_eq_some_iff_forall.1 (Text.digits?_eq_some_iff.2 h)
  have hdecimal := decimal?_digits hne hdigits
  obtain ⟨c, cs, rfl⟩ := List.exists_cons_of_ne_nil hne
  obtain ⟨hnumeral, hunsigned⟩ := numeral?_cons (.inl (hdigits c List.mem_cons_self)) cs
  refine ⟨hnumeral.trans hdecimal, ?_⟩
  show (unsigned? (c :: cs)).map _ = _
  rw [hunsigned, hdecimal]
  rfl

/-- Digits around a point read as the decimal that they write. -/
theorem numeral?_point (hne : whole ≠ []) (hwhole : ∀ c ∈ whole, c.isDigit = true)
    (hplaces : ∀ c ∈ places, c.isDigit = true) :
    numeral? (whole ++ '.' :: places)
      = some (ofDecimal (Nat.ofDigitChars 10 (whole ++ places) 0) (-places.length)) := by
  have hdecimal := decimal?_point hne hwhole hplaces
  obtain ⟨c, whole, rfl⟩ := List.exists_cons_of_ne_nil hne
  exact (numeral?_cons (.inl (hwhole c List.mem_cons_self)) _).1.trans hdecimal

/-- A decimal without places is an integer, converted like any other. -/
theorem ofDecimal_zero (n : Nat) : ofDecimal n 0 = Float.ofNat n := by
  unfold ofDecimal
  by_cases hn : n = 0
  · rw [if_pos hn, hn]
    rfl
  · rw [if_neg hn, if_neg (by decide), if_neg (by omega)]
    rfl

theorem hasValue_ofDecimal (h : Representable (n : ℚ)) : HasValue (ofDecimal n 0) n :=
  ofDecimal_zero n ▸ hasValue_ofNat h

end Binary64
end TreeFlow
