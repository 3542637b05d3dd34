import Mathlib.Data.List.Induction
import TreeFlow.Proofs.Text.Blank
import TreeFlow.Text.Numeral
/-
Numerals: what is written for a whole number, and what reads as one.

What is written for a number is digits only, so nothing of it is trimmed, and it reads as the
number.  What reads as a number is given by two relations, with the value beside the characters:
`Digits` for a run of digits and `Unsigned` for one that may have a plus sign in front
(`naturalBelow?_eq_some_iff`).
-/

namespace TreeFlow
namespace Text

theorem isBlank_of_isDigit {c : Char} (h : c.isDigit = true) : isBlank c = false := by
  simp only [Char.isDigit, Bool.and_eq_true, decide_eq_true_eq] at h
  have hrange : 48 ≤ c.toNat ∧ c.toNat ≤ 57 := h
  simp only [isBlank, Bool.or_eq_false_iff, Bool.and_eq_false_iff, decide_eq_false_iff_not,
    beq_eq_false_iff_ne]
  omega

theorem isDigit_of_mem_numeral {n : Nat} {c : Char} (h : c ∈ Nat.toDigits 10 n) :
    c.isDigit = true := Nat.isDigit_of_mem_toDigits (by decide) (by decide) h

theorem isDigit_ne_sign {c : Char} (h : c.isDigit = true) : c ≠ '+' ∧ c ≠ '-' := by
  refine ⟨fun heq => ?_, fun heq => ?_⟩
  · rw [heq] at h
    cases h
  · rw [heq] at h
    cases h

/-- No sign stands in front of a written number. -/
theorem head_numeral (n : Nat) :
    ∃ c rest, Nat.toDigits 10 n = c :: rest ∧ c ≠ '+' ∧ c ≠ '-' := by
  obtain ⟨c, rest, hcs⟩ := List.exists_cons_of_ne_nil (Nat.toDigits_ne_nil (n := n) (b := 10))
  exact ⟨c, rest, hcs, isDigit_ne_sign (isDigit_of_mem_numeral (hcs ▸ List.mem_cons_self))⟩

theorem trimmed_numeral (n : Nat) : trimmed (Nat.toDigits 10 n) = Nat.toDigits 10 n :=
  trimmed_eq_self (fun _ hc => isBlank_of_isDigit (isDigit_of_mem_numeral (List.mem_of_head? hc)))
    fun _ hc => isBlank_of_isDigit (isDigit_of_mem_numeral (List.mem_of_getLast? hc))

theorem naturalBelow?_numeral {n bound : Nat} (h : n < bound) :
    naturalBelow? bound (Nat.toDigits 10 n) = some n := by
  obtain ⟨c, rest, hcs, hplus, -⟩ := head_numeral n
  have hdigits := digits?_toDigits n
  rw [hcs] at hdigits ⊢
  unfold naturalBelow?
  split
  · rename_i heq
    exact absurd (List.cons.inj heq).1 hplus
  · rw [hdigits, Option.filter_some, if_pos (by simpa using h)]

theorem integer?_numeral (n : Nat) : integer? (Nat.toDigits 10 n) = some (n : Int) := by
  obtain ⟨c, rest, hcs, hplus, hminus⟩ := head_numeral n
  have hdigits := digits?_toDigits n
  rw [hcs] at hdigits ⊢
  unfold integer?
  split
  · rename_i heq
    exact absurd (List.cons.inj heq).1 hplus
  · rename_i heq
    exact absurd (List.cons.inj heq).1 hminus
  · rw [hdigits]
    rfl

theorem integer?_minus_numeral (n : Nat) :
    integer? ('-' :: Nat.toDigits 10 n) = some (-(n : Int)) := by
  show (digits? (Nat.toDigits 10 n)).map _ = _
  rw [digits?_toDigits]
  rfl

theorem toList_ofNat (n : Nat) : (toString (Int.ofNat n)).toList = Nat.toDigits 10 n :=
  Nat.toList_repr

theorem toList_negSucc (n : Nat) :
    (toString (Int.negSucc n)).toList = '-' :: Nat.toDigits 10 (n + 1) := by
  show ("-" ++ Nat.repr (n + 1)).toList = _
  simp

/-- What is written for an integer reads as that integer. -/
theorem integer?_toString (k : Int) : integer? (toString k).toList = some k := by
  cases k with
  | ofNat n => rw [toList_ofNat, integer?_numeral, Int.ofNat_eq_natCast]
  | negSucc n => rw [toList_negSucc, integer?_minus_numeral, Int.negSucc_eq, Int.natCast_succ]

/-- Blanks around what is written for an integer are all that is trimmed. -/
theorem trimmed_toString {k : Int} {cs : List Char} (h : Padded (toString k).toList cs) :
    trimmed cs = (toString k).toList := by
  have hblank : ∀ c ∈ (toString k).toList, isBlank c = false := by
    intro c hc
    cases k with
    | ofNat n =>
      rw [toList_ofNat] at hc
      exact isBlank_of_isDigit (isDigit_of_mem_numeral hc)
    | negSucc n =>
      rw [toList_negSucc] at hc
      obtain rfl | hc := List.mem_cons.1 hc
      · decide
      · exact isBlank_of_isDigit (isDigit_of_mem_numeral hc)
  exact h.trimmed_eq (fun c hc => hblank c (List.mem_of_head? hc))
    fun c hc => hblank c (List.mem_of_getLast? hc)

/-! ## What reads as a number -/

/-- Decimal digits with their value, read from the left. -/
inductive Digits : List Char → Nat → Prop
  | digit {d : Nat} (h : d < 10) : Digits [d.digitChar] d
  | snoc {cs : List Char} {n d : Nat} (init : Digits cs n) (h : d < 10) :
    Digits (cs ++ [d.digitChar]) (10 * n + d)

/-- Decimal digits with their value, a plus sign in front or none. -/
inductive Unsigned : List Char → Nat → Prop
  | plain {cs : List Char} {n : Nat} (digits : Digits cs n) : Unsigned cs n
  | plus {cs : List Char} {n : Nat} (digits : Digits cs n) : Unsigned ('+' :: cs) n

theorem exists_digitChar {c : Char} (h : c.isDigit = true) : ∃ d < 10, d.digitChar = c := by
  simp only [Char.isDigit, Bool.and_eq_true, decide_eq_true_eq] at h
  have hrange : 48 ≤ c.toNat ∧ c.toNat ≤ 57 := h
  refine ⟨c.toNat - 48, by omega, Char.toNat_inj.1 ?_⟩
  rw [Nat.toNat_digitChar_of_lt_ten (by omega)]
  omega

theorem isDigit_digitChar {d : Nat} (h : d < 10) : d.digitChar.isDigit = true := by
  rw [Nat.isDigit_digitChar, decide_eq_true h]

theorem digits?_eq_some_iff_forall {cs : List Char} {n : Nat} : digits? cs = some n ↔
    cs ≠ [] ∧ (∀ c ∈ cs, c.isDigit = true) ∧ Nat.ofDigitChars 10 cs 0 = n := by
  unfold digits?
  simp [and_assoc]

theorem ofDigitChars_concat (cs : List Char) {d : Nat} (h : d < 10) :
    Nat.ofDigitChars 10 (cs ++ [d.digitChar]) 0 = 10 * Nat.ofDigitChars 10 cs 0 + d := by
  rw [Nat.ofDigitChars_append, Nat.ofDigitChars_cons_digitChar_of_lt_ten h, Nat.ofDigitChars_nil]

theorem digits_of_forall {cs : List Char} (hne : cs ≠ []) (h : ∀ c ∈ cs, c.isDigit = true) :
    Digits cs (Nat.ofDigitChars 10 cs 0) := by
  induction cs using List.reverseRecOn with
  | nil => exact absurd rfl hne
  | append_singleton init c ih =>
    obtain ⟨d, hd, rfl⟩ := exists_digitChar (h c (List.mem_append_right _ List.mem_cons_self))
    rw [ofDigitChars_concat init hd]
    by_cases hinit : init = []
    · rw [hinit, List.nil_append, Nat.ofDigitChars_nil, Nat.mul_zero, Nat.zero_add]
      exact .digit hd
    · exact .snoc (ih hinit fun e he => h e (List.mem_append_left _ he)) hd

theorem digits?_eq_some_iff {cs : List Char} {n : Nat} : digits? cs = some n ↔ Digits cs n := by
  rw [digits?_eq_some_iff_forall]
  constructor
  · intro h
    obtain ⟨hne, hdigits, rfl⟩ := h
    exact digits_of_forall hne hdigits
  · intro h
    induction h with
    | digit hd =>
      refine ⟨List.cons_ne_nil _ _, ?_, ?_⟩
      · simpa using isDigit_digitChar hd
      · rw [Nat.ofDigitChars_cons_digitChar_of_lt_ten hd, Nat.ofDigitChars_nil, Nat.mul_zero,
          Nat.zero_add]
    | snoc init hd ih =>
      obtain ⟨hne, hdigits, rfl⟩ := ih
      refine ⟨List.append_ne_nil_of_left_ne_nil hne _, ?_, ofDigitChars_concat _ hd⟩
      intro c hc
      obtain hc | hc := List.mem_append.1 hc
      · exact hdigits c hc
      · rw [List.mem_singleton.1 hc]
        exact isDigit_digitChar hd

theorem Digits.isDigit {cs : List Char} {n : Nat} (h : Digits cs n) {c : Char} (hc : c ∈ cs) :
    c.isDigit = true := (digits?_eq_some_iff_forall.1 (digits?_eq_some_iff.2 h)).2.1 c hc

theorem Digits.ne_nil {cs : List Char} {n : Nat} (h : Digits cs n) : cs ≠ [] :=
  (digits?_eq_some_iff_forall.1 (digits?_eq_some_iff.2 h)).1

/-- What a bounded reading accepts, and as which value. -/
theorem naturalBelow?_eq_some_iff {bound : Nat} {cs : List Char} {n : Nat} :
    naturalBelow? bound cs = some n ↔ Unsigned cs n ∧ n < bound := by
  unfold naturalBelow?
  rw [Option.filter_eq_some_iff, decide_eq_true_iff]
  apply and_congr_left'
  split
  next rest =>
    rw [digits?_eq_some_iff]
    refine ⟨.plus, fun h => ?_⟩
    cases h with
    | plain h => exact absurd rfl (isDigit_ne_sign (h.isDigit List.mem_cons_self)).1
    | plus h => exact h
  next hplus =>
    rw [digits?_eq_some_iff]
    refine ⟨.plain, fun h => ?_⟩
    cases h with
    | plain h => exact h
    | plus h => exact absurd rfl (hplus _)

namespace Unsigned

variable {cs : List Char} {n : Nat}

theorem ne_nil (h : Unsigned cs n) : cs ≠ [] := by
  cases h with
  | plain h => exact h.ne_nil
  | plus h => exact List.cons_ne_nil _ _

theorem isDigit_or_plus (h : Unsigned cs n) {c : Char} (hc : c ∈ cs) :
    c.isDigit = true ∨ c = '+' := by
  cases h with
  | plain h => exact .inl (h.isDigit hc)
  | plus h =>
    obtain hc | hc := List.mem_cons.1 hc
    · exact .inr hc
    · exact .inl (h.isDigit hc)

theorem isBlank_eq_false (h : Unsigned cs n) {c : Char} (hc : c ∈ cs) : isBlank c = false := by
  obtain hc | rfl := h.isDigit_or_plus hc
  · exact isBlank_of_isDigit hc
  · rfl

/-- Padding does not count where a numeral is read. -/
theorem trimmed_eq (h : Unsigned cs n) {padded : List Char} (hpadded : Padded cs padded) :
    trimmed padded = cs :=
  hpadded.trimmed_eq (fun _ hc => h.isBlank_eq_false (List.mem_of_head? hc))
    fun _ hc => h.isBlank_eq_false (List.mem_of_getLast? hc)

end Unsigned

end Text
end TreeFlow
