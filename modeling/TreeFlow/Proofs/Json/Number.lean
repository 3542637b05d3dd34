import TreeFlow.Json.Token
import TreeFlow.Proofs.Text.Numeral
/-
Numbers in texts.

The scanner takes the characters of a number one by one, and a number ends where a character comes
that is no part of it.
-/

namespace TreeFlow
namespace Json

/-- The part that a number ends in, if its characters are parts of a number. -/
def numberPart? : List Char → Option NumberPart
  | '-' :: rest => rest.foldlM NumberPart.next? .minus
  | cs => cs.foldlM NumberPart.next? .minus

theorem numberPart?_of_head {c : Char} (hc : c ≠ '-') (cs : List Char) :
    numberPart? (c :: cs) = (c :: cs).foldlM NumberPart.next? .minus := by
  unfold numberPart?
  split
  · rename_i heq
    exact absurd (List.cons.inj heq).1 hc
  · rfl

/-! ## Scanning -/

/-- The scanner stays inside of a number as long as its parts go on. -/
theorem foldl_step_number {cs : List Char} {part last : NumberPart}
    (h : cs.foldlM NumberPart.next? part = some last) (reversed : List Char) (R : List Token) :
    (cs.map some).foldl Scan.step ⟨.number part reversed, R⟩
      = ⟨.number last (cs.reverse ++ reversed), R⟩ := by
  induction cs generalizing part reversed with
  | nil =>
    obtain rfl := Option.some.inj h
    rfl
  | cons c cs ih =>
    rw [List.foldlM_cons] at h
    obtain ⟨next, hnext, hrest⟩ := Option.bind_eq_some_iff.1 h
    have hstep : Scan.step ⟨.number part reversed, R⟩ (some c)
        = ⟨.number next (c :: reversed), R⟩ := by
      simp [Scan.step, hnext]
    rw [List.map_cons, List.foldl_cons, hstep, ih hrest, List.reverse_cons, List.append_assoc]
    rfl

/-- What is a first part behind a minus sign is a first part without it. -/
theorem begin_of_next? {c : Char} {next : NumberPart} (h : NumberPart.next? .minus c = some next)
    (R : List Token) : Scan.begin ⟨.between, R⟩ (some c) = ⟨.number next [c], R⟩ := by
  by_cases hzero : c = '0'
  · subst hzero
    obtain rfl := Option.some.inj h
    rfl
  · have hdigit : c.isDigit = true ∧ next = .whole := by
      simp only [NumberPart.next?, if_neg hzero] at h
      split at h
      · exact ⟨‹_›, (Option.some.inj h).symm⟩
      · cases h
    obtain ⟨hdigit, rfl⟩ := hdigit
    unfold Scan.begin
    simp only
    split
    all_goals first
      | exact absurd hdigit (by decide)
      | exact absurd rfl hzero
      | exact if_pos hdigit

theorem foldl_step_numeral {cs : List Char} {last : NumberPart} (h : numberPart? cs = some last)
    (hends : last.ends none = true) (R : List Token) :
    (cs.map some).foldl Scan.step ⟨.between, R⟩ = ⟨.number last cs.reverse, R⟩ := by
  cases cs with
  | nil =>
    obtain rfl := Option.some.inj h
    cases hends
  | cons c cs =>
    by_cases hc : c = '-'
    · subst hc
      have hbegin : Scan.step ⟨.between, R⟩ (some '-') = ⟨.number .minus ['-'], R⟩ := rfl
      rw [List.map_cons, List.foldl_cons, hbegin, foldl_step_number h, List.reverse_cons]
    · rw [numberPart?_of_head hc, List.foldlM_cons] at h
      obtain ⟨next, hnext, hrest⟩ := Option.bind_eq_some_iff.1 h
      have hbegin : Scan.step ⟨.between, R⟩ (some c) = ⟨.number next [c], R⟩ :=
        begin_of_next? hnext R
      rw [List.map_cons, List.foldl_cons, hbegin, foldl_step_number hrest, List.reverse_cons]

/-! ## Values -/

/-- A character that only a number with a point or an exponent has. -/
def isMark (c : Char) : Bool := c = '.' || c = 'e' || c = 'E'

theorem numberValue_of_mark {cs : List Char} (h : cs.any isMark = true) :
    numberValue cs = numberValue.approximate cs := by
  have hmark : (cs.any fun c => c = '.' || c = 'e' || c = 'E') = true := h
  unfold numberValue
  simp only [hmark, if_true]

theorem numberValue_of_integer? {cs : List Char} {n : Int} (h : cs.any isMark = false)
    (hn : Text.integer? cs = some n) (hword : isWord n = true)
    (hzero : (n == 0 && cs.head? == some '-') = false) : numberValue cs = .integer n := by
  have hmark : (cs.any fun c => c = '.' || c = 'e' || c = 'E') = false := h
  unfold numberValue
  simp only [hmark, hn]
  simp [hzero, hword]

/-! ## Whole numbers -/

theorem foldlM_next?_numeral {n : Nat} (h : n ≠ 0) :
    (Nat.toDigits 10 n).foldlM NumberPart.next? .minus = some .whole := by
  have hnext : ∀ d < 10, d ≠ 0 → NumberPart.next? .minus d.digitChar = some .whole := by decide
  have hmore : ∀ d < 10, NumberPart.next? .whole d.digitChar = some .whole := by decide
  induction n using Nat.strongRecOn with
  | ind n ih =>
    by_cases hn : n < 10
    · rw [Nat.toDigits_of_lt_base hn]
      show (NumberPart.next? .minus n.digitChar).bind some = _
      rw [hnext n hn h]
      rfl
    · rw [Nat.toDigits_of_base_le (by decide) (by omega), List.foldlM_append,
        ih (n / 10) (by omega) (by omega)]
      show (NumberPart.next? .whole (n % 10).digitChar).bind some = _
      rw [hmore _ (Nat.mod_lt _ (by decide))]
      rfl

theorem numberPart?_numeral (n : Nat) :
    ∃ part, (Nat.toDigits 10 n).foldlM NumberPart.next? .minus = some part ∧
      part.ends none = true := by
  by_cases hn : n = 0
  · subst hn
    exact ⟨.zero, by decide, rfl⟩
  · exact ⟨.whole, foldlM_next?_numeral hn, rfl⟩

theorem any_isMark_numeral (n : Nat) : (Nat.toDigits 10 n).any isMark = false := by
  rw [List.any_eq_false]
  intro c hc hmark
  have hdigit := Text.isDigit_of_mem_numeral hc
  simp only [isMark, Bool.or_eq_true, decide_eq_true_eq] at hmark
  rcases hmark with (rfl | rfl) | rfl <;> cases hdigit

/-- The text of an integer is a number, and the integer that it was written for. -/
theorem numberValue_integer {n : Int} (h : isWord n = true) :
    (∃ part, numberPart? (toString n).toList = some part ∧ part.ends none = true) ∧
      numberValue (toString n).toList = .integer n := by
  cases n with
  | ofNat m =>
    obtain ⟨c, rest, hcs, -, hminus⟩ := Text.head_numeral m
    rw [Text.toList_ofNat]
    refine ⟨?_, numberValue_of_integer? (any_isMark_numeral m) (Text.integer?_numeral m) h ?_⟩
    · rw [hcs, numberPart?_of_head hminus, ← hcs]
      exact numberPart?_numeral m
    · simp [hcs, hminus]
  | negSucc m =>
    have hmark : ('-' :: Nat.toDigits 10 (m + 1)).any isMark = false :=
      any_isMark_numeral (m + 1)
    rw [Text.toList_negSucc]
    exact ⟨numberPart?_numeral (m + 1),
      numberValue_of_integer? hmark (Text.integer?_minus_numeral (m + 1)) h rfl⟩

end Json
end TreeFlow
