import Mathlib.Data.List.TakeWhile
import TreeFlow.Expression
/-
The grammar of expressions.

A text is first taken apart into lexemes, each as long as it can be (`Spells`); which lexemes make
which formula is then said by phrases.  There is one kind of phrase for each strength of binding:

  sum     = term | sum ('+' | '-') term
  term    = unary | term ('*' | '/' | '%') unary
  unary   = '-' unary | '+' unary | power
  power   = primary | primary '^' unary
  primary = number | 'x' | 'pi' | function '(' sum ')' | '(' sum ')'

Both are stated without the scanner and the parser.  The scanner finds the only lexemes that a text
spells (`spells_iff`).  A phrase is kept with its structure, so that one can count the
levels of nesting that it uses up.
-/

namespace TreeFlow
namespace Expression

/-! ## Lexemes of a text -/

/-- The text spells the lexemes.  No number is followed by a digit or a point, no name by a letter
or a digit. -/
inductive Spells : List Char → List Lexeme → Prop
  | nil : Spells [] []
  | blank {c : Char} {cs : List Char} {ls : List Lexeme} (hc : Text.isBlank c = true)
      (rest : Spells cs ls) : Spells (c :: cs) ls
  | number {text cs : List Char} {ls : List Lexeme} (hne : text ≠ [])
      (htext : ∀ c ∈ text, isNumberChar c = true) (hend : ∀ c ∈ cs.head?, isNumberChar c = false)
      (rest : Spells cs ls) : Spells (text ++ cs) (.number text :: ls)
  | name {c : Char} {letters cs : List Char} {ls : List Lexeme} (hc : c.isAlpha = true)
      (hletters : ∀ d ∈ letters, d.isAlphanum = true) (hend : ∀ d ∈ cs.head?, d.isAlphanum = false)
      (rest : Spells cs ls) : Spells (c :: letters ++ cs) (.name (c :: letters) :: ls)
  | symbol {c : Char} {cs : List Char} {ls : List Lexeme} (hblank : Text.isBlank c = false)
      (hnumber : isNumberChar c = false) (halpha : c.isAlpha = false)
      (rest : Spells cs ls) : Spells (c :: cs) (.symbol c :: ls)

/-! ## Phrases -/

inductive Rank where
  | sum
  | term
  | unary
  | power
  | primary
deriving DecidableEq, Repr

def additive : List (Char × Operator) := [('+', .add), ('-', .sub)]

def multiplicative : List (Char × Operator) := [('*', .mul), ('/', .div), ('%', .rem)]

/-- The structure that makes lexemes a phrase of a rank, with a formula as its meaning. -/
inductive Phrase : Rank → List Lexeme → Formula → Type
  | number {text : List Char} {value : Float} (h : Binary64.numeral? text = some value) :
      Phrase .primary [.number text] (.number value)
  | x {letters : List Char} (h : String.ofList (letters.map Char.toLower) = "x") :
      Phrase .primary [.name letters] .variable
  | pi {letters : List Char} (h : String.ofList (letters.map Char.toLower) = "pi") :
      Phrase .primary [.name letters] (.number Binary64.pi)
  | call {letters : List Char} {function : Function} {ls : List Lexeme} {f : Formula}
      (h : String.ofList (letters.map Char.toLower) = function.name) (argument : Phrase .sum ls f) :
      Phrase .primary (.name letters :: .symbol '(' :: (ls ++ [.symbol ')'])) (.call function f)
  | group {ls : List Lexeme} {f : Formula} (inner : Phrase .sum ls f) :
      Phrase .primary (.symbol '(' :: (ls ++ [.symbol ')'])) f
  | base {ls : List Lexeme} {f : Formula} (base : Phrase .primary ls f) : Phrase .power ls f
  | exponent {ls ms : List Lexeme} {f g : Formula} (base : Phrase .primary ls f)
      (exponent : Phrase .unary ms g) :
      Phrase .power (ls ++ .symbol '^' :: ms) (.binary .pow f g)
  | unsigned {ls : List Lexeme} {f : Formula} (operand : Phrase .power ls f) : Phrase .unary ls f
  | minus {ls : List Lexeme} {f : Formula} (operand : Phrase .unary ls f) :
      Phrase .unary (.symbol '-' :: ls) (.negate f)
  | plus {ls : List Lexeme} {f : Formula} (operand : Phrase .unary ls f) :
      Phrase .unary (.symbol '+' :: ls) f
  | factor {ls : List Lexeme} {f : Formula} (operand : Phrase .unary ls f) : Phrase .term ls f
  | product {ls ms : List Lexeme} {f g : Formula} {c : Char} {op : Operator}
      (left : Phrase .term ls f) (h : (c, op) ∈ multiplicative) (right : Phrase .unary ms g) :
      Phrase .term (ls ++ .symbol c :: ms) (.binary op f g)
  | addend {ls : List Lexeme} {f : Formula} (operand : Phrase .term ls f) : Phrase .sum ls f
  | chain {ls ms : List Lexeme} {f g : Formula} {c : Char} {op : Operator}
      (left : Phrase .sum ls f) (h : (c, op) ∈ additive) (right : Phrase .term ms g) :
      Phrase .sum (ls ++ .symbol c :: ms) (.binary op f g)

/-- The text is an expression that means the formula. -/
def Sentence (source : String) (f : Formula) : Prop :=
  ∃ ls, Spells source.toList ls ∧ Nonempty (Phrase .sum ls f)

namespace Phrase

variable {r : Rank} {ls : List Lexeme} {f : Formula}

/-- The operators of the chain that the phrase is. -/
def chained {r : Rank} {ls : List Lexeme} {f : Formula} : Phrase r ls f → Nat
  | product left _ _ => left.chained + 1
  | chain left _ _ => left.chained + 1
  | _ => 0

/-- The levels that a phrase uses up.  Behind the operators of a chain one level less is left for
each of them; behind the chain all of them are free again. -/
def levels {r : Rank} {ls : List Lexeme} {f : Formula} : Phrase r ls f → Nat
  | number _ => 0
  | x _ => 0
  | pi _ => 0
  | call _ argument => argument.levels + 1
  | group inner => inner.levels + 1
  | base b => b.levels
  | exponent b e => max b.levels (e.levels + 1)
  | unsigned operand => operand.levels
  | minus operand => operand.levels + 1
  | plus operand => operand.levels + 1
  | factor operand => operand.levels
  | product left _ right => max left.levels (left.chained + 1 + right.levels)
  | addend operand => operand.levels
  | chain left _ right => max left.levels (left.chained + 1 + right.levels)

theorem chained_le_levels (p : Phrase r ls f) : p.chained ≤ p.levels := by
  cases p with
  | product left h right => simp only [chained, levels]; omega
  | chain left h right => simp only [chained, levels]; omega
  | _ => exact Nat.zero_le _

end Phrase

/-! ## Scanning -/

theorem isNumberChar_iff {c : Char} :
    isNumberChar c = true ↔ (48 ≤ c.toNat ∧ c.toNat ≤ 57) ∨ c.toNat = 46 := by
  have hpoint : c = '.' ↔ c.toNat = 46 := ⟨fun h => h ▸ rfl, fun h => Char.toNat_inj.1 h⟩
  simp only [isNumberChar, Char.isDigit, Bool.or_eq_true, Bool.and_eq_true, decide_eq_true_eq,
    UInt32.le_iff_toNat_le, hpoint]
  rfl

theorem isAlpha_iff {c : Char} :
    c.isAlpha = true ↔ (65 ≤ c.toNat ∧ c.toNat ≤ 90) ∨ (97 ≤ c.toNat ∧ c.toNat ≤ 122) := by
  have hranges : c.isAlpha = (decide (c.val ≥ 'A'.val ∧ c.val ≤ 'Z'.val)
      || (decide (c.val ≥ 'a'.val) && decide (c.val ≤ 'z'.val))) := rfl
  rw [hranges]
  simp only [Bool.or_eq_true, Bool.and_eq_true, decide_eq_true_eq, ge_iff_le,
    UInt32.le_iff_toNat_le]
  rfl

theorem isNumberChar_of_isAlpha {c : Char} (hc : c.isAlpha = true) : isNumberChar c = false := by
  rw [isAlpha_iff] at hc
  rw [← Bool.not_eq_true, isNumberChar_iff]
  omega

theorem isNumberChar_of_isBlank {c : Char} (hc : Text.isBlank c = true) :
    isNumberChar c = false := by
  rw [← Bool.not_eq_true, isNumberChar_iff]
  simp [Text.isBlank] at hc
  omega

theorem isAlpha_of_isBlank {c : Char} (hc : Text.isBlank c = true) : c.isAlpha = false := by
  rw [← Bool.not_eq_true, isAlpha_iff]
  simp [Text.isBlank] at hc
  omega

/-- No token starts with a blank. -/
theorem start?_of_isBlank {c : Char} (hc : Text.isBlank c = true) (position : Nat) :
    Run.start? position c = none := by
  rw [Run.start?, if_neg (by simp [isNumberChar_of_isBlank hc]),
    if_neg (by simp [isAlpha_of_isBlank hc])]

/-- A run goes on to the first character that does not continue it. -/
theorem tokensFrom_run (run : List Char → Run) (lexeme : List Char → Lexeme) (p : Char → Bool)
    {start : Nat} (hcontinue : ∀ reversed c, (run reversed).continue? c
      = if p c then some (run (c :: reversed)) else none)
    (htoken : ∀ reversed, (run reversed).token? = [⟨start, lexeme reversed.reverse⟩])
    {text cs : List Char} (htext : ∀ c ∈ text, p c = true) (hend : ∀ c ∈ cs.head?, p c = false)
    (position : Nat) (reversed : List Char) :
    tokensFrom position (run reversed) (text ++ cs)
      = ⟨start, lexeme (reversed.reverse ++ text)⟩
        :: tokensFrom (position + text.length) .none cs := by
  induction text generalizing position reversed with
  | nil =>
    cases cs with
    | nil => rw [List.nil_append, tokensFrom, htoken, List.append_nil]; rfl
    | cons c cs =>
      have hc := hend c (by simp)
      rw [List.nil_append, tokensFrom, hcontinue, hc, htoken, List.append_nil]
      rfl
  | cons c text ih =>
    have hc := htext c List.mem_cons_self
    have hrest := ih (fun d hd => htext d (List.mem_cons_of_mem _ hd)) (position + 1)
      (c :: reversed)
    rw [List.cons_append, tokensFrom, hcontinue, hc, if_pos rfl]
    simp only [hrest, List.reverse_cons, List.append_assoc, List.singleton_append,
      List.length_cons]
    rw [Nat.add_assoc, Nat.add_comm 1]

theorem tokensFrom_number {c : Char} {text cs : List Char} (hc : isNumberChar c = true)
    (htext : ∀ d ∈ text, isNumberChar d = true) (hend : ∀ d ∈ cs.head?, isNumberChar d = false)
    (position : Nat) :
    tokensFrom position .none (c :: text ++ cs)
      = ⟨position, .number (c :: text)⟩ :: tokensFrom (position + 1 + text.length) .none cs := by
  have hrun := tokensFrom_run (.number position) .number isNumberChar (fun _ _ => rfl)
    (fun _ => rfl) htext hend (position + 1) [c]
  have hstart : Run.start? position c = some (.number position [c]) := by
    rw [Run.start?, if_pos hc]
  simpa only [List.cons_append, tokensFrom, Run.continue?, Run.token?, List.nil_append, hstart,
    List.reverse_singleton] using hrun

theorem tokensFrom_name {c : Char} {letters cs : List Char} (hc : c.isAlpha = true)
    (hletters : ∀ d ∈ letters, d.isAlphanum = true)
    (hend : ∀ d ∈ cs.head?, d.isAlphanum = false) (position : Nat) :
    tokensFrom position .none (c :: letters ++ cs)
      = ⟨position, .name (c :: letters)⟩ :: tokensFrom (position + 1 + letters.length) .none cs := by
  have hrun := tokensFrom_run (.name position) .name Char.isAlphanum (fun _ _ => rfl)
    (fun _ => rfl) hletters hend (position + 1) [c]
  have hstart : Run.start? position c = some (.name position [c]) := by
    rw [Run.start?, if_neg (by simp [isNumberChar_of_isAlpha hc]), if_pos hc]
  simpa only [List.cons_append, tokensFrom, Run.continue?, Run.token?, List.nil_append, hstart,
    List.reverse_singleton] using hrun

/-- Scanning gives the lexemes that the text spells. -/
theorem Spells.lexemes_eq {cs : List Char} {ls : List Lexeme} (h : Spells cs ls) (position : Nat) :
    (tokensFrom position .none cs).map Token.lexeme = ls := by
  induction h generalizing position with
  | nil => rfl
  | blank hc _ ih =>
    rw [tokensFrom]
    simp only [Run.continue?, Run.token?, List.nil_append, start?_of_isBlank hc, hc, if_true]
    exact ih _
  | @number text cs ls hne htext hend _ ih =>
    obtain ⟨c, text, rfl⟩ := List.exists_cons_of_ne_nil hne
    have hrest := fun d hd => htext d (List.mem_cons_of_mem _ hd)
    rw [tokensFrom_number (htext c List.mem_cons_self) hrest hend, List.map_cons, ih]
  | name hc hletters hend _ ih =>
    rw [tokensFrom_name hc hletters hend, List.map_cons, ih]
  | symbol hblank hnumber halpha _ ih =>
    rw [tokensFrom]
    simp only [Run.continue?, Run.token?, List.nil_append, Run.start?, hnumber, halpha, hblank,
      Bool.false_eq_true, if_false, List.map_cons, ih]

/-- What follows the longest run of characters of a kind does not start with one. -/
theorem head?_dropWhile_eq_false {p : Char → Bool} {cs : List Char} :
    ∀ c ∈ (cs.dropWhile p).head?, p c = false := by
  intro c hc
  have hnot := List.head?_dropWhile_not p cs
  rw [Option.mem_def] at hc
  rw [hc] at hnot
  exact hnot

/-- Every text spells some lexemes: each is cut off as long as it can be. -/
theorem exists_spells (cs : List Char) : ∃ ls, Spells cs ls := by
  induction hlength : cs.length using Nat.strongRec generalizing cs with
  | ind n ih =>
    cases cs with
    | nil => exact ⟨[], .nil⟩
    | cons c cs =>
      have shorter : ∀ p : Char → Bool, ∃ ls, Spells (cs.dropWhile p) ls := fun p => by
        have hle := List.length_dropWhile_le p cs
        exact ih _ (by rw [← hlength, List.length_cons]; omega) _ rfl
      have inside : ∀ (p : Char → Bool), ∀ d ∈ cs.takeWhile p, p d = true := fun p d hd =>
        List.mem_takeWhile_imp hd
      by_cases hblank : Text.isBlank c = true
      · obtain ⟨ls, hls⟩ := ih _ (by rw [← hlength, List.length_cons]; omega) cs rfl
        exact ⟨ls, .blank hblank hls⟩
      by_cases hnumber : isNumberChar c = true
      · obtain ⟨ls, hls⟩ := shorter isNumberChar
        have htext : ∀ d ∈ c :: cs.takeWhile isNumberChar, isNumberChar d = true := by
          simpa using ⟨hnumber, inside isNumberChar⟩
        have hspells := Spells.number (List.cons_ne_nil _ _) htext head?_dropWhile_eq_false hls
        rw [List.cons_append, List.takeWhile_append_dropWhile] at hspells
        exact ⟨_, hspells⟩
      by_cases halpha : c.isAlpha = true
      · obtain ⟨ls, hls⟩ := shorter Char.isAlphanum
        have hspells := Spells.name halpha (inside Char.isAlphanum) head?_dropWhile_eq_false hls
        rw [List.cons_append, List.takeWhile_append_dropWhile] at hspells
        exact ⟨_, hspells⟩
      · obtain ⟨ls, hls⟩ := ih _ (by rw [← hlength, List.length_cons]; omega) cs rfl
        rw [Bool.not_eq_true] at hblank hnumber halpha
        exact ⟨_, .symbol hblank hnumber halpha hls⟩

/-- The lexemes of a text are those that scanning finds. -/
theorem spells_iff {cs : List Char} {ls : List Lexeme} :
    Spells cs ls ↔ ls = (tokens cs).map Token.lexeme := by
  constructor
  · intro h
    exact (h.lexemes_eq 0).symm
  · rintro rfl
    obtain ⟨ls, hls⟩ := exists_spells cs
    rwa [tokens, hls.lexemes_eq 0]

/-! ## Spelling -/

def Lexeme.text : Lexeme → List Char
  | .number text => text
  | .name letters => letters
  | .symbol c => [c]

/-- The lexeme can stand in a text. -/
def Lexeme.Proper : Lexeme → Prop
  | .number text => text ≠ [] ∧ ∀ c ∈ text, isNumberChar c = true
  | .name letters =>
    ∃ c rest, letters = c :: rest ∧ c.isAlpha = true ∧ ∀ d ∈ rest, d.isAlphanum = true
  | .symbol c => Text.isBlank c = false ∧ isNumberChar c = false ∧ c.isAlpha = false

/-- The lexemes, with a blank behind each. -/
def spaced (ls : List Lexeme) : List Char := ls.flatMap fun l => l.text ++ [' ']

theorem spells_spaced {ls : List Lexeme} (h : ∀ l ∈ ls, l.Proper) : Spells (spaced ls) ls := by
  induction ls with
  | nil => exact .nil
  | cons l ls ih =>
    have hrest : Spells (' ' :: spaced ls) ls :=
      .blank (by decide) (ih fun m hm => h m (List.mem_cons_of_mem _ hm))
    have hl := h l List.mem_cons_self
    rw [spaced, List.flatMap_cons, List.append_assoc]
    cases l with
    | number text => exact .number hl.1 hl.2 (by simp [isNumberChar]) hrest
    | name letters =>
      obtain ⟨c, rest, rfl, hc, hletters⟩ := hl
      exact .name hc hletters (by simp) hrest
    | symbol c => exact .symbol hl.1 hl.2.1 hl.2.2 hrest

end Expression
end TreeFlow
