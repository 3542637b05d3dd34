import TreeFlow.Proofs.Binary64.Decimal
import TreeFlow.Proofs.Expression.Height
/-
Formulas in full parentheses.

Where every operand and every leaf stands in parentheses, the strengths of the operators do not
matter, and an operator uses up two levels: one of its own and one for the parentheses of its
operand.  So a formula of half the height that there are levels for can be read whatever its shape
(`Printed.shallow`).  Numbers and names are never neighbours then, so the lexemes are told apart
without blanks between them as well as with any (`Spaced.spells`).
-/

namespace TreeFlow

def Operator.symbol : Operator → Char
  | .add => '+'
  | .sub => '-'
  | .mul => '*'
  | .div => '/'
  | .rem => '%'
  | .pow => '^'

/-- The numbers in a formula. -/
def Formula.literals : Formula → List Float
  | .number value => [value]
  | .variable => []
  | .negate operand => operand.literals
  | .binary _ left right => left.literals ++ right.literals
  | .call _ argument => argument.literals

namespace Expression

variable {f g : Formula} {ls ms ls' ms' : List Lexeme} {cs : List Char} {l : Lexeme}

/-! ## Blanks between lexemes -/

/-- The text consists of the lexemes, with any blanks between them and around them. -/
inductive Spaced : List Char → List Lexeme → Prop
  | nil : Spaced [] []
  | blank {c : Char} {cs : List Char} {ls : List Lexeme} (hc : Text.isBlank c = true)
      (rest : Spaced cs ls) : Spaced (c :: cs) ls
  | lexeme (l : Lexeme) {cs : List Char} {ls : List Lexeme} (rest : Spaced cs ls) :
      Spaced (l.text ++ cs) (l :: ls)

def Lexeme.IsSymbol (l : Lexeme) : Prop := ∃ c, l = .symbol c

/-- Lexemes that are told apart without blanks: no two of them in a row are numbers or names. -/
structure Apart (ls : List Lexeme) : Prop where
  proper : ∀ l ∈ ls, l.Proper
  chain : ls.IsChain fun l m => l.IsSymbol ∨ m.IsSymbol

theorem Apart.nil : Apart [] := ⟨nofun, .nil⟩

theorem Apart.singleton (h : l.Proper) : Apart [l] := ⟨by simpa using h, .singleton l⟩

theorem Apart.join (hls : Apart ls) (hl : l.Proper) (hsymbol : l.IsSymbol) (hms : Apart ms) :
    Apart (ls ++ l :: ms) := by
  refine ⟨proper_join hls.proper hl hms.proper, List.isChain_append.2 ⟨hls.chain, ?_, ?_⟩⟩
  · exact List.isChain_cons.2 ⟨fun _ _ => .inl hsymbol, hms.chain⟩
  · rintro m - _ ⟨⟩
    exact .inr hsymbol

/-- Neither a number nor a name goes on with the character. -/
def EndsRun (c : Char) : Prop := isNumberChar c = false ∧ c.isAlphanum = false

theorem endsRun_of_isAlpha_eq_false {c : Char} (hnumber : isNumberChar c = false)
    (halpha : c.isAlpha = false) : EndsRun c := by
  have hdigit : c.isDigit = false := (Bool.or_eq_false_iff.1 hnumber).1
  exact ⟨hnumber, by rw [Char.isAlphanum, halpha, hdigit]; rfl⟩

/-- Behind a number or a name there is nothing that it could go on with. -/
theorem Spaced.head?_eq_false (h : Spaced cs ls) (hls : ∀ m ∈ ls.head?, m.IsSymbol ∧ m.Proper) :
    ∀ c ∈ cs.head?, EndsRun c := by
  cases h with
  | nil => nofun
  | blank hc rest =>
    rintro _ ⟨⟩
    exact endsRun_of_isAlpha_eq_false (isNumberChar_of_isBlank hc) (isAlpha_of_isBlank hc)
  | lexeme l rest =>
    obtain ⟨⟨c, rfl⟩, -, hnumber, halpha⟩ := hls l rfl
    rintro _ ⟨⟩
    exact endsRun_of_isAlpha_eq_false hnumber halpha

theorem Spaced.spells (h : Spaced cs ls) (hls : Apart ls) : Spells cs ls := by
  induction h with
  | nil => exact .nil
  | blank hc rest ih => exact .blank hc (ih hls)
  | @lexeme l cs ls rest ih =>
    obtain ⟨hproper, hchain⟩ := hls
    obtain ⟨hnext, hchain⟩ := List.isChain_cons.1 hchain
    have hrest := ih ⟨fun m hm => hproper m (List.mem_cons_of_mem _ hm), hchain⟩
    have hl := hproper l List.mem_cons_self
    have hend := fun hnot : ¬ l.IsSymbol => rest.head?_eq_false fun m hm =>
      ⟨(hnext m hm).resolve_left hnot, hproper m (List.mem_cons_of_mem _ (List.mem_of_head? hm))⟩
    cases l with
    | number text => exact .number hl.1 hl.2 (fun c hc => (hend nofun c hc).1) hrest
    | name letters =>
      obtain ⟨c, letters, rfl, hc, hletters⟩ := hl
      exact .name hc hletters (fun c hc => (hend nofun c hc).2) hrest
    | symbol c => exact .symbol hl.1 hl.2.1 hl.2.2 hrest

/-! ## Printing -/

/-- Digits, with a point or without one, that are read as the number. -/
def Spelled (value : Float) (text : List Char) : Prop :=
  (∀ c ∈ text, isNumberChar c = true) ∧ Binary64.numeral? text = some value

def wrapped (ls : List Lexeme) : List Lexeme := .symbol '(' :: (ls ++ [.symbol ')'])

/-- An operand in parentheses.  A leaf has some of its own, and is given others or not. -/
inductive Operand : Formula → List Lexeme → List Lexeme → Prop
  | wrapped {f : Formula} {ls : List Lexeme} : Operand f ls (wrapped ls)
  | leaf {f : Formula} {ls : List Lexeme} (h : f.height = 0) : Operand f ls ls

/-- The lexemes print the formula, with all operands and leaves in parentheses. -/
inductive Printed : Formula → List Lexeme → Prop
  | number {value : Float} {text : List Char} (h : Spelled value text) :
      Printed (.number value) (wrapped [.number text])
  | variable : Printed .variable (wrapped [.name ['x']])
  | negate {f : Formula} {ls ms : List Lexeme} (operand : Printed f ls) (h : Operand f ls ms) :
      Printed (.negate f) (.symbol '-' :: ms)
  | binary (op : Operator) {f g : Formula} {ls ls' ms ms' : List Lexeme} (left : Printed f ls)
      (right : Printed g ls') (h : Operand f ls ms) (h' : Operand g ls' ms') :
      Printed (.binary op f g) (ms ++ .symbol op.symbol :: ms')
  | call (function : Function) {f : Formula} {ls ms : List Lexeme} (argument : Printed f ls)
      (h : Operand f ls ms) : Printed (.call function f) (.name function.name.toList :: ms)

theorem Spelled.proper {value : Float} {text : List Char} (h : Spelled value text) :
    (Lexeme.number text).Proper := by
  refine ⟨?_, h.1⟩
  rintro rfl
  exact nomatch h.2

theorem exists_spelled {value : Float} (h : Binary64.NonNegative value) :
    ∃ text, Spelled value text := by
  obtain ⟨text, hchars, htext⟩ := h.exists_numeral
  refine ⟨text, fun c hc => ?_, htext⟩
  simpa [isNumberChar] using hchars c hc

theorem exists_printed (h : ∀ value ∈ f.literals, Binary64.NonNegative value) :
    ∃ ls, Printed f ls := by
  induction f with
  | number value =>
    obtain ⟨text, htext⟩ := exists_spelled (h value (.head _))
    exact ⟨_, .number htext⟩
  | «variable» => exact ⟨_, .variable⟩
  | negate f ih =>
    obtain ⟨ls, hls⟩ := ih h
    exact ⟨_, .negate hls .wrapped⟩
  | binary op f g ih ih' =>
    obtain ⟨ls, hls⟩ := ih fun value hvalue => h value (List.mem_append_left _ hvalue)
    obtain ⟨ms, hms⟩ := ih' fun value hvalue => h value (List.mem_append_right _ hvalue)
    exact ⟨_, .binary op hls hms .wrapped .wrapped⟩
  | call function f ih =>
    obtain ⟨ls, hls⟩ := ih h
    exact ⟨_, .call function hls .wrapped⟩

/-! ## Phrases -/

namespace Phrase

def operand (p : Phrase .primary ls f) : Phrase .unary ls f := .unsigned (.base p)

def whole (p : Phrase .primary ls f) : Phrase .sum ls f := .addend (.factor p.operand)

/-- An operator between two primaries takes a level from the right one only. -/
theorem exists_binary (op : Operator) (p : Phrase .primary ls f) (q : Phrase .primary ms g) :
    ∃ r : Phrase .sum (ls ++ .symbol op.symbol :: ms) (.binary op f g),
      r.levels = max p.levels (q.levels + 1) := by
  have hone : 0 + 1 + q.levels = q.levels + 1 := by omega
  have hproduct : ∀ {c}, (c, op) ∈ multiplicative →
      ∃ r : Phrase .sum (ls ++ .symbol c :: ms) (.binary op f g),
        r.levels = max p.levels (q.levels + 1) := fun h =>
    ⟨.addend (.product (.factor p.operand) h q.operand), congrArg (max p.levels) hone⟩
  have hsum : ∀ {c}, (c, op) ∈ additive →
      ∃ r : Phrase .sum (ls ++ .symbol c :: ms) (.binary op f g),
        r.levels = max p.levels (q.levels + 1) := fun h =>
    ⟨.chain p.whole h (.factor q.operand), congrArg (max p.levels) hone⟩
  cases op with
  | add => exact hsum (.head _)
  | sub => exact hsum (.tail _ (.head _))
  | mul => exact hproduct (.head _)
  | div => exact hproduct (.tail _ (.head _))
  | rem => exact hproduct (.tail _ (.tail _ (.head _)))
  | pow => exact ⟨.addend (.factor (.unsigned (.exponent p q.operand))), rfl⟩

end Phrase

theorem Apart.closed (h : Apart ls) : Apart (ls ++ [.symbol ')']) :=
  h.join ⟨rfl, rfl, rfl⟩ ⟨_, rfl⟩ .nil

theorem Apart.wrapped (h : Apart ls) : Apart (wrapped ls) :=
  Apart.nil.join (l := .symbol '(') ⟨rfl, rfl, rfl⟩ ⟨_, rfl⟩ h.closed

theorem proper_symbol (op : Operator) : (Lexeme.symbol op.symbol).Proper := by
  cases op <;> exact ⟨rfl, rfl, rfl⟩

theorem proper_name (function : Function) : (Lexeme.name function.name.toList).Proper := by
  cases function <;> exact ⟨_, _, rfl, rfl, List.all_eq_true.1 rfl⟩

/-- The lexemes are told apart, and make up the formula within two levels for each operator on the
longest way to a leaf and one for the leaf. -/
structure Shallow (ls : List Lexeme) (f : Formula) : Prop where
  apart : Apart ls
  phrase : ∃ p : Phrase .sum ls f, p.levels ≤ 2 * f.height + 1

theorem shallow_leaf {l : Lexeme} (p : Phrase .primary [l] f) (hp : p.levels = 0)
    (hl : l.Proper) : Shallow [l] f ∧ Shallow (wrapped [l]) f := by
  refine ⟨⟨.singleton hl, p.whole, ?_⟩,
    ⟨(Apart.singleton hl).wrapped, (Phrase.group p.whole).whole, ?_⟩⟩
  · show p.levels ≤ _
    omega
  · show p.levels + 1 ≤ _
    omega

theorem shallow_number {value : Float} {text : List Char} (h : Spelled value text) :
    Shallow [.number text] (.number value) ∧ Shallow (wrapped [.number text]) (.number value) :=
  shallow_leaf (.number h.2) rfl h.proper

theorem shallow_variable :
    Shallow [.name ['x']] .variable ∧ Shallow (wrapped [.name ['x']]) .variable :=
  shallow_leaf (.x rfl) rfl proper_x

/-- What stands in the parentheses of an operand. -/
theorem Operand.exists_inner (h : Operand f ls ms) (hls : Printed f ls) (hshallow : Shallow ls f) :
    ∃ inner, ms = Expression.wrapped inner ∧ Shallow inner f := by
  cases h with
  | wrapped => exact ⟨ls, rfl, hshallow⟩
  | leaf h =>
    cases hls with
    | number hvalue => exact ⟨_, rfl, (shallow_number hvalue).1⟩
    | «variable» => exact ⟨_, rfl, shallow_variable.1⟩
    | negate | binary | call => cases h

theorem Printed.shallow (h : Printed f ls) : Shallow ls f := by
  induction h with
  | number h => exact (shallow_number h).2
  | «variable» => exact shallow_variable.2
  | negate operand h ih =>
    obtain ⟨inner, rfl, hapart, p, hp⟩ := h.exists_inner operand ih
    refine ⟨Apart.nil.join (l := .symbol '-') ⟨rfl, rfl, rfl⟩ ⟨_, rfl⟩ hapart.wrapped,
      .addend (.factor (.minus (Phrase.group p).operand)), ?_⟩
    show p.levels + 1 + 1 ≤ _
    rw [Formula.height]
    omega
  | binary op left right h h' ih ih' =>
    obtain ⟨inner, rfl, hapart, p, hp⟩ := h.exists_inner left ih
    obtain ⟨inner', rfl, hapart', q, hq⟩ := h'.exists_inner right ih'
    obtain ⟨r, hr⟩ := Phrase.exists_binary op (.group p) (.group q)
    refine ⟨hapart.wrapped.join (proper_symbol op) ⟨_, rfl⟩ hapart'.wrapped, r, hr.le.trans ?_⟩
    show max (p.levels + 1) (q.levels + 1 + 1) ≤ _
    rw [Formula.height]
    omega
  | call function argument h ih =>
    obtain ⟨inner, rfl, hapart, p, hp⟩ := h.exists_inner argument ih
    have hname : String.ofList (function.name.toList.map Char.toLower) = function.name := by
      cases function <;> rfl
    have hopen : (Lexeme.symbol '(').Proper := ⟨rfl, rfl, rfl⟩
    refine ⟨(Apart.singleton (proper_name function)).join hopen ⟨_, rfl⟩ hapart.closed,
      (Phrase.call hname p).whole, ?_⟩
    show p.levels + 1 ≤ _
    rw [Formula.height]
    omega

theorem parse_of_printed (h : Printed f ls) {source : String} (hspaced : Spaced source.toList ls)
    (hheight : 2 * f.height + 1 ≤ maxLevels) : Expression.parse source = .ok ⟨source, f⟩ := by
  obtain ⟨hapart, p, hp⟩ := h.shallow
  exact (parse_yields (hspaced.spells hapart) p).1 (hp.trans hheight)

/-- A formula of less than half the height that there are levels for, with finite numbers only and
none of them negative, can be printed, and every text that prints it is parsed as the formula. -/
theorem parse_printed (f : Formula)
    (hliterals : ∀ value ∈ f.literals, Binary64.NonNegative value)
    (hheight : f.height ≤ maxLevels / 2 - 1) :
    (∃ ls, Printed f ls) ∧
      ∀ ls, Printed f ls → ∀ source : String, Spaced source.toList ls →
        Expression.parse source = .ok ⟨source, f⟩ := by
  have hlevels : 2 * (maxLevels / 2 - 1) + 1 ≤ maxLevels := by decide
  exact ⟨exists_printed hliterals, fun ls hls source hspaced =>
    parse_of_printed hls hspaced (by omega)⟩

namespace Sample

/-- A negated call as the base of a power, with parentheses set once for `x` and twice for the
number. -/
def signedPower : Formula :=
  .binary .pow (.negate (.call .sin .variable)) (.number (Binary64.ofDecimal 5 (-1)))

theorem printed_signedPower :
    Printed signedPower
      (wrapped (.symbol '-' :: wrapped (.name ['s', 'i', 'n'] :: wrapped [.name ['x']]))
        ++ .symbol '^' :: wrapped (wrapped [.number ['.', '5']])) :=
  have hhalf : Spelled (Binary64.ofDecimal 5 (-1)) ['.', '5'] := ⟨List.all_eq_true.1 rfl, rfl⟩
  .binary .pow (.negate (.call .sin .variable (.leaf rfl)) .wrapped) (.number hhalf) .wrapped
    .wrapped

end Sample

theorem parse_printed_sample :
    (∀ value ∈ Sample.signedPower.literals, Binary64.NonNegative value) ∧
      Sample.signedPower.height ≤ maxLevels / 2 - 1 ∧
      Expression.parse "(-( sin(x)\t))^((.5 ))\n"
        = .ok ⟨"(-( sin(x)\t))^((.5 ))\n", Sample.signedPower⟩ := by
  have hliterals : ∀ value ∈ Sample.signedPower.literals, Binary64.NonNegative value := by
    intro value hvalue
    obtain rfl := List.mem_singleton.1 hvalue
    exact ⟨2 ^ 52, -53, by decide +kernel⟩
  have hheight : Sample.signedPower.height ≤ maxLevels / 2 - 1 := by decide
  have hspaced : Spaced "(-( sin(x)\t))^((.5 ))\n".toList _ :=
    .lexeme (.symbol '(') <| .lexeme (.symbol '-') <| .lexeme (.symbol '(') <|
    .blank (c := ' ') rfl <| .lexeme (.name ['s', 'i', 'n']) <| .lexeme (.symbol '(') <|
    .lexeme (.name ['x']) <| .lexeme (.symbol ')') <| .blank (c := '\t') rfl <|
    .lexeme (.symbol ')') <| .lexeme (.symbol ')') <| .lexeme (.symbol '^') <|
    .lexeme (.symbol '(') <| .lexeme (.symbol '(') <| .lexeme (.number ['.', '5']) <|
    .blank (c := ' ') rfl <| .lexeme (.symbol ')') <| .lexeme (.symbol ')') <|
    .blank (c := '\n') rfl <| .nil
  exact ⟨hliterals, hheight,
    (parse_printed Sample.signedPower hliterals hheight).2 _ Sample.printed_signedPower _ hspaced⟩

end Expression
end TreeFlow
