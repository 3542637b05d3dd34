import Mathlib.Order.Bounds.Basic
import Mathlib.Tactic.Ring
import TreeFlow.Proofs.Expression.Parser
/-
How high the formula of an expression can be.

The levels that are left for parsing are not the levels of the formula.  A chain hands back the
levels of its operators when it ends, but the whole of it may become the left operand of the next
chain, below all of whose operators it then lies.  So `n` levels allow a height of `n * (n + 3)`
(`Phrase.height_le`), and a family of expressions has it (`exists_highest`).

`isGreatest_height` is the result for the parser and its limit.
-/

namespace TreeFlow
namespace Expression

/-! ## The bound -/

/-- The height of an operand that uses up `n` levels: `2 * i` for each level `i` of them. -/
def operandHeight (n : Nat) : Nat := n * (n + 1)

theorem operandHeight_succ (n : Nat) :
    operandHeight (n + 1) = operandHeight n + 2 * (n + 1) := by
  unfold operandHeight
  ring

theorem operandHeight_mono {m n : Nat} (h : m ≤ n) : operandHeight m ≤ operandHeight n :=
  Nat.mul_le_mul h (Nat.succ_le_succ h)

/-- The greatest height of a phrase that uses up some levels and is a chain of some operators. -/
def heightBound (r : Rank) (levels chained : Nat) : Nat :=
  match r with
  | .primary => operandHeight levels - 1
  | .power => operandHeight levels
  | .unary => operandHeight levels
  | .term => operandHeight levels + chained
  | .sum => operandHeight levels + levels + chained

theorem Phrase.height_le {r : Rank} {ls : List Lexeme} {f : Formula} (p : Phrase r ls f) :
    f.height ≤ heightBound r p.levels p.chained := by
  induction p with
  | number h => exact Nat.zero_le _
  | x h => exact Nat.zero_le _
  | pi h => exact Nat.zero_le _
  | call h argument ih =>
    have hchained := argument.chained_le_levels
    have hsucc := operandHeight_succ argument.levels
    simp only [heightBound, Phrase.levels, Formula.height] at ih ⊢
    omega
  | group inner ih =>
    have hchained := inner.chained_le_levels
    have hsucc := operandHeight_succ inner.levels
    simp only [heightBound, Phrase.levels] at ih ⊢
    omega
  | base b ih =>
    simp only [heightBound, Phrase.levels] at ih ⊢
    omega
  | exponent b e ihb ihe =>
    have hsucc := operandHeight_succ e.levels
    have hb := operandHeight_mono (le_max_left b.levels (e.levels + 1))
    have he := operandHeight_mono (le_max_right b.levels (e.levels + 1))
    simp only [heightBound, Phrase.levels, Formula.height] at ihb ihe ⊢
    omega
  | unsigned operand ih => exact ih
  | minus operand ih =>
    have hsucc := operandHeight_succ operand.levels
    simp only [heightBound, Phrase.levels, Formula.height] at ih ⊢
    omega
  | plus operand ih =>
    have hsucc := operandHeight_succ operand.levels
    simp only [heightBound, Phrase.levels] at ih ⊢
    omega
  | factor operand ih => exact ih
  | product left h right ihl ihr =>
    -- Only the left operand gains from the levels that its own chain hands back.
    have hl := operandHeight_mono (le_max_left left.levels (left.chained + 1 + right.levels))
    have hr := operandHeight_mono (show right.levels ≤
      max left.levels (left.chained + 1 + right.levels) by omega)
    simp only [heightBound, Phrase.levels, Phrase.chained, Formula.height] at ihl ihr ⊢
    omega
  | addend operand ih =>
    have hchained := operand.chained_le_levels
    simp only [heightBound, Phrase.levels, Phrase.chained] at ih ⊢
    omega
  | chain left h right ihl ihr =>
    have hchained := right.chained_le_levels
    have hl := operandHeight_mono (le_max_left left.levels (left.chained + 1 + right.levels))
    have hr := operandHeight_mono (show right.levels ≤
      max left.levels (left.chained + 1 + right.levels) by omega)
    simp only [heightBound, Phrase.levels, Phrase.chained, Formula.height] at ihl ihr ⊢
    omega

theorem Phrase.height_le_of_levels_le {ls : List Lexeme} {f : Formula} {n : Nat}
    (p : Phrase .sum ls f) (h : p.levels ≤ n) : f.height ≤ n * (n + 3) := by
  have hheight := p.height_le
  have hchained := p.chained_le_levels
  have hmono := operandHeight_mono h
  have hbound : operandHeight n + n + n = n * (n + 3) := by
    unfold operandHeight
    ring
  simp only [heightBound] at hheight
  omega

/-! ## Highest expressions -/

/-- Some expression that can be written has the rank, levels, chain and height. -/
def Reaches (r : Rank) (levels chained height : Nat) : Prop :=
  ∃ ls f, ∃ p : Phrase r ls f, (∀ l ∈ ls, l.Proper) ∧
    p.levels = levels ∧ p.chained = chained ∧ f.height = height

variable {n k height : Nat}

theorem proper_x : (Lexeme.name ['x']).Proper := ⟨'x', [], rfl, rfl, nofun⟩

theorem proper_join {ls ms : List Lexeme} {l : Lexeme} (hls : ∀ m ∈ ls, m.Proper)
    (hl : l.Proper) (hms : ∀ m ∈ ms, m.Proper) : ∀ m ∈ ls ++ l :: ms, m.Proper := by
  simp only [List.mem_append, List.mem_cons]
  rintro m (hm | rfl | hm)
  · exact hls m hm
  · exact hl
  · exact hms m hm

theorem reaches_x : Reaches .primary 0 0 0 :=
  ⟨[.name ['x']], .variable, .x rfl, by simp [proper_x], rfl, rfl, rfl⟩

theorem Reaches.operand (h : Reaches .primary n 0 height) : Reaches .unary n 0 height := by
  obtain ⟨ls, f, p, hls, hlevels, -, hheight⟩ := h
  exact ⟨ls, f, .unsigned (.base p), hls, hlevels, rfl, hheight⟩

theorem Reaches.call (h : Reaches .sum n k height) : Reaches .primary (n + 1) 0 (height + 1) := by
  obtain ⟨ls, f, p, hls, hlevels, -, hheight⟩ := h
  have habs : (Lexeme.name ['a', 'b', 's']).Proper := ⟨'a', ['b', 's'], rfl, rfl, List.all_eq_true.1 rfl⟩
  let q : Phrase .primary
      ([.name ['a', 'b', 's']] ++ .symbol '(' :: (ls ++ [.symbol ')'])) (.call .abs f) :=
    .call (by decide) p
  have hq : ∀ l ∈ [.name ['a', 'b', 's']] ++ .symbol '(' :: (ls ++ [.symbol ')']), l.Proper :=
    proper_join (by simp [habs]) ⟨rfl, rfl, rfl⟩ (proper_join hls ⟨rfl, rfl, rfl⟩ (by simp))
  exact ⟨_, _, q, hq, congrArg (· + 1) hlevels, rfl, congrArg (· + 1) hheight⟩

theorem Reaches.power (h : Reaches .primary (n + 1) 0 height) :
    Reaches .unary (n + 1) 0 (height + 1) := by
  obtain ⟨ls, f, p, hls, hlevels, -, hheight⟩ := h
  obtain ⟨ms, g, q, hms, hlevels', -, hheight'⟩ := reaches_x.operand
  refine ⟨_, .binary .pow f g, .unsigned (.exponent p q), ?_, ?_, rfl, ?_⟩
  · exact proper_join hls ⟨rfl, rfl, rfl⟩ hms
  · simp [Phrase.levels, hlevels, hlevels']
  · simp [Formula.height, hheight, hheight']

/-- A chain of products can be as long as it has levels. -/
theorem Reaches.product (h : Reaches .unary n 0 height) (hk : k ≤ n) :
    Reaches .term n k (height + k) := by
  induction k with
  | zero =>
    obtain ⟨ls, f, p, hls, hlevels, -, hheight⟩ := h
    exact ⟨ls, f, .factor p, hls, hlevels, rfl, hheight⟩
  | succ k ih =>
    obtain ⟨ls, f, p, hls, hlevels, hchained, hheight⟩ := ih (by omega)
    obtain ⟨ms, g, q, hms, hlevels', -, hheight'⟩ := reaches_x.operand
    refine ⟨_, .binary .mul f g, .product p (.head _) q, ?_, ?_, ?_, ?_⟩
    · exact proper_join hls ⟨rfl, rfl, rfl⟩ hms
    · simp only [Phrase.levels]
      omega
    · simp only [Phrase.chained, hchained]
    · simp only [Formula.height]
      omega

/-- So can a chain of sums, behind it. -/
theorem Reaches.sum (h : Reaches .term n n height) (hk : k ≤ n) :
    Reaches .sum n k (height + k) := by
  induction k with
  | zero =>
    obtain ⟨ls, f, p, hls, hlevels, -, hheight⟩ := h
    exact ⟨ls, f, .addend p, hls, hlevels, rfl, hheight⟩
  | succ k ih =>
    obtain ⟨ls, f, p, hls, hlevels, hchained, hheight⟩ := ih (by omega)
    obtain ⟨ms, g, q, hms, hlevels', -, hheight'⟩ := (reaches_x.operand).product (Nat.le_refl 0)
    refine ⟨_, .binary .add f g, .chain p (.head _) q, ?_, ?_, ?_, ?_⟩
    · exact proper_join hls ⟨rfl, rfl, rfl⟩ hms
    · simp only [Phrase.levels]
      omega
    · simp only [Phrase.chained, hchained]
    · simp only [Formula.height]
      omega

theorem reaches_operandHeight (n : Nat) : Reaches .unary n 0 (operandHeight n) := by
  induction n with
  | zero => exact reaches_x.operand
  | succ n ih =>
    -- One level more, for the call, allows both chains once again and a power on top.
    have hsum := ((ih.product (Nat.le_refl n)).sum (Nat.le_refl n)).call.power
    rw [operandHeight_succ]
    convert hsum using 1
    omega

theorem exists_highest (n : Nat) : Reaches .sum n n (n * (n + 3)) := by
  have hsum := ((reaches_operandHeight n).product (Nat.le_refl n)).sum (Nat.le_refl n)
  convert hsum using 1
  unfold operandHeight
  ring

/-! ## The limit of the parser -/

/-- The text is read as the formula, and a phrase of it uses up so many levels at most. -/
def ReadWithin (n : Nat) (source : String) (f : Formula) : Prop :=
  Expression.parse source = .ok ⟨source, f⟩ ∧
    ∃ ls, Spells source.toList ls ∧ ∃ p : Phrase .sum ls f, p.levels ≤ n

/-- Everything that is read is read within the limit. -/
theorem readWithin_maxLevels_iff {source : String} {f : Formula} :
    ReadWithin maxLevels source f ↔ Expression.parse source = .ok ⟨source, f⟩ := by
  refine and_iff_left_of_imp fun hparse => ?_
  obtain ⟨-, ls, hspells, p, hlevels⟩ := exists_phrase_of_parse hparse
  exact ⟨ls, hspells, p, hlevels⟩

theorem exists_readWithin_of_reaches {levels : Nat} (h : Reaches .sum levels k height)
    (hlevels : levels ≤ maxLevels) :
    ∃ source f, ReadWithin levels source f ∧ f.height = height := by
  obtain ⟨ls, f, p, hls, hp, -, hheight⟩ := h
  have hspells : Spells (String.ofList (spaced ls)).toList ls := by
    rw [String.toList_ofList]
    exact spells_spaced hls
  have hparse := (parse_yields hspells p).1 (by omega)
  exact ⟨_, f, ⟨hparse, ls, hspells, p, Nat.le_of_eq hp⟩, hheight⟩

/-- `n` levels allow a height of `n * (n + 3)`, and no more.  So the limit of the levels, all of
which may be used up, is a limit of the height for texts that are read within 14 of them only. -/
theorem isGreatest_height {n : Nat} (hn : n ≤ maxLevels) :
    IsGreatest { h | ∃ source f, ReadWithin n source f ∧ f.height = h } (n * (n + 3)) ∧
      ((∀ source f, ReadWithin n source f → f.height ≤ maxLevels) ↔ n ≤ 14) ∧
      ∀ source f, ReadWithin maxLevels source f ↔ Expression.parse source = .ok ⟨source, f⟩ := by
  have hbound : ∀ source f, ReadWithin n source f → f.height ≤ n * (n + 3) :=
    fun source f ⟨_, ls, _, p, hlevels⟩ => p.height_le_of_levels_le hlevels
  obtain ⟨source, f, hread, hheight⟩ := exists_readWithin_of_reaches (exists_highest n) hn
  refine ⟨⟨⟨source, f, hread, hheight⟩, ?_⟩, ⟨fun hall => ?_, fun hfew source f hread => ?_⟩,
    fun _ _ => readWithin_maxLevels_iff⟩
  · rintro _ ⟨source, f, hread, rfl⟩
    exact hbound source f hread
  · by_contra hmany
    have hle := hall source f hread
    have hmono : 15 * 18 ≤ n * (n + 3) := Nat.mul_le_mul (by omega) (by omega)
    have hlimit : maxLevels < 15 * 18 := by decide
    omega
  · have hle := hbound source f hread
    have hmono : n * (n + 3) ≤ 14 * 17 := Nat.mul_le_mul hfew (by omega)
    have hlimit : 14 * 17 ≤ maxLevels := by decide
    omega

theorem isGreatest_height_sample :
    1 ≤ maxLevels ∧ ∃ f, ReadWithin 1 "abs(x)^x*x+x" f ∧ f.height = 1 * (1 + 3) ∧
      ∀ source g, ReadWithin 1 source g → g.height ≤ f.height ∧ g.height ≤ maxLevels := by
  let x : Phrase .unary [.name ['x']] .variable := .unsigned (.base (.x rfl))
  have habs : String.ofList (['a', 'b', 's'].map Char.toLower) = Function.abs.name := rfl
  let power : Phrase .unary _ (.binary .pow (.call .abs .variable) .variable) :=
    .unsigned (.exponent (.call habs (.addend (.factor x))) x)
  have hspells : Spells "abs(x)^x*x+x".toList
      [.name ['a', 'b', 's'], .symbol '(', .name ['x'], .symbol ')', .symbol '^', .name ['x'],
        .symbol '*', .name ['x'], .symbol '+', .name ['x']] := spells_iff.2 rfl
  let p := Phrase.chain (.addend (.product (.factor power) (.head _) x)) (.head _) (.factor x)
  have hlevels : p.levels = 1 := rfl
  have hparse := (parse_yields hspells p).1 (hlevels.trans_le (by decide))
  obtain ⟨⟨-, hgreatest⟩, hlimit, -⟩ := isGreatest_height (n := 1) (by decide)
  refine ⟨by decide, _, ⟨hparse, _, hspells, p, hlevels.le⟩, rfl, fun source g hread => ⟨?_, ?_⟩⟩
  · exact hgreatest ⟨source, g, hread, rfl⟩
  · exact hlimit.2 (by decide) source g hread

/-- Signs in front of an operand, each one level down. -/
theorem exists_signed {ls : List Lexeme} {f : Formula} (p : Phrase .unary ls f) (n : Nat) :
    ∃ g, ∃ q : Phrase .unary (List.replicate n (.symbol '-') ++ ls) g,
      q.levels = p.levels + n ∧ g.height = f.height + n := by
  induction n with
  | zero => exact ⟨f, p, rfl, rfl⟩
  | succ n ih =>
    obtain ⟨g, q, hlevels, hheight⟩ := ih
    exact ⟨.negate g, .minus q, congrArg (· + 1) hlevels, congrArg (· + 1) hheight⟩

theorem Spells.signed {cs : List Char} {ls : List Lexeme} (h : Spells cs ls) (n : Nat) :
    Spells (List.replicate n '-' ++ cs) (List.replicate n (.symbol '-') ++ ls) := by
  induction n with
  | zero => exact h
  | succ n ih => exact .symbol rfl rfl rfl ih

/-- The levels of signs are free again for the product that they are the first factor of. -/
theorem parse_signed_product {n : Nat} (hn : n ≤ maxLevels) :
    ∃ e, Expression.parse (String.ofList (List.replicate n '-' ++ ['x', '*', 'x'])) = .ok e ∧
      e.formula.height = n + 1 := by
  let x : Phrase .unary [.name ['x']] .variable := .unsigned (.base (.x rfl))
  obtain ⟨g, q, hlevels, hheight⟩ := exists_signed x n
  have hspells : Spells ['x', '*', 'x'] [.name ['x'], .symbol '*', .name ['x']] :=
    spells_iff.2 rfl
  let p : Phrase .sum _ (.binary .mul g .variable) := .addend (.product (.factor q) (.head _) x)
  have hp : p.levels ≤ maxLevels := by
    have hone : 1 ≤ maxLevels := by decide
    simp only [p, x, Phrase.levels, Phrase.chained] at hlevels ⊢
    omega
  refine ⟨_, (parse_yields ?_ p).1 hp, ?_⟩
  · simpa using hspells.signed n
  · simp [Formula.height, hheight]

theorem signed_product_too_high :
    ∃ e, Expression.parse (String.ofList (List.replicate 256 '-' ++ ['x', '*', 'x'])) = .ok e ∧
      e.formula.height = 257 ∧ maxLevels < e.formula.height := by
  obtain ⟨e, hparse, hheight⟩ := parse_signed_product (n := 256) (by decide)
  exact ⟨e, hparse, hheight, by rw [hheight]; decide⟩

end Expression
end TreeFlow
