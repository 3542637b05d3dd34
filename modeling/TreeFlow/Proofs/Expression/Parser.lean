import TreeFlow.Proofs.Except
import TreeFlow.Proofs.Expression.Grammar
/-
The parser accepts the sentences of the grammar.

What the parser makes of some tokens is a phrase (`sound`), and a phrase is read if its levels are
there; if not, the text is refused for its nesting (`Phrase.reads`).  Both are about any tokens
that follow, so an operand in the middle of a text is no special case.

`parse_iff_sentence` is the result for whole texts.
-/

namespace TreeFlow
namespace Expression

variable {stop levels : Nat} {f g : Formula} {ts rest : List Token}

abbrev lexemes (ts : List Token) : List Lexeme := ts.map Token.lexeme

/-! ## The parser, one rule at a time -/

/-- A sum in parentheses or after the name of a function: one level down. -/
def groupAt (stop levels position : Nat) (ts : List Token) : Parsed :=
  match levels with
  | 0 => .error (.tooDeep position)
  | levels + 1 => sum stop levels ts

/-- The exponent of a base, if one follows. -/
def exponentTail (stop levels : Nat) (base : Formula) (ts : List Token) : Parsed :=
  match ts with
  | ⟨position, .symbol '^'⟩ :: rest =>
    match levels with
    | 0 => .error (.tooDeep (position + 1))
    | levels + 1 => do
      let (exponent, rest) ← unary stop levels rest
      return (.binary .pow base exponent, rest)
  | rest => return (base, rest)

/-- An operand without a sign. -/
def power (stop levels : Nat) (ts : List Token) : Parsed := do
  let (base, rest) ← primary stop (groupAt stop levels) ts
  exponentTail stop levels base rest

/-- The next token is none of the symbols. -/
def NotAhead (symbols : List Char) (ts : List Token) : Prop :=
  ∀ t ∈ ts.head?, ∀ c ∈ symbols, t.lexeme ≠ .symbol c

theorem NotAhead.not_mem {symbols : List Char} {position : Nat} {c : Char}
    (h : NotAhead symbols (⟨position, .symbol c⟩ :: ts)) : c ∉ symbols :=
  fun hc => h _ rfl c hc rfl

theorem unary_eq_power (h : NotAhead ['-', '+'] ts) : unary stop levels ts = power stop levels ts := by
  have hgroup : (fun position ts => match levels with
      | 0 => .error (.tooDeep position)
      | levels + 1 => do
        let (first, rest) ← unary stop levels ts
        let (term, rest) ← termTail stop levels first rest
        sumTail stop levels term rest) = groupAt stop levels := by
    funext position ts
    cases levels with
    | zero => rfl
    | succ levels => simp only [groupAt, sum, term, bind_assoc]
  rw [unary.eq_def]
  split
  · exact absurd (by simp) h.not_mem
  · exact absurd (by simp) h.not_mem
  · rw [power, ← hgroup]
    rfl

theorem exponentTail_stop (h : NotAhead ['^'] ts) :
    exponentTail stop levels f ts = .ok (f, ts) := by
  unfold exponentTail
  split
  · exact absurd (by simp) h.not_mem
  · rfl

theorem unary_minus (position : Nat) :
    unary stop levels (⟨position, .symbol '-'⟩ :: ts) = match levels with
      | 0 => .error (.tooDeep (position + 1))
      | levels + 1 => do
        let (operand, rest) ← unary stop levels ts
        return (.negate operand, rest) := by
  rw [unary.eq_def]
  rfl

theorem unary_plus (position : Nat) :
    unary stop levels (⟨position, .symbol '+'⟩ :: ts) = match levels with
      | 0 => .error (.tooDeep (position + 1))
      | levels + 1 => unary stop levels ts := by
  rw [unary.eq_def]
  rfl

theorem expect_eq_ok_iff {c : Char} {position : Nat} :
    expect stop c ts = .ok (position, rest) ↔ ts = ⟨position, .symbol c⟩ :: rest := by
  unfold expect
  split
  · rename_i p d tail
    by_cases hd : c = d
    · subst hd
      simp [eq_comm]
    · simp [hd, Ne.symm hd]
  · rename_i hother
    constructor
    · intro h
      cases h
    · intro h
      exact absurd h (hother _ _ _)

theorem additive?_eq_some_iff {l : Lexeme} {op : Operator} :
    additive? l = some op ↔ ∃ c, l = .symbol c ∧ (c, op) ∈ additive := by
  constructor
  · intro h
    unfold additive? at h
    split at h
    · exact ⟨'+', rfl, by simp_all [additive]⟩
    · exact ⟨'-', rfl, by simp_all [additive]⟩
    · cases h
  · rintro ⟨c, rfl, h⟩
    simp only [additive, List.mem_cons, List.not_mem_nil, or_false, Prod.mk.injEq] at h
    rcases h with ⟨rfl, rfl⟩ | ⟨rfl, rfl⟩ <;> rfl

theorem multiplicative?_eq_some_iff {l : Lexeme} {op : Operator} :
    multiplicative? l = some op ↔ ∃ c, l = .symbol c ∧ (c, op) ∈ multiplicative := by
  constructor
  · intro h
    unfold multiplicative? at h
    split at h
    · exact ⟨'*', rfl, by simp_all [multiplicative]⟩
    · exact ⟨'/', rfl, by simp_all [multiplicative]⟩
    · exact ⟨'%', rfl, by simp_all [multiplicative]⟩
    · cases h
  · rintro ⟨c, rfl, h⟩
    simp only [multiplicative, List.mem_cons, List.not_mem_nil, or_false, Prod.mk.injEq] at h
    rcases h with ⟨rfl, rfl⟩ | ⟨rfl, rfl⟩ | ⟨rfl, rfl⟩ <;> rfl

/-- Either the next token is an operator of the table, or it is none of its symbols. -/
theorem operator_cases (table : List (Char × Operator)) (ts : List Token) :
    (∃ position c op us, (c, op) ∈ table ∧ ts = ⟨position, .symbol c⟩ :: us) ∨
      NotAhead (table.map Prod.fst) ts := by
  by_cases h : NotAhead (table.map Prod.fst) ts
  · exact .inr h
  · left
    simp only [NotAhead, not_forall, not_not] at h
    obtain ⟨⟨position, lexeme⟩, ht, c, hc, rfl⟩ := h
    obtain ⟨⟨c, op⟩, hmem, rfl⟩ := List.mem_map.1 hc
    exact ⟨position, c, op, ts.tail, hmem, (List.cons_head?_tail ht).symm⟩

theorem NotAhead.lookup_eq_none {table : List (Char × Operator)} {t : Token}
    {lookup : Lexeme → Option Operator} (h : NotAhead (table.map Prod.fst) (t :: ts))
    (hlookup : ∀ op, lookup t.lexeme = some op → ∃ c, t.lexeme = .symbol c ∧ (c, op) ∈ table) :
    lookup t.lexeme = none := by
  rw [Option.eq_none_iff_forall_ne_some]
  intro op hop
  obtain ⟨c, hlexeme, hc⟩ := hlookup op hop
  exact h t rfl c (List.mem_map_of_mem hc) hlexeme

theorem termTail_stop (h : NotAhead (multiplicative.map Prod.fst) ts) :
    termTail stop levels f ts = .ok (f, ts) := by
  rw [termTail.eq_def]
  split
  · rfl
  · rename_i t us
    rw [h.lookup_eq_none fun op => multiplicative?_eq_some_iff.1]

theorem termTail_operator {position : Nat} {c : Char} {op : Operator}
    (h : (c, op) ∈ multiplicative) :
    termTail stop levels f (⟨position, .symbol c⟩ :: ts) = (match levels with
      | 0 => .error (.tooDeep position)
      | levels + 1 => do
        let (right, rest) ← unary stop levels ts
        termTail stop levels (.binary op f right) rest) := by
  have hop := multiplicative?_eq_some_iff.2 ⟨c, rfl, h⟩
  cases levels with
  | zero => simp only [termTail.eq_def stop 0, hop]
  | succ levels => simp only [termTail.eq_def stop (levels + 1), hop]

theorem sumTail_stop (h : NotAhead (additive.map Prod.fst) ts) :
    sumTail stop levels f ts = .ok (f, ts) := by
  rw [sumTail.eq_def]
  split
  · rfl
  · rename_i t us
    rw [h.lookup_eq_none fun op => additive?_eq_some_iff.1]

theorem sumTail_operator {position : Nat} {c : Char} {op : Operator} (h : (c, op) ∈ additive) :
    sumTail stop levels f (⟨position, .symbol c⟩ :: ts) = (match levels with
      | 0 => .error (.tooDeep position)
      | levels + 1 => do
        let (right, rest) ← term stop levels ts
        sumTail stop levels (.binary op f right) rest) := by
  have hop := additive?_eq_some_iff.2 ⟨c, rfl, h⟩
  cases levels with
  | zero => simp only [sumTail.eq_def stop 0, hop]
  | succ levels => simp only [sumTail.eq_def stop (levels + 1), hop, term, bind_assoc]

/-! ## What is parsed is a phrase -/

/-- The tokens up to the rest make a phrase. -/
def Built (r : Rank) (ts : List Token) (f : Formula) (rest : List Token) : Prop :=
  ∃ us, ts = us ++ rest ∧ Nonempty (Phrase r (lexemes us) f)

/-- What the parser makes of tokens with some levels left are phrases. -/
structure Sound (stop levels : Nat) : Prop where
  unary : ∀ {ts f rest}, unary stop levels ts = .ok (f, rest) → Built .unary ts f rest
  termTail : ∀ {ts left us f rest}, Built .term ts left us →
    termTail stop levels left us = .ok (f, rest) → Built .term ts f rest
  sumTail : ∀ {ts left us f rest}, Built .sum ts left us →
    sumTail stop levels left us = .ok (f, rest) → Built .sum ts f rest

theorem Built.map {r r' : Rank} (k : ∀ {ls}, Phrase r ls f → Phrase r' ls g)
    (h : Built r ts f rest) : Built r' ts g rest := by
  obtain ⟨us, hts, ⟨p⟩⟩ := h
  exact ⟨us, hts, ⟨k p⟩⟩

theorem Built.cons {r r' : Rank} {t : Token}
    (k : ∀ {ls}, Phrase r ls f → Phrase r' (t.lexeme :: ls) g) (h : Built r ts f rest) :
    Built r' (t :: ts) g rest := by
  obtain ⟨us, rfl, ⟨p⟩⟩ := h
  exact ⟨t :: us, rfl, ⟨k p⟩⟩

/-- Two phrases with a symbol between them. -/
theorem Built.join {r r' r'' : Rank} {h : Formula} {position : Nat} {c : Char} {us : List Token}
    (k : ∀ {ls ms}, Phrase r ls f → Phrase r' ms g → Phrase r'' (ls ++ .symbol c :: ms) h)
    (hleft : Built r ts f (⟨position, .symbol c⟩ :: us)) (hright : Built r' us g rest) :
    Built r'' ts h rest := by
  obtain ⟨ls, rfl, ⟨p⟩⟩ := hleft
  obtain ⟨ms, rfl, ⟨q⟩⟩ := hright
  refine ⟨ls ++ ⟨position, .symbol c⟩ :: ms, by simp, ⟨?_⟩⟩
  simpa [lexemes] using k p q

/-- A phrase between some tokens and a symbol. -/
theorem Built.enclose {r r' : Rank} (before : List Token) {position : Nat} {c : Char}
    (k : ∀ {ls}, Phrase r ls f → Phrase r' (lexemes before ++ (ls ++ [.symbol c])) g)
    (h : Built r ts f (⟨position, .symbol c⟩ :: rest)) : Built r' (before ++ ts) g rest := by
  obtain ⟨us, rfl, ⟨p⟩⟩ := h
  refine ⟨before ++ (us ++ [⟨position, .symbol c⟩]), by simp, ⟨?_⟩⟩
  simpa [lexemes] using k p

theorem primary_sound {group : Nat → List Token → Parsed}
    (hgroup : ∀ {position ts f rest}, group position ts = .ok (f, rest) → Built .sum ts f rest)
    (h : primary stop group ts = .ok (f, rest)) : Built .primary ts f rest := by
  cases ts with
  | nil => cases h
  | cons t ts =>
    obtain ⟨position, lexeme⟩ := t
    cases lexeme with
    | number text =>
      simp only [primary] at h
      split at h
      · rename_i value hvalue
        cases h
        exact ⟨[_], rfl, ⟨.number hvalue⟩⟩
      · cases h
    | name letters =>
      simp only [primary] at h
      split at h
      · rename_i hx
        cases h
        exact ⟨[_], rfl, ⟨.x hx⟩⟩
      split at h
      · rename_i hpi
        cases h
        exact ⟨[_], rfl, ⟨.pi hpi⟩⟩
      split at h
      · cases h
      · rename_i function hfunction
        obtain ⟨⟨opening, us⟩, hopening, h⟩ := Except.bind_eq_ok_iff.1 h
        obtain ⟨⟨argument, vs⟩, hargument, h⟩ := Except.bind_eq_ok_iff.1 h
        obtain ⟨⟨closing, ws⟩, hclosing, h⟩ := Except.bind_eq_ok_iff.1 h
        cases h
        obtain rfl := expect_eq_ok_iff.1 hopening
        obtain rfl := expect_eq_ok_iff.1 hclosing
        exact (hgroup hargument).enclose [⟨position, .name letters⟩, ⟨opening, .symbol '('⟩]
          (.call (Function.ofName?_eq_some_iff.1 hfunction))
    | symbol c =>
      simp only [primary] at h
      split at h
      · rename_i hc
        subst hc
        obtain ⟨⟨inner, us⟩, hinner, h⟩ := Except.bind_eq_ok_iff.1 h
        obtain ⟨⟨closing, vs⟩, hclosing, h⟩ := Except.bind_eq_ok_iff.1 h
        cases h
        obtain rfl := expect_eq_ok_iff.1 hclosing
        exact (hgroup hinner).enclose [⟨position, .symbol '('⟩] .group
      · cases h

theorem Sound.term (hsound : Sound stop levels) (h : term stop levels ts = .ok (f, rest)) :
    Built .term ts f rest := by
  obtain ⟨⟨first, us⟩, hfirst, h⟩ := Except.bind_eq_ok_iff.1 h
  exact hsound.termTail ((hsound.unary hfirst).map .factor) h

theorem Sound.sum (hsound : Sound stop levels) (h : sum stop levels ts = .ok (f, rest)) :
    Built .sum ts f rest := by
  obtain ⟨⟨first, us⟩, hfirst, h⟩ := Except.bind_eq_ok_iff.1 h
  exact hsound.sumTail ((hsound.term hfirst).map .addend) h

theorem groupAt_sound (below : ∀ l, levels = l + 1 → Sound stop l) {position : Nat}
    (h : groupAt stop levels position ts = .ok (f, rest)) : Built .sum ts f rest := by
  cases levels with
  | zero => cases h
  | succ levels => exact (below levels rfl).sum h

theorem power_sound (below : ∀ l, levels = l + 1 → Sound stop l)
    (h : power stop levels ts = .ok (f, rest)) : Built .power ts f rest := by
  obtain ⟨⟨base, us⟩, hbase, htail⟩ := Except.bind_eq_ok_iff.1 h
  have hbuilt := primary_sound (groupAt_sound below) hbase
  simp only [exponentTail] at htail
  split at htail
  · split at htail
    · cases htail
    · obtain ⟨⟨exponent, vs⟩, hexponent, htail⟩ := Except.bind_eq_ok_iff.1 htail
      cases htail
      exact hbuilt.join .exponent ((below _ rfl).unary hexponent)
  · cases htail
    exact hbuilt.map .base

theorem sign_cases (ts : List Token) :
    (∃ position us, ts = ⟨position, .symbol '-'⟩ :: us) ∨
      (∃ position us, ts = ⟨position, .symbol '+'⟩ :: us) ∨ NotAhead ['-', '+'] ts := by
  cases ts with
  | nil => exact .inr (.inr (by simp [NotAhead]))
  | cons t us =>
    obtain ⟨position, lexeme⟩ := t
    by_cases hminus : lexeme = .symbol '-'
    · exact .inl ⟨position, us, by rw [hminus]⟩
    by_cases hplus : lexeme = .symbol '+'
    · exact .inr (.inl ⟨position, us, by rw [hplus]⟩)
    · exact .inr (.inr (by simp [NotAhead, hminus, hplus]))

theorem unary_sound (below : ∀ l, levels = l + 1 → Sound stop l)
    (h : unary stop levels ts = .ok (f, rest)) : Built .unary ts f rest := by
  rcases sign_cases ts with ⟨position, us, rfl⟩ | ⟨position, us, rfl⟩ | hsign
  · rw [unary_minus] at h
    cases levels with
    | zero => cases h
    | succ levels =>
      obtain ⟨⟨operand, vs⟩, hoperand, h⟩ := Except.bind_eq_ok_iff.1 h
      cases h
      exact ((below levels rfl).unary hoperand).cons .minus
  · rw [unary_plus] at h
    cases levels with
    | zero => cases h
    | succ levels => exact ((below levels rfl).unary h).cons .plus
  · rw [unary_eq_power hsign] at h
    exact (power_sound below h).map .unsigned

theorem termTail_sound (below : ∀ l, levels = l + 1 → Sound stop l) {left : Formula}
    {us : List Token} (hleft : Built .term ts left us)
    (h : termTail stop levels left us = .ok (f, rest)) : Built .term ts f rest := by
  rcases operator_cases multiplicative us with ⟨position, c, op, vs, hc, rfl⟩ | hstop
  · rw [termTail_operator hc] at h
    cases levels with
    | zero => cases h
    | succ levels =>
      have hsound := below levels rfl
      obtain ⟨⟨right, ws⟩, hright, h⟩ := Except.bind_eq_ok_iff.1 h
      exact hsound.termTail (hleft.join (.product · hc) (hsound.unary hright)) h
  · rw [termTail_stop hstop] at h
    cases h
    exact hleft

theorem sumTail_sound (below : ∀ l, levels = l + 1 → Sound stop l) {left : Formula}
    {us : List Token} (hleft : Built .sum ts left us)
    (h : sumTail stop levels left us = .ok (f, rest)) : Built .sum ts f rest := by
  rcases operator_cases additive us with ⟨position, c, op, vs, hc, rfl⟩ | hstop
  · rw [sumTail_operator hc] at h
    cases levels with
    | zero => cases h
    | succ levels =>
      have hsound := below levels rfl
      obtain ⟨⟨right, ws⟩, hright, h⟩ := Except.bind_eq_ok_iff.1 h
      exact hsound.sumTail (hleft.join (.chain · hc) (hsound.term hright)) h
  · rw [sumTail_stop hstop] at h
    cases h
    exact hleft

theorem sound (stop levels : Nat) : Sound stop levels := by
  have close : ∀ l, (∀ l', l = l' + 1 → Sound stop l') → Sound stop l := fun _ below =>
    ⟨unary_sound below, termTail_sound below, sumTail_sound below⟩
  -- Every call that goes on behind a token has a level less, so the induction is on the levels.
  induction levels with
  | zero => exact close 0 nofun
  | succ levels ih => exact close _ fun l hl => Nat.succ.inj hl ▸ ih

/-! ## Phrases are parsed if they fit -/

/-- The result of a parser where the levels suffice is `x`, and elsewhere the fault of nesting. -/
structure Yields (fits : Prop) (result x : Parsed) : Prop where
  ok : fits → result = x
  tooDeep : ¬ fits → ∃ position, result = .error (.tooDeep position)

theorem Yields.of_eq {result x : Parsed} (h : result = x) : Yields True result x :=
  ⟨fun _ => h, fun hnot => absurd trivial hnot⟩

theorem Yields.of_tooDeep {fits : Prop} (h : ¬ fits) (position : Nat) (x : Parsed) :
    Yields fits (.error (.tooDeep position)) x :=
  ⟨fun hfits => absurd hfits h, fun _ => ⟨position, rfl⟩⟩

theorem Yields.congr {fits fits' : Prop} {result x : Parsed} (h : Yields fits result x)
    (hiff : fits ↔ fits') : Yields fits' result x :=
  ⟨fun hfits => h.ok (hiff.2 hfits), fun hnot => h.tooDeep fun hfits => hnot (hiff.1 hfits)⟩

theorem Yields.trans {fits fits' : Prop} {result x y : Parsed} (h : Yields fits result x)
    (h' : Yields fits' x y) : Yields (fits ∧ fits') result y := by
  constructor
  · rintro ⟨hfits, hfits'⟩
    rw [h.ok hfits, h'.ok hfits']
  · intro hnot
    by_cases hfits : fits
    · rw [h.ok hfits]
      exact h'.tooDeep fun hfits' => hnot ⟨hfits, hfits'⟩
    · exact h.tooDeep hfits

theorem Yields.bind {fits fits' : Prop} {result x : Parsed}
    {k : Formula × List Token → Parsed} (h : Yields fits result (.ok (f, ts)))
    (hk : Yields fits' (k (f, ts)) x) : Yields (fits ∧ fits') (result >>= k) x := by
  constructor
  · rintro ⟨hfits, hfits'⟩
    rw [h.ok hfits, Except.ok_bind, hk.ok hfits']
  · intro hnot
    by_cases hfits : fits
    · rw [h.ok hfits, Except.ok_bind]
      exact hk.tooDeep fun hfits' => hnot ⟨hfits, hfits'⟩
    · obtain ⟨position, herror⟩ := h.tooDeep hfits
      exact ⟨position, by rw [herror]; rfl⟩

theorem Yields.andThen {fits : Prop} {result x : Parsed} {k : Formula × List Token → Parsed}
    (h : Yields fits result (.ok (f, ts))) (hk : k (f, ts) = x) : Yields fits (result >>= k) x :=
  (h.bind (.of_eq hk)).congr (by simp)

/-- The parser reads the tokens of a phrase, whatever follows them that does not continue it.
Behind a term or a sum its chain is still open, with a level less for each operator so far. -/
def Phrase.Reads (stop : Nat) {r : Rank} {ls : List Lexeme} {f : Formula} (p : Phrase r ls f) :
    Prop :=
  ∀ levels us rest, lexemes us = ls → match r with
    | .primary => Yields (p.levels ≤ levels)
        (primary stop (groupAt stop levels) (us ++ rest)) (.ok (f, rest))
    | .power => NotAhead ['^'] rest →
        Yields (p.levels ≤ levels) (power stop levels (us ++ rest)) (.ok (f, rest))
    | .unary => NotAhead ['^'] rest →
        Yields (p.levels ≤ levels) (unary stop levels (us ++ rest)) (.ok (f, rest))
    | .term => NotAhead ['^'] rest →
        Yields (p.levels ≤ levels) (term stop levels (us ++ rest))
          (termTail stop (levels - p.chained) f rest)
    | .sum => NotAhead ('^' :: multiplicative.map Prod.fst) rest →
        Yields (p.levels ≤ levels) (sum stop levels (us ++ rest))
          (sumTail stop (levels - p.chained) f rest)

theorem exists_of_lexemes_eq_cons {us : List Token} {l : Lexeme} {ls : List Lexeme}
    (h : lexemes us = l :: ls) : ∃ position vs, us = ⟨position, l⟩ :: vs ∧ lexemes vs = ls := by
  obtain ⟨t, vs, rfl, rfl, hvs⟩ := List.map_eq_cons_iff.1 h
  exact ⟨t.position, vs, rfl, hvs⟩

theorem exists_of_lexemes_eq_join {us : List Token} {l : Lexeme} {ls ms : List Lexeme}
    (h : lexemes us = ls ++ l :: ms) :
    ∃ vs position ws, us = vs ++ ⟨position, l⟩ :: ws ∧ lexemes vs = ls ∧ lexemes ws = ms := by
  obtain ⟨vs, ws', rfl, hvs, hws'⟩ := List.map_eq_append_iff.1 h
  obtain ⟨position, ws, rfl, hws⟩ := exists_of_lexemes_eq_cons hws'
  exact ⟨vs, position, ws, rfl, hvs, hws⟩

theorem NotAhead.of_not_mem {symbols : List Char} {position : Nat} {c : Char} (h : c ∉ symbols) :
    NotAhead symbols (⟨position, .symbol c⟩ :: ts) := by
  intro t ht d hd heq
  obtain rfl := Option.some.inj ht
  obtain rfl := Lexeme.symbol.inj heq
  exact h hd

theorem NotAhead.mono {symbols symbols' : List Char} (h : NotAhead symbols ts)
    (hsub : ∀ c ∈ symbols', c ∈ symbols) : NotAhead symbols' ts :=
  fun t ht c hc => h t ht c (hsub c hc)

namespace Phrase

variable {ls ms : List Lexeme}

/-- A primary does not start with a sign, nor does an operand that starts with one. -/
theorem head_primary (p : Phrase .primary ls f) :
    ∃ l ms, ls = l :: ms ∧ l ≠ .symbol '-' ∧ l ≠ .symbol '+' := by
  cases p with
  | _ => exact ⟨_, _, rfl, by simp, by simp⟩

theorem head_power (p : Phrase .power ls f) :
    ∃ l ms, ls = l :: ms ∧ l ≠ .symbol '-' ∧ l ≠ .symbol '+' := by
  cases p with
  | base b => exact b.head_primary
  | exponent b e =>
    obtain ⟨l, ms, rfl, hl⟩ := b.head_primary
    exact ⟨l, _, rfl, hl⟩

/-- A primary of one lexeme needs no levels. -/
theorem reads_leaf {l : Lexeme} (p : Phrase .primary [l] f) (hlevels : p.levels = 0)
    (h : ∀ group position rest, primary stop group (⟨position, l⟩ :: rest) = .ok (f, rest)) :
    p.Reads stop := by
  intro levels us rest hus
  obtain ⟨position, vs, rfl, hvs⟩ := exists_of_lexemes_eq_cons hus
  obtain rfl := List.map_eq_nil_iff.1 hvs
  exact (Yields.of_eq (h _ position rest)).congr (by simp [hlevels])

/-- A sum up to a closing parenthesis is read one level down. -/
theorem groupAt_yields {inner : Phrase .sum ls f} (ih : inner.Reads stop) {vs : List Token}
    (hvs : lexemes vs = ls) (levels position closing : Nat) (rest : List Token) :
    Yields (inner.levels + 1 ≤ levels)
      (groupAt stop levels position (vs ++ ⟨closing, .symbol ')'⟩ :: rest))
      (.ok (f, ⟨closing, .symbol ')'⟩ :: rest)) := by
  cases levels with
  | zero => exact .of_tooDeep (by omega) _ _
  | succ levels =>
    have hinner := ih levels vs (⟨closing, .symbol ')'⟩ :: rest) hvs (.of_not_mem (by decide))
    rw [sumTail_stop (.of_not_mem (by decide))] at hinner
    exact hinner.congr (by omega)

theorem reads_group {inner : Phrase .sum ls f} (ih : inner.Reads stop) :
    (group inner).Reads stop := by
  intro levels us rest hus
  obtain ⟨position, vs, rfl, hvs⟩ := exists_of_lexemes_eq_cons hus
  obtain ⟨vs, closing, ws, rfl, hls, hws⟩ := exists_of_lexemes_eq_join hvs
  obtain rfl := List.map_eq_nil_iff.1 hws
  rw [List.cons_append, List.append_assoc]
  exact (groupAt_yields ih hls levels (position + 1) closing rest).andThen
    (by simp [expect])

theorem reads_call {letters : List Char} {function : Function}
    (h : String.ofList (letters.map Char.toLower) = function.name) {argument : Phrase .sum ls f}
    (ih : argument.Reads stop) : (call h argument).Reads stop := by
  intro levels us rest hus
  obtain ⟨position, vs, rfl, hvs⟩ := exists_of_lexemes_eq_cons hus
  obtain ⟨opening, ts, rfl, hts⟩ := exists_of_lexemes_eq_cons hvs
  obtain ⟨vs, closing, ws, rfl, hls, hws⟩ := exists_of_lexemes_eq_join hts
  obtain rfl := List.map_eq_nil_iff.1 hws
  rw [List.cons_append, List.cons_append, List.append_assoc]
  have hne : function.name ≠ "x" ∧ function.name ≠ "pi" := by cases function <;> decide
  simp only [primary, h, hne.1, hne.2, if_false, Function.ofName?_name, expect, if_true,
    Except.ok_bind]
  exact (groupAt_yields ih hls levels (opening + 1) closing rest).andThen (by simp)

theorem reads_base {b : Phrase .primary ls f} (ih : b.Reads stop) : (base b).Reads stop := by
  intro levels us rest hus hrest
  exact (ih levels us rest hus).andThen (exponentTail_stop hrest)

theorem reads_exponent {b : Phrase .primary ls f} {e : Phrase .unary ms g} (ihb : b.Reads stop)
    (ihe : e.Reads stop) : (exponent b e).Reads stop := by
  intro levels us rest hus hrest
  obtain ⟨vs, position, ws, rfl, hvs, hws⟩ := exists_of_lexemes_eq_join hus
  rw [List.append_assoc, List.cons_append]
  have htail : Yields (e.levels + 1 ≤ levels)
      (exponentTail stop levels f (⟨position, .symbol '^'⟩ :: (ws ++ rest)))
      (.ok (.binary .pow f g, rest)) := by
    cases levels with
    | zero => exact .of_tooDeep (by omega) _ _
    | succ levels => exact ((ihe levels ws rest hws hrest).andThen rfl).congr (by omega)
  exact ((ihb levels vs _ hvs).bind htail).congr (by simp only [Phrase.levels]; omega)

theorem reads_unsigned {operand : Phrase .power ls f} (ih : operand.Reads stop) :
    (unsigned operand).Reads stop := by
  intro levels us rest hus hrest
  obtain ⟨l, ms, rfl, hminus, hplus⟩ := operand.head_power
  have hsign : NotAhead ['-', '+'] (us ++ rest) := by
    obtain ⟨position, vs, rfl, -⟩ := exists_of_lexemes_eq_cons hus
    simp [NotAhead, hminus, hplus]
  rw [unary_eq_power hsign]
  exact ih levels us rest hus hrest

theorem reads_minus {operand : Phrase .unary ls f} (ih : operand.Reads stop) :
    (minus operand).Reads stop := by
  intro levels us rest hus hrest
  obtain ⟨position, vs, rfl, hvs⟩ := exists_of_lexemes_eq_cons hus
  rw [List.cons_append, unary_minus]
  cases levels with
  | zero => exact .of_tooDeep (by simp [Phrase.levels]) _ _
  | succ levels =>
    exact ((ih levels vs rest hvs hrest).andThen rfl).congr (by simp [Phrase.levels])

theorem reads_plus {operand : Phrase .unary ls f} (ih : operand.Reads stop) :
    (plus operand).Reads stop := by
  intro levels us rest hus hrest
  obtain ⟨position, vs, rfl, hvs⟩ := exists_of_lexemes_eq_cons hus
  rw [List.cons_append, unary_plus]
  cases levels with
  | zero => exact .of_tooDeep (by simp [Phrase.levels]) _ _
  | succ levels => exact (ih levels vs rest hvs hrest).congr (by simp [Phrase.levels])

theorem reads_factor {operand : Phrase .unary ls f} (ih : operand.Reads stop) :
    (factor operand).Reads stop := by
  intro levels us rest hus hrest
  exact (ih levels us rest hus hrest).andThen rfl

theorem reads_product {left : Phrase .term ls f} {c : Char} {op : Operator}
    (h : (c, op) ∈ multiplicative) {right : Phrase .unary ms g} (ihl : left.Reads stop)
    (ihr : right.Reads stop) : (product left h right).Reads stop := by
  intro levels us rest hus hrest
  obtain ⟨vs, position, ws, rfl, hvs, hws⟩ := exists_of_lexemes_eq_join hus
  rw [List.append_assoc, List.cons_append]
  -- The loop has come to the operator with what the chain on its left has not used up.
  have htail : Yields (left.chained + 1 + right.levels ≤ levels)
      (termTail stop (levels - left.chained) f (⟨position, .symbol c⟩ :: (ws ++ rest)))
      (termTail stop (levels - (left.chained + 1)) (.binary op f g) rest) := by
    rw [termTail_operator h, Nat.sub_add_eq]
    cases hleft : levels - left.chained with
    | zero => exact .of_tooDeep (by omega) _ _
    | succ l => exact ((ihr l ws rest hws hrest).andThen rfl).congr (by omega)
  have hahead : NotAhead ['^'] (⟨position, .symbol c⟩ :: (ws ++ rest)) :=
    .of_not_mem ((by decide : ∀ e ∈ multiplicative, e.1 ∉ ['^']) _ h)
  exact ((ihl levels vs _ hvs hahead).trans htail).congr (by simp only [Phrase.levels]; omega)

theorem reads_addend {operand : Phrase .term ls f} (ih : operand.Reads stop) :
    (addend operand).Reads stop := by
  intro levels us rest hus hrest
  have hterm := ih levels us rest hus (hrest.mono (by simp))
  rw [termTail_stop (hrest.mono fun c hc => List.mem_cons_of_mem _ hc)] at hterm
  exact hterm.andThen rfl

theorem reads_chain {left : Phrase .sum ls f} {c : Char} {op : Operator}
    (h : (c, op) ∈ additive) {right : Phrase .term ms g} (ihl : left.Reads stop)
    (ihr : right.Reads stop) : (chain left h right).Reads stop := by
  intro levels us rest hus hrest
  obtain ⟨vs, position, ws, rfl, hvs, hws⟩ := exists_of_lexemes_eq_join hus
  rw [List.append_assoc, List.cons_append]
  have htail : Yields (left.chained + 1 + right.levels ≤ levels)
      (sumTail stop (levels - left.chained) f (⟨position, .symbol c⟩ :: (ws ++ rest)))
      (sumTail stop (levels - (left.chained + 1)) (.binary op f g) rest) := by
    rw [sumTail_operator h, Nat.sub_add_eq]
    cases hleft : levels - left.chained with
    | zero => exact .of_tooDeep (by omega) _ _
    | succ l =>
      have hright := ihr l ws rest hws (hrest.mono (by simp))
      rw [termTail_stop (hrest.mono fun c hc => List.mem_cons_of_mem _ hc)] at hright
      exact (hright.andThen rfl).congr (by omega)
  have hahead : NotAhead ('^' :: multiplicative.map Prod.fst)
      (⟨position, .symbol c⟩ :: (ws ++ rest)) :=
    .of_not_mem ((by decide : ∀ e ∈ additive, e.1 ∉ '^' :: multiplicative.map Prod.fst) _ h)
  exact ((ihl levels vs _ hvs hahead).trans htail).congr (by simp only [Phrase.levels]; omega)

theorem reads {r : Rank} (p : Phrase r ls f) : p.Reads stop := by
  induction p with
  | number h => exact reads_leaf _ rfl fun _ _ _ => by simp [primary, h]
  | x h => exact reads_leaf _ rfl fun _ _ _ => by simp [primary, h]
  | pi h => exact reads_leaf _ rfl fun _ _ _ => by simp [primary, h]
  | call h _ ih => exact reads_call h ih
  | group _ ih => exact reads_group ih
  | base _ ih => exact reads_base ih
  | exponent _ _ ihb ihe => exact reads_exponent ihb ihe
  | unsigned _ ih => exact reads_unsigned ih
  | minus _ ih => exact reads_minus ih
  | plus _ ih => exact reads_plus ih
  | factor _ ih => exact reads_factor ih
  | product _ h _ ihl ihr => exact reads_product h ihl ihr
  | addend _ ih => exact reads_addend ih
  | chain _ h _ ihl ihr => exact reads_chain h ihl ihr

end Phrase

/-! ## Whole texts -/

theorem sum_yields {cs : List Char} {ls : List Lexeme} (hspells : Spells cs ls)
    (p : Phrase .sum ls f) (levels : Nat) :
    Yields (p.levels ≤ levels) (sum cs.length levels (tokens cs)) (.ok (f, [])) := by
  have hsum := (p.reads : p.Reads cs.length) levels (tokens cs) [] (spells_iff.1 hspells).symm
    (by simp [NotAhead])
  rwa [List.append_nil, sumTail_stop (by simp [NotAhead])] at hsum

/-- A text means one formula at most: with enough levels it would be the result. -/
theorem Sentence.unique {source : String} (h : Sentence source f) (h' : Sentence source g) :
    f = g := by
  obtain ⟨ls, hspells, ⟨p⟩⟩ := h
  obtain ⟨ms, hspells', ⟨q⟩⟩ := h'
  have hf := (sum_yields hspells p (max p.levels q.levels)).ok (by omega)
  have hg := (sum_yields hspells' q (max p.levels q.levels)).ok (by omega)
  rw [hf] at hg
  cases hg
  rfl

/-- A text with a phrase is parsed if the phrase fits into the levels. -/
theorem parse_yields {source : String} {ls : List Lexeme} (hspells : Spells source.toList ls)
    (p : Phrase .sum ls f) :
    (p.levels ≤ maxLevels → Expression.parse source = .ok ⟨source, f⟩) ∧
      (maxLevels < p.levels →
        ∃ position, Expression.parse source = .error (.tooDeep position)) := by
  have hsum := sum_yields hspells p maxLevels
  constructor
  · intro hfits
    rw [Expression.parse, parseFormula, hsum.ok hfits]
    rfl
  · intro hdeep
    obtain ⟨position, herror⟩ := hsum.tooDeep (by omega)
    refine ⟨position, ?_⟩
    rw [Expression.parse, parseFormula, herror]
    rfl

theorem exists_phrase_of_parse {source : String} {e : Expression}
    (h : Expression.parse source = .ok e) :
    e.source = source ∧ ∃ ls, Spells source.toList ls ∧
      ∃ p : Phrase .sum ls e.formula, p.levels ≤ maxLevels := by
  cases hparse : parseFormula source.toList with
  | error fault => simp [Expression.parse, hparse, Except.map] at h
  | ok f =>
    obtain rfl : ⟨source, f⟩ = e := by simpa [Expression.parse, hparse, Except.map] using h
    obtain ⟨⟨result, rest⟩, hsum, hrest⟩ := Except.bind_eq_ok_iff.1 hparse
    cases rest with
    | cons t ts => cases hrest
    | nil =>
      cases hrest
      obtain ⟨us, hus, ⟨p⟩⟩ := (sound source.toList.length maxLevels).sum hsum
      rw [List.append_nil] at hus
      have hspells : Spells source.toList (lexemes us) := spells_iff.2 (by rw [hus])
      refine ⟨rfl, _, hspells, p, ?_⟩
      by_contra hdeep
      obtain ⟨position, herror⟩ := (parse_yields hspells p).2 (by omega)
      rw [h] at herror
      cases herror

/-- The parser accepts the sentences of the grammar, up to a limit of nesting, and nothing else.
The result is the one formula that the grammar gives to the text. -/
theorem parse_iff_sentence (source : String) :
    (∀ ls f (p : Phrase .sum ls f), Spells source.toList ls →
      (p.levels ≤ maxLevels → Expression.parse source = .ok ⟨source, f⟩) ∧
        (maxLevels < p.levels →
          ∃ position, Expression.parse source = .error (.tooDeep position))) ∧
      ((∀ f, ¬ Sentence source f) → ∃ fault, Expression.parse source = .error fault) ∧
      ∀ f g, Sentence source f → Sentence source g → f = g := by
  refine ⟨fun ls f p hspells => parse_yields hspells p, fun hnone => ?_,
    fun f g => Sentence.unique⟩
  cases hparse : Expression.parse source with
  | error fault => exact ⟨fault, rfl⟩
  | ok e =>
    obtain ⟨-, ls, hspells, p, -⟩ := exists_phrase_of_parse hparse
    exact absurd ⟨ls, hspells, ⟨p⟩⟩ (hnone e.formula)

/-- An exponent with a sign, a name in either case, and blanks between some of the tokens. -/
def samplePhrase :
    Phrase .sum
      [.number ['1'], .symbol '-', .name ['x'], .symbol '^', .symbol '-', .name ['X'], .symbol '*',
        .number ['.', '5']]
      (.binary .sub (.number (Binary64.ofDecimal 1 0))
        (.binary .mul (.binary .pow .variable (.negate .variable))
          (.number (Binary64.ofDecimal 5 (-1))))) :=
  have one : Phrase .unary [.number ['1']] _ := .unsigned (.base (.number rfl))
  have half : Phrase .unary [.number ['.', '5']] _ := .unsigned (.base (.number rfl))
  have power : Phrase .unary [.name ['x'], .symbol '^', .symbol '-', .name ['X']] _ :=
    .unsigned (.exponent (.x (by decide)) (.minus (.unsigned (.base (.x (by decide))))))
  .chain (.addend (.factor one)) (.tail _ (.head _)) (.product (.factor power) (.head _) half)

theorem parse_iff_sentence_sample :
    Spells "1 - x^-X *\t.5".toList
        [.number ['1'], .symbol '-', .name ['x'], .symbol '^', .symbol '-', .name ['X'],
          .symbol '*', .number ['.', '5']] ∧
      samplePhrase.levels = 3 ∧
      Expression.parse "1 - x^-X *\t.5" = .ok ⟨"1 - x^-X *\t.5",
        .binary .sub (.number (Binary64.ofDecimal 1 0))
          (.binary .mul (.binary .pow .variable (.negate .variable))
            (.number (Binary64.ofDecimal 5 (-1))))⟩ ∧
      (∀ f, ¬ Sentence "x)" f) ∧ ∃ fault, Expression.parse "x)" = .error fault := by
  have hspells : Spells "1 - x^-X *\t.5".toList _ := spells_iff.2 rfl
  have hlevels : samplePhrase.levels = 3 := rfl
  have hfault : Expression.parse "x)" = .error (.unexpected ')' 1) := by
    decide +kernel
  have hnone : ∀ f, ¬ Sentence "x)" f := by
    rintro f ⟨ls, hls, ⟨p⟩⟩
    obtain ⟨hfits, hdeep⟩ := (parse_iff_sentence "x)").1 ls f p hls
    rcases Nat.lt_or_ge maxLevels p.levels with hlt | hle
    · obtain ⟨position, h⟩ := hdeep hlt
      rw [hfault] at h
      cases h
    · have h := hfits hle
      rw [hfault] at h
      cases h
  refine ⟨hspells, hlevels, ?_, hnone, ?_⟩
  · exact ((parse_iff_sentence _).1 _ _ samplePhrase hspells).1 (by rw [hlevels]; decide)
  · exact (parse_iff_sentence "x)").2.1 hnone

end Expression
end TreeFlow
