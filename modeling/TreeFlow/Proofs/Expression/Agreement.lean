import TreeFlow.Proofs.Expression.Cursor
/-
The machine and the parser agree.

The parser reads tokens where the machine reads characters, and it passes on the levels that are
left where the machine counts those that are taken.  From every position and depth, and below any
waiting calls, the machine comes to what the parser makes of the tokens from there on (`Gives`): a
call of a rule hands its result to the innermost waiting call at the depth at which it was made, or
the run ends with the fault of the parser.
-/

namespace TreeFlow
namespace Expression

variable {cs : List Char} {p : Nat} {c : Char}

/-! ## Tokens from a position on -/

def tokensAt (cs : List Char) (position : Nat) : List Token :=
  tokensFrom position .none (cs.drop position)

/-- The lexeme that starts with a character. -/
def lexemeAt (cs : List Char) (position : Nat) (c : Char) : Lexeme :=
  if isNumberChar c then .number (runAt cs isNumberChar position)
  else if c.isAlpha then .name (runAt cs Char.isAlphanum position)
  else .symbol c

theorem drop_add_length_runAt (kind : Char → Bool) (p : Nat) :
    cs.drop (p + (runAt cs kind p).length) = (cs.drop p).dropWhile kind := by
  have hsplit := List.takeWhile_append_dropWhile (p := kind) (l := cs.drop p)
  rw [← List.drop_drop]
  conv_lhs => rw [← hsplit]
  exact List.drop_left

theorem tokensFrom_dropWhile (position : Nat) (l : List Char) :
    tokensFrom (position + (l.takeWhile Text.isBlank).length) .none (l.dropWhile Text.isBlank)
      = tokensFrom position .none l := by
  induction l generalizing position with
  | nil => rfl
  | cons c l ih =>
    by_cases hc : Text.isBlank c = true
    · have hskip : tokensFrom position .none (c :: l) = tokensFrom (position + 1) .none l := by
        rw [tokensFrom]
        simp only [Run.continue?, Run.token?, List.nil_append, start?_of_isBlank hc, hc, if_true]
      rw [List.takeWhile_cons_of_pos hc, List.dropWhile_cons_of_pos hc, hskip, ← ih,
        List.length_cons, Nat.add_right_comm, Nat.add_assoc]
    · rw [List.takeWhile_cons_of_neg hc, List.dropWhile_cons_of_neg hc]
      rfl

/-- Blanks do not count. -/
theorem tokensAt_skipBlanks (cs : List Char) (p : Nat) :
    tokensAt cs (skipBlanks cs p) = tokensAt cs p := by
  rw [tokensAt, skipBlanks, drop_add_length_runAt, runAt, tokensFrom_dropWhile, tokensAt]

theorem isBlank_skipBlanks (h : cs[skipBlanks cs p]? = some c) : Text.isBlank c = false := by
  rw [← List.head?_drop, skipBlanks, drop_add_length_runAt] at h
  exact head?_dropWhile_eq_false c h

theorem tokensAt_eq_nil (h : cs[skipBlanks cs p]? = none) : tokensAt cs p = [] := by
  rw [← tokensAt_skipBlanks, tokensAt, List.drop_eq_nil_iff.2 (List.getElem?_eq_none_iff.1 h)]
  rfl

/-- A run of characters is one token, and the next ones are those behind it. -/
theorem tokensAt_of_run {kind : Char → Bool} {lexeme : List Char → Lexeme} (h : cs[p]? = some c)
    (hc : kind c = true)
    (hrun : ∀ text rest, (∀ d ∈ text, kind d = true) → (∀ d ∈ rest.head?, kind d = false) →
      tokensFrom p .none (c :: text ++ rest)
        = ⟨p, lexeme (c :: text)⟩ :: tokensFrom (p + 1 + text.length) .none rest) :
    tokensAt cs p
      = ⟨p, lexeme (runAt cs kind p)⟩ :: tokensAt cs (p + (runAt cs kind p).length) := by
  let behind := cs.drop (p + 1)
  have hsplit : behind.takeWhile kind ++ behind.dropWhile kind = behind :=
    List.takeWhile_append_dropWhile
  have htokens := hrun (behind.takeWhile kind) (behind.dropWhile kind)
    (fun d hd => List.mem_takeWhile_imp hd) head?_dropWhile_eq_false
  have hlength : p + 1 + (behind.takeWhile kind).length = p + (runAt cs kind p).length := by
    rw [Machine.runAt_eq_cons h hc, List.length_cons, Nat.add_right_comm, ← Nat.add_assoc]
    rfl
  have hbehind : behind.dropWhile kind = cs.drop (p + (runAt cs kind p).length) := by
    rw [← hlength]
    exact (drop_add_length_runAt kind (p + 1)).symm
  rw [List.cons_append, hsplit, hlength, hbehind] at htokens
  rw [tokensAt, Machine.drop_eq_cons h, htokens, Machine.runAt_eq_cons h hc]
  rfl

theorem tokensAt_eq_cons (h : cs[skipBlanks cs p]? = some c) :
    tokensAt cs p = ⟨skipBlanks cs p, lexemeAt cs (skipBlanks cs p) c⟩ ::
      tokensAt cs (skipBlanks cs p + (lexemeAt cs (skipBlanks cs p) c).text.length) := by
  have hblank := isBlank_skipBlanks h
  rw [← tokensAt_skipBlanks, lexemeAt]
  split
  next hnumber =>
    exact tokensAt_of_run h hnumber fun text rest htext hrest =>
      tokensFrom_number hnumber htext hrest _
  next hnumber =>
    split
    next halpha =>
      have halphanum : c.isAlphanum = true := by rw [Char.isAlphanum, halpha, Bool.true_or]
      exact tokensAt_of_run h halphanum fun text rest htext hrest =>
        tokensFrom_name halpha htext hrest _
    next halpha =>
      rw [tokensAt, Machine.drop_eq_cons h, tokensFrom]
      simp only [Run.continue?, Run.token?, List.nil_append, Run.start?, hnumber, halpha, hblank,
        Bool.false_eq_true, if_false]
      rfl

/-- A character that stands for itself. -/
def IsSign (c : Char) : Prop := isNumberChar c = false ∧ c.isAlpha = false

instance (c : Char) : Decidable (IsSign c) := inferInstanceAs (Decidable (_ ∧ _))

theorem tokensAt_eq_symbol (h : cs[skipBlanks cs p]? = some c) (hc : IsSign c) :
    tokensAt cs p = ⟨skipBlanks cs p, .symbol c⟩ :: tokensAt cs (skipBlanks cs p + 1) := by
  have hlexeme : lexemeAt cs (skipBlanks cs p) c = .symbol c := by
    rw [lexemeAt, hc.1, hc.2]
    rfl
  rw [tokensAt_eq_cons h, hlexeme]
  rfl

/-- Only a symbol in the text is a symbol among the tokens. -/
theorem getElem?_of_head?_tokensAt {t : Token} (ht : (tokensAt cs p).head? = some t)
    (hc : t.lexeme = .symbol c) : cs[skipBlanks cs p]? = some c := by
  cases hnext : cs[skipBlanks cs p]? with
  | none =>
    rw [tokensAt_eq_nil hnext] at ht
    cases ht
  | some d =>
    rw [tokensAt_eq_cons hnext] at ht
    cases ht
    rw [lexemeAt] at hc
    split at hc
    · cases hc
    split at hc
    · cases hc
    · cases hc
      rfl

theorem notAhead_tokensAt {symbols : List Char}
    (h : ∀ c ∈ symbols, cs[skipBlanks cs p]? ≠ some c) : NotAhead symbols (tokensAt cs p) :=
  fun _ ht c hc hlexeme => h c hc (getElem?_of_head?_tokensAt ht hlexeme)

theorem nextPosition_tokensAt (hp : p ≤ cs.length) :
    nextPosition cs.length (tokensAt cs p) = skipBlanks cs p := by
  cases hnext : cs[skipBlanks cs p]? with
  | none =>
    rw [tokensAt_eq_nil hnext]
    exact Nat.le_antisymm (List.getElem?_eq_none_iff.1 hnext) (Machine.skipBlanks_le hp)
  | some d =>
    rw [tokensAt_eq_cons hnext]
    rfl

theorem expect_of_eq (stop : Nat) (h : cs[skipBlanks cs p]? = some c) (hc : IsSign c) :
    expect stop c (tokensAt cs p) = .ok (skipBlanks cs p, tokensAt cs (skipBlanks cs p + 1)) :=
  expect_eq_ok_iff.2 (tokensAt_eq_symbol h hc)

theorem expect_of_ne (hp : p ≤ cs.length) (h : cs[skipBlanks cs p]? ≠ some c) :
    expect cs.length c (tokensAt cs p) = .error (.expected c (skipBlanks cs p)) := by
  have hposition := nextPosition_tokensAt hp
  rw [expect.eq_def]
  split
  next position d rest heq =>
    have hne : c ≠ d := by
      rintro rfl
      exact h (getElem?_of_head?_tokensAt (t := ⟨position, .symbol c⟩) (by rw [heq]; rfl) rfl)
    rw [heq] at hposition
    rw [if_neg hne, ← hposition]
    rfl
  next => rw [hposition]

/-! ## Rules and chains of the parser -/

/-- What the parser makes of a rule from a position on, with some levels left. -/
def Rule.parse (cs : List Char) (levels : Nat) (rule : Rule) (position : Nat) : Parsed :=
  match rule with
  | .sum => Expression.sum cs.length levels (tokensAt cs position)
  | .term => Expression.term cs.length levels (tokensAt cs position)
  | .unary => Expression.unary cs.length levels (tokensAt cs position)
  | .power => Expression.power cs.length levels (tokensAt cs position)
  | .primary => Expression.primary cs.length (groupAt cs.length levels) (tokensAt cs position)
  | .number =>
    let text := runAt cs isNumberChar position
    Expression.primary cs.length (groupAt cs.length levels)
      (⟨position, .number text⟩ :: tokensAt cs (position + text.length))

namespace Chain

def table : Chain → List (Char × Operator)
  | .sum => additive
  | .term => multiplicative

/-- The rest of a chain behind its left part. -/
def tail (stop levels : Nat) : Chain → Formula → List Token → Parsed
  | .sum => sumTail stop levels
  | .term => termTail stop levels

variable {chain : Chain} {op : Operator} {stop levels : Nat} {f : Formula} {ts : List Token}

theorem operator?_eq_some_iff : chain.operator? (.symbol c) = some op ↔ (c, op) ∈ chain.table := by
  cases chain with
  | sum => exact additive?_eq_some_iff.trans (by simp [table])
  | term => exact multiplicative?_eq_some_iff.trans (by simp [table])

theorem isSign_of_mem_table (h : (c, op) ∈ chain.table) : IsSign c := by
  cases chain with
  | sum => exact (by decide : ∀ e ∈ additive, IsSign e.1) _ h
  | term => exact (by decide : ∀ e ∈ multiplicative, IsSign e.1) _ h

theorem parse_eq (levels p : Nat) :
    chain.rule.parse cs levels p
      = chain.operand.parse cs levels p >>= fun x => chain.tail cs.length levels x.1 x.2 := by
  cases chain <;> rfl

theorem tail_stop (h : NotAhead (chain.table.map Prod.fst) ts) :
    chain.tail stop levels f ts = .ok (f, ts) := by
  cases chain with
  | sum => exact sumTail_stop h
  | term => exact termTail_stop h

theorem tail_zero {position : Nat} (h : (c, op) ∈ chain.table) :
    chain.tail stop 0 f (⟨position, .symbol c⟩ :: ts) = .error (.tooDeep position) := by
  cases chain with
  | sum => exact sumTail_operator h
  | term => exact termTail_operator h

theorem tail_succ {position : Nat} (h : (c, op) ∈ chain.table) :
    chain.tail cs.length (levels + 1) f (⟨position, .symbol c⟩ :: tokensAt cs p)
      = chain.operand.parse cs levels p >>= fun x =>
          chain.tail cs.length levels (.binary op f x.1) x.2 := by
  cases chain with
  | sum => exact sumTail_operator h
  | term => exact termTail_operator h

end Chain

namespace Machine

/-! ## Runs that end in the result of a parser -/

variable {m m' : Machine} {depth d levels : Nat} {frames fs : List Frame} {f : Formula}
  {result : Parsed}

def Leads (cs : List Char) (m m' : Machine) : Prop := ∃ n, m.after cs n = some m'

theorem Leads.refl (cs : List Char) (m : Machine) : Leads cs m m := ⟨0, rfl⟩

theorem Leads.head {t : Machine} (h : m.step cs = some t) (h' : Leads cs t m') :
    Leads cs m m' := by
  obtain ⟨n, hn⟩ := h'
  exact ⟨n + 1, Option.bind_eq_some_iff.2 ⟨t, h, hn⟩⟩

theorem Leads.trans {t : Machine} (h : Leads cs m t) (h' : Leads cs t m') : Leads cs m m' := by
  obtain ⟨n, hn⟩ := h
  induction n generalizing m with
  | zero =>
    cases hn
    exact h'
  | succ n ih =>
    obtain ⟨next, hstep, hrest⟩ := Option.bind_eq_some_iff.1 hn
    exact .head hstep (ih hrest)

/-- The run comes to the result: a value for the waiting calls, at the depth and in front of the
tokens that are left, or the fault. -/
def Gives (cs : List Char) (m : Machine) (depth : Nat) (frames : List Frame) : Parsed → Prop
  | .ok (f, rest) =>
    ∃ p ≤ cs.length, tokensAt cs p = rest ∧ Leads cs m ⟨p, depth, frames, .value f⟩
  | .error fault => ∃ p d fs, Leads cs m ⟨p, d, fs, .fault fault⟩

theorem gives_ok (hp : p ≤ cs.length)
    (h : m.step cs = some ⟨p, depth, frames, .value f⟩) :
    Gives cs m depth frames (.ok (f, tokensAt cs p)) :=
  ⟨p, hp, rfl, .head h (.refl cs _)⟩

theorem gives_error {fault : Fault} (h : m.step cs = some ⟨p, d, fs, .fault fault⟩) :
    Gives cs m depth frames (.error fault) :=
  ⟨p, d, fs, .head h (.refl cs _)⟩

theorem Gives.prepend (hlead : Leads cs m m') (h : Gives cs m' depth frames result) :
    Gives cs m depth frames result := by
  cases result with
  | ok x =>
    obtain ⟨q, hq, hrest, hvalue⟩ := h
    exact ⟨q, hq, hrest, hlead.trans hvalue⟩
  | error fault =>
    obtain ⟨q, d, fs, hfault⟩ := h
    exact ⟨q, d, fs, hlead.trans hfault⟩

theorem Gives.head (hstep : m.step cs = some m') (h : Gives cs m' depth frames result) :
    Gives cs m depth frames result :=
  h.prepend (.head hstep (.refl cs m'))

/-- The waiting calls go on with the value as the parser does. -/
theorem Gives.bind {k : Formula × List Token → Parsed} (h : Gives cs m d fs result)
    (hk : ∀ f p, p ≤ cs.length →
      Gives cs ⟨p, d, fs, .value f⟩ depth frames (k (f, tokensAt cs p))) :
    Gives cs m depth frames (result >>= k) := by
  cases result with
  | ok x =>
    obtain ⟨f, rest⟩ := x
    obtain ⟨q, hq, rfl, hvalue⟩ := h
    exact (hk f q hq).prepend hvalue
  | error fault => exact h

/-- A waiting call that has nothing more to read. -/
theorem Gives.map {frame : Frame} (g : Formula → Formula)
    (h : Gives cs m d (frame :: frames) result)
    (hstep : ∀ f p, step cs ⟨p, d, frame :: frames, .value f⟩
      = some ⟨p, depth, frames, .value (g f)⟩) :
    Gives cs m depth frames (result >>= fun x => pure (g x.1, x.2)) :=
  h.bind fun f p hp => gives_ok hp (hstep f p)

theorem Gives.pass {frame : Frame} (h : Gives cs m d (frame :: frames) result)
    (hstep : ∀ f p, step cs ⟨p, d, frame :: frames, .value f⟩
      = some ⟨p, depth, frames, .value f⟩) : Gives cs m depth frames result := by
  simpa using h.map id hstep

/-- With a level left the machine goes on; without one there is a fault. -/
theorem gives_descend {next : Machine → Machine} (hlevels : levels + m.depth = maxLevels)
    (hzero : levels = 0 → result = .error (.tooDeep m.position))
    (hsucc : ∀ l, levels = l + 1 →
      Gives cs (next { m with depth := m.depth + 1 }) depth frames result) :
    Gives cs (m.descend next) depth frames result := by
  rcases descend_cases m next with ⟨hfull, h⟩ | ⟨hfree, h⟩
  · rw [h, hzero (by omega)]
    exact ⟨m.position, m.depth + 1, m.frames, .refl cs _⟩
  · obtain ⟨l, hl⟩ := Nat.exists_eq_succ_of_ne_zero (show levels ≠ 0 by omega)
    rw [h]
    exact hsucc l hl

/-! ## Rule by rule -/

/-- With some levels left at a depth, the machine does as the parser. -/
structure Agrees (cs : List Char) (levels depth : Nat) : Prop where
  call : ∀ rule frames {p}, p ≤ cs.length →
    Gives cs ⟨p, depth, frames, .call rule⟩ depth frames (rule.parse cs levels p)
  chain : ∀ (chain : Chain) start left f frames {p}, p ≤ cs.length →
    Gives cs ⟨p, depth, .chain chain start left :: frames, .value f⟩ start frames
      (chain.tail cs.length levels (joined left f) (tokensAt cs p))

theorem gives_number (levels depth : Nat) (frames : List Frame) (hp : p ≤ cs.length) :
    Gives cs ⟨p, depth, frames, .call .number⟩ depth frames (Rule.number.parse cs levels p) := by
  rw [Rule.parse]
  dsimp only [primary]
  cases hvalue : Binary64.numeral? (runAt cs isNumberChar p) with
  | none =>
    have hstep : step cs ⟨p, depth, frames, .call .number⟩
        = some ⟨p + (runAt cs isNumberChar p).length, depth, frames,
            .fault (.invalidNumber (String.ofList (runAt cs isNumberChar p)))⟩ := by
      simp only [step, enter, enterNumber, hvalue]
      rfl
    exact gives_error hstep
  | some value =>
    refine gives_ok (add_length_runAt_le _ hp) ?_
    simp only [step, enter, enterNumber, hvalue]
    rfl

section Below

variable (hlevels : levels + depth = maxLevels)
  (below : ∀ l, levels = l + 1 → Agrees cs l (depth + 1))

include hlevels below

/-- A sum up to a closing parenthesis, one level down. -/
theorem gives_group (frames : List Frame) (function : Option Function) (control : Control)
    (hp : p ≤ cs.length) :
    Gives cs (descend ⟨p, depth, frames, control⟩ (·.await (.group function) .sum)) depth frames
      (groupAt cs.length levels p (tokensAt cs p) >>= fun x =>
        Expression.expect cs.length ')' x.2 >>= fun y =>
          pure (function.elim x.1 (.call · x.1), y.2)) := by
  refine gives_descend hlevels ?_ ?_
  · rintro rfl
    rfl
  · rintro l rfl
    refine ((below l rfl).call .sum _ hp).bind fun f q hq => ?_
    dsimp only
    by_cases hclose : cs[skipBlanks cs q]? = some ')'
    · rw [expect_of_eq _ hclose (by decide)]
      refine gives_ok (lt_length_of_getElem? hclose) ?_
      simp only [step, resume, expect, hclose, if_true]
      rfl
    · rw [expect_of_ne hq hclose]
      have hstep : step cs ⟨q, depth + 1, .group function :: frames, .value f⟩
          = some ⟨skipBlanks cs q, depth + 1, frames,
              .fault (.expected ')' (skipBlanks cs q))⟩ := by
        simp only [step, resume, expect, hclose, if_false]
        rfl
      exact gives_error hstep

theorem gives_name {q : Nat} {control : Control}
    (hstep : m.step cs = enterName cs ⟨q, depth, frames, control⟩) (hq : q ≤ cs.length) :
    Gives cs m depth frames
      (primary cs.length (groupAt cs.length levels)
        (⟨q, .name (runAt cs Char.isAlphanum q)⟩ ::
          tokensAt cs (q + (runAt cs Char.isAlphanum q).length))) := by
  have hle := add_length_runAt_le Char.isAlphanum hq
  rw [enterName] at hstep
  simp only [primary]
  split at hstep
  next hx =>
    rw [if_pos hx]
    exact gives_ok hle hstep
  next hx =>
    rw [if_neg hx]
    split at hstep
    next hpi =>
      rw [if_pos hpi]
      exact gives_ok hle hstep
    next hpi =>
      rw [if_neg hpi]
      cases hname : Function.ofName? (String.ofList ((runAt cs Char.isAlphanum q).map Char.toLower))
        with
      | none =>
        rw [hname] at hstep
        exact gives_error hstep
      | some function =>
        rw [hname] at hstep
        dsimp only [goTo] at hstep ⊢
        by_cases hopen : cs[skipBlanks cs (q + (runAt cs Char.isAlphanum q).length)]? = some '('
        · rw [expect, if_pos hopen] at hstep
          rw [expect_of_eq _ hopen (by decide)]
          have hgroup := gives_group hlevels below frames (some function) control
            (lt_length_of_getElem? hopen)
          exact hgroup.head hstep
        · rw [expect, if_neg hopen] at hstep
          rw [expect_of_ne hle hopen]
          exact gives_error hstep

theorem gives_primary (frames : List Frame) (hp : p ≤ cs.length) :
    Gives cs ⟨p, depth, frames, .call .primary⟩ depth frames (Rule.primary.parse cs levels p) := by
  have hstep : step cs ⟨p, depth, frames, .call .primary⟩
      = enterPrimary cs ⟨p, depth, frames, .call .primary⟩ := rfl
  have hle := skipBlanks_le hp
  rw [enterPrimary] at hstep
  dsimp only [goTo] at hstep
  rw [Rule.parse]
  cases hnext : cs[skipBlanks cs p]? with
  | none =>
    rw [hnext] at hstep
    rw [tokensAt_eq_nil hnext]
    exact gives_error hstep
  | some c =>
    rw [hnext] at hstep
    dsimp only at hstep
    split at hstep
    next hc =>
      subst hc
      rw [tokensAt_eq_symbol hnext (by decide)]
      have hgroup := gives_group hlevels below frames none (.call .primary)
        (lt_length_of_getElem? hnext)
      exact hgroup.head hstep
    next hparen =>
      rw [tokensAt_eq_cons hnext, lexemeAt]
      split at hstep
      next hnumber =>
        rw [if_pos hnumber]
        have hliteral := gives_number levels depth (.literal :: frames) hle
        exact Gives.head hstep (hliteral.pass fun _ _ => rfl)
      next hnumber =>
        rw [if_neg hnumber]
        split at hstep
        next halpha =>
          rw [if_pos halpha]
          exact gives_name hlevels below hstep hle
        next halpha =>
          rw [if_neg halpha]
          simp only [primary, hparen, if_false]
          exact gives_error hstep

theorem gives_power (frames : List Frame) (hp : p ≤ cs.length) :
    Gives cs ⟨p, depth, frames, .call .power⟩ depth frames (Rule.power.parse cs levels p) := by
  have hbase := gives_primary hlevels below (.base :: frames) hp
  have hcall : step cs ⟨p, depth, frames, .call .power⟩
      = some ⟨p, depth, .base :: frames, .call .primary⟩ := rfl
  refine Gives.head hcall (hbase.bind fun f q hq => ?_)
  dsimp only
  have hstep : step cs ⟨q, depth, .base :: frames, .value f⟩
      = resume cs .base f ⟨q, depth, frames, .value f⟩ := rfl
  rw [resume] at hstep
  dsimp only [goTo] at hstep
  by_cases hpower : cs[skipBlanks cs q]? = some '^'
  · rw [if_pos hpower] at hstep
    rw [tokensAt_eq_symbol hpower (by decide)]
    refine Gives.head hstep (gives_descend hlevels ?_ ?_)
    · rintro rfl
      rfl
    · rintro l rfl
      have hexponent := (below l rfl).call .unary (.exponent f :: frames)
        (lt_length_of_getElem? hpower)
      exact hexponent.map (.binary .pow f) fun _ _ => rfl
  · rw [if_neg hpower] at hstep
    rw [exponentTail_stop (notAhead_tokensAt (by simpa using hpower)), ← tokensAt_skipBlanks]
    exact gives_ok (skipBlanks_le hq) hstep

theorem gives_unary (frames : List Frame) (hp : p ≤ cs.length) :
    Gives cs ⟨p, depth, frames, .call .unary⟩ depth frames (Rule.unary.parse cs levels p) := by
  have hstep : step cs ⟨p, depth, frames, .call .unary⟩
      = some (enterUnary cs ⟨p, depth, frames, .call .unary⟩) := rfl
  rw [enterUnary] at hstep
  dsimp only [goTo] at hstep
  rw [Rule.parse]
  by_cases hminus : cs[skipBlanks cs p]? = some '-'
  · rw [if_pos hminus] at hstep
    rw [tokensAt_eq_symbol hminus (by decide), unary_minus]
    refine Gives.head hstep (gives_descend hlevels ?_ ?_)
    · rintro rfl
      rfl
    · rintro l rfl
      have hoperand := (below l rfl).call .unary (.sign true :: frames)
        (lt_length_of_getElem? hminus)
      exact hoperand.map .negate fun _ _ => rfl
  rw [if_neg hminus] at hstep
  by_cases hplus : cs[skipBlanks cs p]? = some '+'
  · rw [if_pos hplus] at hstep
    rw [tokensAt_eq_symbol hplus (by decide), unary_plus]
    refine Gives.head hstep (gives_descend hlevels ?_ ?_)
    · rintro rfl
      rfl
    · rintro l rfl
      have hoperand := (below l rfl).call .unary (.sign false :: frames)
        (lt_length_of_getElem? hplus)
      exact hoperand.pass fun _ _ => rfl
  · rw [if_neg hplus] at hstep
    rw [unary_eq_power (notAhead_tokensAt (by simpa using ⟨hminus, hplus⟩)), ← tokensAt_skipBlanks]
    have hpower := gives_power hlevels below (.unsigned :: frames) (skipBlanks_le hp)
    exact Gives.head hstep (hpower.pass fun _ _ => rfl)

theorem gives_chain (chain : Chain) (start : Nat) (left : Option (Formula × Operator))
    (f : Formula) (frames : List Frame) (hp : p ≤ cs.length) :
    Gives cs ⟨p, depth, .chain chain start left :: frames, .value f⟩ start frames
      (chain.tail cs.length levels (joined left f) (tokensAt cs p)) := by
  have hstep : step cs ⟨p, depth, .chain chain start left :: frames, .value f⟩
      = some (resumeChain cs chain start (joined left f) ⟨p, depth, frames, .value f⟩) := rfl
  rw [resumeChain] at hstep
  dsimp only [goTo] at hstep
  cases hop : cs[skipBlanks cs p]?.bind fun c => chain.operator? (.symbol c) with
  | none =>
    rw [hop] at hstep
    have hstop : NotAhead (chain.table.map Prod.fst) (tokensAt cs p) := by
      refine notAhead_tokensAt fun c hc hnext => ?_
      obtain ⟨⟨c, op⟩, hmem, rfl⟩ := List.mem_map.1 hc
      rw [hnext, Option.bind_some, Chain.operator?_eq_some_iff.2 hmem] at hop
      cases hop
    rw [Chain.tail_stop hstop, ← tokensAt_skipBlanks]
    exact gives_ok (skipBlanks_le hp) hstep
  | some op =>
    rw [hop] at hstep
    obtain ⟨c, hc, hlookup⟩ := Option.bind_eq_some_iff.1 hop
    have hmem := Chain.operator?_eq_some_iff.1 hlookup
    rw [tokensAt_eq_symbol hc (Chain.isSign_of_mem_table hmem)]
    refine Gives.head hstep (gives_descend hlevels ?_ ?_)
    · rintro rfl
      exact Chain.tail_zero hmem
    · rintro l rfl
      rw [Chain.tail_succ hmem]
      have hoperand := (below l rfl).call chain.operand
        (.chain chain start (some (joined left f, op)) :: frames)
        (lt_length_of_getElem? hc)
      exact hoperand.bind fun g q hq => (below l rfl).chain chain start _ g frames hq

/-- A chain starts with an operand. -/
theorem gives_rule_of_chain (chain : Chain)
    (hoperand : ∀ frames {p}, p ≤ cs.length →
      Gives cs ⟨p, depth, frames, .call chain.operand⟩ depth frames
        (chain.operand.parse cs levels p))
    (frames : List Frame) (hp : p ≤ cs.length) :
    Gives cs ⟨p, depth, frames, .call chain.rule⟩ depth frames (chain.rule.parse cs levels p) := by
  have hstep : step cs ⟨p, depth, frames, .call chain.rule⟩
      = some ⟨p, depth, .chain chain depth none :: frames, .call chain.operand⟩ := by
    cases chain <;> rfl
  rw [Chain.parse_eq]
  exact Gives.head hstep ((hoperand _ hp).bind fun f q hq =>
    gives_chain hlevels below chain depth none f frames hq)

theorem agrees_of_below : Agrees cs levels depth := by
  have hunary : ∀ frames {p}, p ≤ cs.length →
      Gives cs ⟨p, depth, frames, .call .unary⟩ depth frames (Rule.unary.parse cs levels p) :=
    fun frames _ hp => gives_unary hlevels below frames hp
  have hterm : ∀ frames {p}, p ≤ cs.length →
      Gives cs ⟨p, depth, frames, .call .term⟩ depth frames (Rule.term.parse cs levels p) :=
    fun frames _ hp => gives_rule_of_chain hlevels below .term hunary frames hp
  refine ⟨fun rule frames _ hp => ?_, fun chain start left f frames _ hp =>
    gives_chain hlevels below chain start left f frames hp⟩
  cases rule with
  | sum => exact gives_rule_of_chain hlevels below .sum hterm frames hp
  | term => exact hterm frames hp
  | unary => exact hunary frames hp
  | power => exact gives_power hlevels below frames hp
  | primary => exact gives_primary hlevels below frames hp
  | number => exact gives_number levels depth frames hp

end Below

/-- The induction is on the levels that are left: one level further down there is one less. -/
theorem agrees (cs : List Char) (levels depth : Nat) (hlevels : levels + depth = maxLevels) :
    Agrees cs levels depth := by
  induction levels generalizing depth with
  | zero => exact agrees_of_below hlevels fun l hl => absurd hl (Nat.succ_ne_zero l).symm
  | succ levels ih =>
    refine agrees_of_below hlevels fun l hl => ?_
    obtain rfl := Nat.succ.inj hl
    exact ih (depth + 1) (by omega)

/-! ## Whole runs -/

/-- A run has one end. -/
theorem Leads.eq_of_halted {a b : Machine} (ha : Leads cs m a) (hb : Leads cs m b)
    (hhalt : a.step cs = none) (hhalt' : b.step cs = none) : a = b := by
  obtain ⟨n, hn⟩ := ha
  obtain ⟨k, hk⟩ := hb
  induction n generalizing m k with
  | zero =>
    cases hn
    cases k with
    | zero => exact Option.some.inj hk
    | succ k =>
      rw [after, hhalt] at hk
      cases hk
  | succ n ih =>
    obtain ⟨next, hstep, hrest⟩ := Option.bind_eq_some_iff.1 hn
    cases k with
    | zero =>
      cases hk
      rw [hhalt'] at hstep
      cases hstep
    | succ k =>
      rw [after, hstep, Option.bind_some] at hk
      exact ih hrest k hk

/-- A text is accepted if the sum at its start ends in front of nothing but blanks. -/
theorem parseFormula_eq_ok_iff :
    parseFormula cs = .ok f ↔
      ∃ p, Leads cs (start .sum 0 0) ⟨p, 0, [], .value f⟩ ∧ skipBlanks cs p = cs.length := by
  have hrun : Gives cs (start .sum 0 0) 0 [] (Expression.sum cs.length maxLevels (tokens cs)) :=
    (agrees cs maxLevels 0 rfl).call .sum [] (Nat.zero_le _)
  constructor
  · intro hparse
    obtain ⟨⟨g, rest⟩, hsum, hrest⟩ := Except.bind_eq_ok_iff.1 hparse
    rw [hsum] at hrun
    obtain ⟨p, hp, htokens, hlead⟩ := hrun
    cases rest with
    | cons t rest => cases hrest
    | nil =>
      cases hrest
      have hnext := nextPosition_tokensAt hp
      rw [htokens] at hnext
      exact ⟨p, hlead, hnext.symm⟩
  · rintro ⟨p, hlead, hskip⟩
    cases hsum : Expression.sum cs.length maxLevels (tokens cs) with
    | error fault =>
      rw [hsum] at hrun
      obtain ⟨q, d, fs, hfault⟩ := hrun
      cases hlead.eq_of_halted hfault rfl rfl
    | ok x =>
      obtain ⟨g, rest⟩ := x
      rw [hsum] at hrun
      obtain ⟨q, -, rfl, hvalue⟩ := hrun
      cases hlead.eq_of_halted hvalue rfl rfl
      have hnone : cs[skipBlanks cs p]? = none := List.getElem?_eq_none_iff.2 hskip.ge
      rw [parseFormula, hsum, tokensAt_eq_nil hnone]
      rfl

/-- Every call ends, wherever in a text and at whatever depth it is made, and it ends as the parser
does.  With a result it has gone on in the text and has put the counter back.

Up to there the cursor stays in the text, and the counter goes no further than one above the limit.
A run ends with a result or a fault only: nowhere is a level given back with the counter at zero.
At most six calls are open at a time for each level that there is. -/
theorem run_sound (source : String) (rule : Rule) {position depth : Nat}
    (hposition : position ≤ source.toList.length) (hdepth : depth ≤ maxLevels) :
    (∃ n m, (start rule position depth).after source.toList n = some m ∧
      m.step source.toList = none ∧
      ((∃ f p, m = ⟨p, depth, [], .value f⟩ ∧ position < p ∧ p ≤ source.toList.length ∧
          rule.parse source.toList (maxLevels - depth) position
            = .ok (f, tokensAt source.toList p)) ∨
        ∃ fault, m.control = .fault fault ∧
          rule.parse source.toList (maxLevels - depth) position = .error fault)) ∧
    ∀ n m, (start rule position depth).after source.toList n = some m →
      n ≤ 16 * (source.toList.length - position) + 13 ∧
      m.position ≤ source.toList.length ∧ m.depth ≤ maxLevels + 1 ∧
      (m.step source.toList = none → m.Halted) ∧
      m.openCalls ≤ 5 * (maxLevels - depth) + 6 ∧ m.openCalls ≤ 6 * maxLevels := by
  have hstart : Consistent source.toList rule position depth (.start rule position depth) :=
    consistent_start hposition hdepth
  constructor
  · have hrun := (agrees source.toList (maxLevels - depth) depth (by omega)).call rule []
      hposition
    cases hparse : rule.parse source.toList (maxLevels - depth) position with
    | ok x =>
      obtain ⟨f, rest⟩ := x
      rw [hparse] at hrun
      obtain ⟨p, hp, rfl, n, hvalue⟩ := hrun
      have hlow : position < p := by
        cases hstart.after hvalue with
        | value hlow => exact hlow
      exact ⟨n, _, hvalue, rfl, .inl ⟨f, p, rfl, hlow, hp, rfl⟩⟩
    | error fault =>
      rw [hparse] at hrun
      obtain ⟨p, d, fs, n, hfault⟩ := hrun
      exact ⟨n, _, hfault, rfl, .inr ⟨fault, rfl, rfl⟩⟩
  · intro n m hafter
    have hm := hstart.after hafter
    have hopen := hm.openCalls_le
    have hmax : 5 * (maxLevels - depth) + 6 ≤ 6 * maxLevels := by
      rw [maxLevels]
      omega
    exact ⟨length_le_of_after hposition hdepth hafter, hm.position_le, hm.depth_le, hm.halted,
      hopen, Nat.le_trans hopen hmax⟩

/-- One level is left, and the sign and the operator take it one after the other. -/
theorem run_sound_last_level :
    0 ≤ " -x+x)".toList.length ∧ 255 ≤ maxLevels ∧
      ∃ n m, (start .sum 0 255).after " -x+x)".toList n = some m ∧
        m.control = .value (.binary .add (.negate .variable) .variable) ∧
        m.depth = 255 ∧ 0 < m.position ∧ m.openCalls ≤ 11 := by
  have hparse : Rule.sum.parse " -x+x)".toList (maxLevels - 255) 0
      = .ok (.binary .add (.negate .variable) .variable, tokensAt " -x+x)".toList 5) := by
    decide +kernel
  have hdepth : 255 ≤ maxLevels := by decide
  obtain ⟨⟨n, m, hafter, -, hend⟩, hstates⟩ := run_sound " -x+x)" .sum (Nat.zero_le _) hdepth
  obtain ⟨-, -, -, -, hopen, -⟩ := hstates n m hafter
  obtain ⟨f, p, rfl, hlow, -, hok⟩ | ⟨fault, -, herror⟩ := hend
  · rw [hparse] at hok
    obtain ⟨rfl, -⟩ := Prod.mk.inj (Except.ok.inj hok)
    exact ⟨Nat.zero_le _, hdepth, n, _, hafter, rfl, rfl, hlow, hopen⟩
  · rw [hparse] at herror
    cases herror

end Machine
end Expression
end TreeFlow
