import TreeFlow.Proofs.Expression.Parser
/-
The parser as a machine with a cursor.

The machine works on the characters of the text.  It has a cursor, a counter of the levels that are
taken, and a stack of the calls that wait for another one, each with what it needs to go on.  A step
is what a call does up to the next call or result.  Chains note the counter at their start and put
it back at their end, whatever they have taken in between; signs, exponents, parentheses and calls
give back the one level that they take.

All that a step can do is said by `Move`.  What holds in every state of a run, and how long it is,
follows from that alone.
-/

namespace TreeFlow
namespace Expression

/-! ## The text at a position -/

/-- The longest run of characters of a kind from a position on. -/
def runAt (cs : List Char) (kind : Char → Bool) (position : Nat) : List Char :=
  (cs.drop position).takeWhile kind

/-- The first position from the given one on that has no blank. -/
def skipBlanks (cs : List Char) (position : Nat) : Nat :=
  position + (runAt cs Text.isBlank position).length

/-! ## States -/

/-- What is called to read a part of the text. -/
inductive Rule where
  | sum
  | term
  | unary
  | power
  | primary
  | number
deriving DecidableEq, Repr

inductive Chain where
  | sum
  | term
deriving DecidableEq, Repr

namespace Chain

def rule : Chain → Rule
  | .sum => .sum
  | .term => .term

/-- What stands between the operators. -/
def operand : Chain → Rule
  | .sum => .term
  | .term => .unary

def operator? : Chain → Lexeme → Option Operator
  | .sum => additive?
  | .term => multiplicative?

end Chain

/-- A call that waits for the result of another. -/
inductive Frame where
  /-- A chain: the depth at its start, and what is read of it with the operator behind. -/
  | chain (chain : Chain) (start : Nat) (left : Option (Formula × Operator))
  | sign (negative : Bool)
  | unsigned
  | base
  | exponent (base : Formula)
  /-- A sum in parentheses, which may be the argument of a function. -/
  | group (function : Option Function)
  | literal
deriving DecidableEq

inductive Control where
  | call (rule : Rule)
  | value (f : Formula)
  | fault (fault : Fault)
deriving DecidableEq

structure Machine where
  position : Nat
  depth : Nat
  /-- The calls that wait, the innermost first. -/
  frames : List Frame
  control : Control
deriving DecidableEq

namespace Machine

def start (rule : Rule) (position depth : Nat) : Machine := ⟨position, depth, [], .call rule⟩

/-! ## Steps -/

def goTo (m : Machine) (position : Nat) : Machine := { m with position := position }

def await (m : Machine) (frame : Frame) (rule : Rule) : Machine :=
  { m with frames := frame :: m.frames, control := .call rule }

def answer (m : Machine) (f : Formula) : Machine := { m with control := .value f }

def fail (m : Machine) (fault : Fault) : Machine := { m with control := .fault fault }

/-- Takes a level.  The counter goes up first and is compared then. -/
def descend (m : Machine) (next : Machine → Machine) : Machine :=
  let m := { m with depth := m.depth + 1 }
  if maxLevels < m.depth then m.fail (.tooDeep m.position) else next m

/-- Gives a level back.  Where none is taken the machine is stuck. -/
def ascend (m : Machine) (f : Formula) : Option Machine :=
  match m.depth with
  | 0 => none
  | depth + 1 => some { m with depth := depth, control := .value f }

/-- Goes on behind the symbol `c`. -/
def expect (cs : List Char) (c : Char) (m : Machine) (next : Machine → Option Machine) :
    Option Machine :=
  let position := skipBlanks cs m.position
  if cs[position]? = some c then next (m.goTo (position + 1))
  else some ((m.goTo position).fail (.expected c position))

def enterUnary (cs : List Char) (m : Machine) : Machine :=
  let position := skipBlanks cs m.position
  if cs[position]? = some '-' then
    (m.goTo (position + 1)).descend (·.await (.sign true) .unary)
  else if cs[position]? = some '+' then
    (m.goTo (position + 1)).descend (·.await (.sign false) .unary)
  else (m.goTo position).await .unsigned .power

/-- A name, at its first letter. -/
def enterName (cs : List Char) (m : Machine) : Option Machine :=
  let letters := runAt cs Char.isAlphanum m.position
  let m := m.goTo (m.position + letters.length)
  let name := String.ofList (letters.map Char.toLower)
  if name = "x" then some (m.answer .variable)
  else if name = "pi" then some (m.answer (.number Binary64.pi))
  else
    match Function.ofName? name with
    | none => some (m.fail (.unknownName name))
    | some function =>
      m.expect cs '(' fun m => some (m.descend (·.await (.group (some function)) .sum))

def enterPrimary (cs : List Char) (m : Machine) : Option Machine :=
  let position := skipBlanks cs m.position
  let m := m.goTo position
  match cs[position]? with
  | none => some (m.fail .endOfText)
  | some c =>
    if c = '(' then some ((m.goTo (position + 1)).descend (·.await (.group none) .sum))
    else if isNumberChar c then some (m.await .literal .number)
    else if c.isAlpha then m.enterName cs
    else some (m.fail (.unexpected c position))

def enterNumber (cs : List Char) (m : Machine) : Machine :=
  let text := runAt cs isNumberChar m.position
  let m := m.goTo (m.position + text.length)
  match Binary64.numeral? text with
  | none => m.fail (.invalidNumber (String.ofList text))
  | some value => m.answer (.number value)

/-- What a call does first. -/
def enter (cs : List Char) (rule : Rule) (m : Machine) : Option Machine :=
  match rule with
  | .sum => some (m.await (.chain .sum m.depth none) .term)
  | .term => some (m.await (.chain .term m.depth none) .unary)
  | .unary => some (m.enterUnary cs)
  | .power => some (m.await .base .primary)
  | .primary => m.enterPrimary cs
  | .number => some (m.enterNumber cs)

/-- The operand of a chain, joined to the part of the chain before it. -/
def joined (left : Option (Formula × Operator)) (f : Formula) : Formula :=
  match left with
  | none => f
  | some (g, op) => .binary op g f

/-- The chain up to an operand, which its next operator may follow. -/
def resumeChain (cs : List Char) (chain : Chain) (start : Nat) (f : Formula) (m : Machine) :
    Machine :=
  let position := skipBlanks cs m.position
  match cs[position]?.bind fun c => chain.operator? (.symbol c) with
  | some op =>
    (m.goTo position).descend fun m =>
      (m.goTo (position + 1)).await (.chain chain start (some (f, op))) chain.operand
  | none => { m.goTo position with depth := start }.answer f

/-- What a call does with the result that it has waited for. -/
def resume (cs : List Char) (frame : Frame) (f : Formula) (m : Machine) : Option Machine :=
  match frame with
  | .chain chain start left => some (m.resumeChain cs chain start (joined left f))
  | .sign negative => m.ascend (if negative then .negate f else f)
  | .unsigned => some (m.answer f)
  | .base =>
    let position := skipBlanks cs m.position
    if cs[position]? = some '^' then
      some ((m.goTo (position + 1)).descend (·.await (.exponent f) .unary))
    else some ((m.goTo position).answer f)
  | .exponent base => m.ascend (.binary .pow base f)
  | .group function => m.expect cs ')' fun m => m.ascend (function.elim f (.call · f))
  | .literal => some (m.answer f)

def step (cs : List Char) (m : Machine) : Option Machine :=
  match m.control with
  | .call rule => m.enter cs rule
  | .value f =>
    match m.frames with
    | [] => none
    | frame :: frames => { m with frames := frames }.resume cs frame f
  | .fault _ => none

/-- The state after some steps, if the run goes so far. -/
def after (cs : List Char) : Nat → Machine → Option Machine
  | 0, m => some m
  | n + 1, m => (m.step cs).bind (after cs n)

/-- The run is over: with the result of the first call, or with a fault. -/
inductive Halted : Machine → Prop
  | value (position depth : Nat) (f : Formula) : Halted ⟨position, depth, [], .value f⟩
  | fault (position depth : Nat) (frames : List Frame) (fault : Fault) :
    Halted ⟨position, depth, frames, .fault fault⟩

/-- How many calls have been made and have no result yet.  A result is that of a call that is
over; a fault is that of the call that finds it. -/
def openCalls (m : Machine) : Nat :=
  match m.control with
  | .call _ => m.frames.length + 1
  | .value _ => m.frames.length
  | .fault _ => m.frames.length + 1

end Machine

/-! ## What a step can do -/

/-- How far down the grammar a rule is. -/
def Rule.order : Rule → Nat
  | .sum => 0
  | .term => 1
  | .unary => 2
  | .power => 3
  | .primary => 4
  | .number => 5

namespace Frame

/-- What the waiting call reads. -/
def rule : Frame → Rule
  | .chain kind _ _ => kind.rule
  | .sign _ => .unary
  | .unsigned => .unary
  | .base => .power
  | .exponent _ => .power
  | .group _ => .primary
  | .literal => .primary

/-- What it waits for. -/
def awaits : Frame → Rule
  | .chain kind _ _ => kind.operand
  | .sign _ => .unary
  | .unsigned => .power
  | .base => .primary
  | .exponent _ => .unary
  | .group _ => .sum
  | .literal => .number

/-- How the call counts: it was made at the depth `outer`, and the call that it waits for was made
at the depth `inner`. -/
def Counts (frame : Frame) (outer inner : Nat) : Prop :=
  match frame with
  | .chain _ start _ => start = outer ∧ outer ≤ inner
  | .sign _ => inner = outer + 1
  | .unsigned => inner = outer
  | .base => inner = outer
  | .exponent _ => inner = outer + 1
  | .group _ => inner = outer + 1
  | .literal => inner = outer

/-- The depth that the call leaves, if the call that it waits for leaves the depth `inner`. -/
def depthBehind (frame : Frame) (inner : Nat) : Nat :=
  match frame with
  | .chain _ start _ => start
  | .sign _ => inner - 1
  | .unsigned => inner
  | .base => inner
  | .exponent _ => inner - 1
  | .group _ => inner - 1
  | .literal => inner

theorem Counts.depthBehind {frame : Frame} {outer inner : Nat} (h : frame.Counts outer inner) :
    frame.depthBehind inner = outer := by
  cases frame <;> simp only [Counts, Frame.depthBehind] at h ⊢ <;> omega

theorem Counts.le {frame : Frame} {outer inner : Nat} (h : frame.Counts outer inner) :
    outer ≤ inner := by
  cases frame <;> simp only [Counts] at h <;> omega

/-- A call is one rule further down the grammar than the call that waits for it, or there is a
level between them.  At most five rules further up are paid for with a level. -/
theorem Counts.order_le {frame : Frame} {outer inner : Nat} (h : frame.Counts outer inner) :
    frame.rule.order + 1 + 5 * outer ≤ frame.awaits.order + 5 * inner := by
  cases frame with
  | chain kind start left =>
    have hle := h.le
    cases kind <;> simp only [rule, awaits, Chain.rule, Chain.operand, Rule.order] <;> omega
  | _ =>
    simp only [Counts] at h
    simp only [rule, awaits, Rule.order]
    omega

end Frame

namespace Machine

variable {cs : List Char} {m m' : Machine}

/-- All that a step can do. -/
inductive Move (cs : List Char) : Machine → Machine → Prop
  /-- A call makes another one and waits for it. -/
  | call {p p' d d' : Nat} {frames : List Frame} (frame : Frame) (hcounts : frame.Counts d d')
      (hdepth : d ≤ maxLevels → d' ≤ maxLevels) (hp : p ≤ p') (hp' : p' ≤ cs.length)
      (hcost : p < p' ∨ frame.rule.order < frame.awaits.order) :
      Move cs ⟨p, d, frames, .call frame.rule⟩ ⟨p', d', frame :: frames, .call frame.awaits⟩
  /-- A call has read a leaf. -/
  | leaf {p p' d : Nat} {frames : List Frame} {rule : Rule} {f : Formula} (hp : p < p')
      (hp' : p' ≤ cs.length) :
      Move cs ⟨p, d, frames, .call rule⟩ ⟨p', d, frames, .value f⟩
  /-- The innermost call goes on behind an operator and waits again, one level down. -/
  | again {p p' d : Nat} {frames : List Frame} {f : Formula} {frame : Frame} (frame' : Frame)
      (hrule : frame'.rule = frame.rule)
      (hcounts : ∀ outer, frame.Counts outer d → frame'.Counts outer (d + 1))
      (hdepth : d + 1 ≤ maxLevels) (hp : p < p') (hp' : p' ≤ cs.length) :
      Move cs ⟨p, d, frame :: frames, .value f⟩
        ⟨p', d + 1, frame' :: frames, .call frame'.awaits⟩
  /-- The innermost call is over. -/
  | back {p p' d : Nat} {frames : List Frame} {f g : Formula} (frame : Frame) (hp : p ≤ p')
      (hp' : p' ≤ cs.length) :
      Move cs ⟨p, d, frame :: frames, .value f⟩ ⟨p', frame.depthBehind d, frames, .value g⟩
  | failCall {p p' d d' : Nat} {frames : List Frame} {rule : Rule} {fault : Fault}
      (hdepth : d' ≤ d + 1) (hp : p ≤ p') (hp' : p' ≤ cs.length) :
      Move cs ⟨p, d, frames, .call rule⟩ ⟨p', d', frames, .fault fault⟩
  | failBack {p p' d d' : Nat} {frame : Frame} {frames : List Frame} {f : Formula} {fault : Fault}
      (hdepth : d' ≤ d + 1) (hp : p ≤ p') (hp' : p' ≤ cs.length) :
      Move cs ⟨p, d, frame :: frames, .value f⟩ ⟨p', d', frames, .fault fault⟩

theorem lt_length_of_getElem? {c : Char} {p : Nat} (h : cs[p]? = some c) : p < cs.length :=
  (List.getElem?_eq_some_iff.1 h).1

theorem add_length_runAt_le (kind : Char → Bool) {p : Nat} (hp : p ≤ cs.length) :
    p + (runAt cs kind p).length ≤ cs.length := by
  have hle : (runAt cs kind p).length ≤ (cs.drop p).length := (List.takeWhile_prefix _).length_le
  rw [List.length_drop] at hle
  omega

theorem drop_eq_cons {c : Char} {p : Nat} (h : cs[p]? = some c) :
    cs.drop p = c :: cs.drop (p + 1) := by
  obtain ⟨hlt, rfl⟩ := List.getElem?_eq_some_iff.1 h
  exact List.drop_eq_getElem_cons hlt

theorem runAt_eq_cons {kind : Char → Bool} {c : Char} {p : Nat} (h : cs[p]? = some c)
    (hc : kind c = true) : runAt cs kind p = c :: runAt cs kind (p + 1) := by
  rw [runAt, drop_eq_cons h, List.takeWhile_cons_of_pos hc, runAt]

theorem le_skipBlanks (cs : List Char) (p : Nat) : p ≤ skipBlanks cs p := Nat.le_add_right _ _

theorem skipBlanks_le {p : Nat} (hp : p ≤ cs.length) : skipBlanks cs p ≤ cs.length :=
  add_length_runAt_le _ hp

theorem descend_cases (m : Machine) (next : Machine → Machine) :
    (maxLevels < m.depth + 1 ∧
        m.descend next = fail { m with depth := m.depth + 1 } (.tooDeep m.position)) ∨
      (m.depth + 1 ≤ maxLevels ∧ m.descend next = next { m with depth := m.depth + 1 }) := by
  rw [descend]
  split
  · exact .inl ⟨‹_›, rfl⟩
  · exact .inr ⟨Nat.le_of_not_lt ‹_›, rfl⟩

theorem expect_eq_some {c : Char} {next : Machine → Option Machine}
    (h : m.expect cs c next = some m') :
    (cs[skipBlanks cs m.position]? = some c ∧
        next (m.goTo (skipBlanks cs m.position + 1)) = some m') ∨
      m' = (m.goTo (skipBlanks cs m.position)).fail (.expected c (skipBlanks cs m.position)) := by
  rw [expect] at h
  split at h
  · exact .inl ⟨‹_›, h⟩
  · exact .inr (Option.some.inj h).symm

theorem ascend_eq_some {f : Formula} (h : m.ascend f = some m') :
    m' = ⟨m.position, m.depth - 1, m.frames, .value f⟩ := by
  rw [ascend] at h
  split at h
  · cases h
  · rename_i depth hdepth
    rw [hdepth]
    exact (Option.some.inj h).symm

section Moves

variable {p q d : Nat} {frames : List Frame}

/-- A call goes on one level down, if there is one. -/
theorem move_descend {rule : Rule} (frame : Frame) (hrule : frame.rule = rule)
    (hcounts : frame.Counts d (d + 1)) (hp : p < q) (hq : q ≤ cs.length) (control : Control) :
    Move cs ⟨p, d, frames, .call rule⟩
      (descend ⟨q, d, frames, control⟩ (·.await frame frame.awaits)) := by
  subst hrule
  rcases descend_cases ⟨q, d, frames, control⟩ (·.await frame frame.awaits) with
    ⟨-, h⟩ | ⟨hdepth, h⟩
  · rw [h]
    exact .failCall (Nat.le_refl _) (Nat.le_of_lt hp) hq
  · rw [h]
    exact .call frame hcounts (fun _ => hdepth) (Nat.le_of_lt hp) hq (.inl hp)

theorem move_enterUnary (hp : p ≤ cs.length) :
    Move cs ⟨p, d, frames, .call .unary⟩ (enterUnary cs ⟨p, d, frames, .call .unary⟩) := by
  have hskip := le_skipBlanks cs p
  have hle := skipBlanks_le hp
  rw [enterUnary]
  dsimp only [goTo]
  by_cases hminus : cs[skipBlanks cs p]? = some '-'
  · have hlt := lt_length_of_getElem? hminus
    rw [if_pos hminus]
    exact move_descend (.sign true) rfl rfl (Nat.lt_succ_of_le hskip) hlt _
  rw [if_neg hminus]
  by_cases hplus : cs[skipBlanks cs p]? = some '+'
  · have hlt := lt_length_of_getElem? hplus
    rw [if_pos hplus]
    exact move_descend (.sign false) rfl rfl (Nat.lt_succ_of_le hskip) hlt _
  · rw [if_neg hplus]
    exact .call .unsigned rfl id hskip hle (.inr (Nat.lt_succ_self _))

theorem move_enterName {c : Char} (hp : p ≤ q) (hc : cs[q]? = some c) (halpha : c.isAlpha = true)
    (h : enterName cs ⟨q, d, frames, .call .primary⟩ = some m) :
    Move cs ⟨p, d, frames, .call .primary⟩ m := by
  have hlt := lt_length_of_getElem? hc
  have hle := add_length_runAt_le Char.isAlphanum (Nat.le_of_lt hlt)
  have halphanum : c.isAlphanum = true := by rw [Char.isAlphanum, halpha, Bool.true_or]
  have hpos : 0 < (runAt cs Char.isAlphanum q).length := by
    rw [runAt_eq_cons hc halphanum]
    exact Nat.succ_pos _
  rw [enterName] at h
  dsimp only [goTo, answer, fail] at h
  split at h
  · cases h
    exact .leaf (by omega) hle
  split at h
  · cases h
    exact .leaf (by omega) hle
  split at h
  · cases h
    exact .failCall (Nat.le_succ _) (by omega) hle
  next function _ =>
    have hskip := le_skipBlanks cs (q + (runAt cs Char.isAlphanum q).length)
    have hskip' := skipBlanks_le hle
    rcases expect_eq_some h with ⟨hopen, h⟩ | rfl
    · cases h
      have hlt' : _ < cs.length := lt_length_of_getElem? hopen
      exact move_descend (.group (some function)) rfl rfl (by dsimp only at *; omega) hlt' _
    · have hlow : p ≤ skipBlanks cs (q + (runAt cs Char.isAlphanum q).length) := by omega
      exact .failCall (Nat.le_succ _) hlow hskip'

theorem move_enterPrimary (hp : p ≤ cs.length)
    (h : enterPrimary cs ⟨p, d, frames, .call .primary⟩ = some m) :
    Move cs ⟨p, d, frames, .call .primary⟩ m := by
  have hskip := le_skipBlanks cs p
  have hle := skipBlanks_le hp
  rw [enterPrimary] at h
  dsimp only [goTo] at h
  split at h
  · cases h
    exact .failCall (Nat.le_succ _) hskip hle
  next c hc =>
    have hlt := lt_length_of_getElem? hc
    split at h
    · cases h
      exact move_descend (.group none) rfl rfl (by omega) (by omega) _
    split at h
    · cases h
      exact .call .literal rfl id hskip hle (.inr (Nat.lt_succ_self _))
    split at h
    next halpha => exact move_enterName hskip hc halpha h
    next =>
      cases h
      exact .failCall (Nat.le_succ _) hskip hle

theorem move_enterNumber (hp : p ≤ cs.length) :
    Move cs ⟨p, d, frames, .call .number⟩ (enterNumber cs ⟨p, d, frames, .call .number⟩) := by
  have hle := add_length_runAt_le isNumberChar hp
  rw [enterNumber]
  dsimp only [goTo]
  split
  · exact .failCall (Nat.le_succ _) (Nat.le_add_right _ _) hle
  next value hvalue =>
    have hne : runAt cs isNumberChar p ≠ [] := fun hnil => by
      rw [hnil] at hvalue
      cases hvalue
    have hpos := List.length_pos_iff.2 hne
    exact .leaf (Nat.lt_add_of_pos_right hpos) hle

theorem move_enter {rule : Rule} (hp : p ≤ cs.length)
    (h : enter cs rule ⟨p, d, frames, .call rule⟩ = some m) :
    Move cs ⟨p, d, frames, .call rule⟩ m := by
  cases rule with
  | sum =>
    cases h
    exact .call (.chain .sum d none) ⟨rfl, Nat.le_refl d⟩ id (Nat.le_refl p) hp
      (.inr (Nat.lt_succ_self _))
  | term =>
    cases h
    exact .call (.chain .term d none) ⟨rfl, Nat.le_refl d⟩ id (Nat.le_refl p) hp
      (.inr (Nat.lt_succ_self _))
  | unary =>
    cases h
    exact move_enterUnary hp
  | power =>
    cases h
    exact .call .base rfl id (Nat.le_refl p) hp (.inr (Nat.lt_succ_self _))
  | primary => exact move_enterPrimary hp h
  | number =>
    cases h
    exact move_enterNumber hp

/-- A waiting call goes on one level down, if there is one. -/
theorem move_descend_again (frame frame' : Frame) (hrule : frame'.rule = frame.rule)
    (hcounts : ∀ outer, frame.Counts outer d → frame'.Counts outer (d + 1)) (hp : p < q)
    (hq : q ≤ cs.length) {r : Nat} (hpr : p ≤ r) (hr : r ≤ cs.length) (f : Formula)
    {next : Machine → Machine}
    (hnext : next ⟨r, d + 1, frames, .value f⟩
      = ⟨q, d + 1, frame' :: frames, .call frame'.awaits⟩) :
    Move cs ⟨p, d, frame :: frames, .value f⟩ (descend ⟨r, d, frames, .value f⟩ next) := by
  rcases descend_cases ⟨r, d, frames, .value f⟩ next with ⟨-, h⟩ | ⟨hdepth, h⟩
  · rw [h]
    exact .failBack (Nat.le_refl _) hpr hr
  · rw [h, hnext]
    exact .again frame' hrule hcounts hdepth hp hq

theorem move_resumeChain {chain : Chain} {start : Nat} {left : Option (Formula × Operator)}
    (f g : Formula) (hp : p ≤ cs.length) :
    Move cs ⟨p, d, .chain chain start left :: frames, .value f⟩
      (resumeChain cs chain start g ⟨p, d, frames, .value f⟩) := by
  have hskip := le_skipBlanks cs p
  have hle := skipBlanks_le hp
  rw [resumeChain]
  dsimp only [goTo]
  split
  next op hop =>
    obtain ⟨c, hc, -⟩ := Option.bind_eq_some_iff.1 hop
    have hlt := lt_length_of_getElem? hc
    have hcounts : ∀ outer, (Frame.chain chain start left).Counts outer d →
        (Frame.chain chain start (some (g, op))).Counts outer (d + 1) :=
      fun outer h => ⟨h.1, Nat.le_succ_of_le h.2⟩
    refine move_descend_again (.chain chain start left) (.chain chain start (some (g, op))) rfl
      hcounts (Nat.lt_succ_of_le hskip) hlt hskip hle f ?_
    rfl
  next => exact .back (.chain chain start left) hskip hle

theorem move_ascend {frame : Frame} {f g : Formula} (hframe : frame.depthBehind d = d - 1)
    (hp : p ≤ q) (hq : q ≤ cs.length)
    (h : ascend ⟨q, d, frames, .value f⟩ g = some m) :
    Move cs ⟨p, d, frame :: frames, .value f⟩ m := by
  rw [ascend_eq_some h, ← hframe]
  exact .back frame hp hq

theorem move_resume {frame : Frame} {f : Formula} (hp : p ≤ cs.length)
    (h : resume cs frame f ⟨p, d, frames, .value f⟩ = some m) :
    Move cs ⟨p, d, frame :: frames, .value f⟩ m := by
  have hskip := le_skipBlanks cs p
  have hle := skipBlanks_le hp
  cases frame with
  | chain chain start left =>
    cases h
    exact move_resumeChain f _ hp
  | sign negative => exact move_ascend rfl (Nat.le_refl p) hp h
  | unsigned =>
    cases h
    exact .back .unsigned (Nat.le_refl p) hp
  | base =>
    rw [resume] at h
    dsimp only [goTo] at h
    split at h
    next hc =>
      have hlt := lt_length_of_getElem? hc
      have hcounts : ∀ outer, Frame.base.Counts outer d →
          (Frame.exponent f).Counts outer (d + 1) := fun outer => congrArg (· + 1)
      cases h
      exact move_descend_again .base (.exponent f) rfl hcounts (Nat.lt_succ_of_le hskip) hlt
        (Nat.le_succ_of_le hskip) hlt f rfl
    next =>
      cases h
      exact .back .base hskip hle
  | exponent base => exact move_ascend rfl (Nat.le_refl p) hp h
  | group function =>
    rw [resume] at h
    rcases expect_eq_some h with ⟨hc, h⟩ | rfl
    · have hlt := lt_length_of_getElem? hc
      exact move_ascend rfl (by dsimp only; omega) hlt h
    · exact .failBack (Nat.le_succ _) hskip hle
  | literal =>
    cases h
    exact .back .literal (Nat.le_refl p) hp

theorem move_of_step (hp : m.position ≤ cs.length) (h : m.step cs = some m') : Move cs m m' := by
  obtain ⟨p, d, frames, control⟩ := m
  cases control with
  | call rule => exact move_enter hp h
  | value f =>
    cases frames with
    | nil => cases h
    | cons frame frames => exact move_resume hp h
  | fault fault => cases h

end Moves

end Machine
end Expression
end TreeFlow
