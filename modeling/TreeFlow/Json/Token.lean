import TreeFlow.Binary64.Numeral
import TreeFlow.Json.Basic
/-
Tokens of JSON texts.

The scanner walks over the units of a text once.  Each mode of it is the part of a token that it
stands in; a unit that does not continue the token either ends it or is no JSON at all.  Once a
unit is refused, the tokens end with `refused` and the rest of the text is not looked at.
-/

namespace TreeFlow
namespace Json

inductive Token where
  | openList
  | closeList
  | openObject
  | closeObject
  | comma
  | colon
  /-- A text, or `illegible`. -/
  | name (value : Json)
  | scalar (value : Json)
  | refused
deriving Inhabited

/-- The part of a number that was read last. -/
inductive NumberPart where
  | minus
  | zero
  | whole
  | point
  | places
  | mark
  | sign
  | power
deriving DecidableEq, Repr

/-- The part of a number that a character belongs to, after the given part. -/
def NumberPart.next? (part : NumberPart) (c : Char) : Option NumberPart :=
  match part with
  | .minus => if c = '0' then some .zero else if c.isDigit then some .whole else none
  | .zero => fraction? c
  | .whole => if c.isDigit then some .whole else fraction? c
  | .point => if c.isDigit then some .places else none
  | .places => if c.isDigit then some .places else exponent? c
  | .mark => if c = '+' || c = '-' then some .sign else if c.isDigit then some .power else none
  | .sign => if c.isDigit then some .power else none
  | .power => if c.isDigit then some .power else none
where
  exponent? (c : Char) : Option NumberPart := if c = 'e' || c = 'E' then some .mark else none
  fraction? (c : Char) : Option NumberPart := if c = '.' then some .point else exponent? c

/-- Whether a number may end after a part, with the given character behind it: a digit never
follows a leading zero. -/
def NumberPart.ends (part : NumberPart) (behind : Option Char) : Bool :=
  match part with
  | .zero => !(behind.any Char.isDigit)
  | .whole | .places | .power => true
  | .minus | .point | .mark | .sign => false

/-- The value of the characters of a number.  A whole number beyond every word, and a zero with a
minus sign, are numbers like those with a point. -/
def numberValue (cs : List Char) : Json :=
  let exact := if cs.any fun c => c = '.' || c = 'e' || c = 'E' then none else Text.integer? cs
  match exact with
  | some n =>
    if isWord n && !(n == 0 && cs.head? == some '-') then .integer n else approximate
  | none => approximate
where
  approximate : Json :=
    match Binary64.numeral? cs with
    | some x => if x.isFinite then .real x else .illegible
    | none => .illegible

/-- What a text has so far: its characters, last first; the first half of a surrogate pair, if it
was read last; and whether it can be held. -/
structure TextDraft where
  reversed : List Char
  half : Option Nat
  legible : Bool
deriving Inhabited

def TextDraft.start : TextDraft := ⟨[], none, true⟩

/-- Another unit of a text.  Half a surrogate pair before it makes the text illegible. -/
def TextDraft.push (d : TextDraft) (unit : Option Char) : TextDraft :=
  match unit with
  | some c => ⟨c :: d.reversed, none, d.legible && d.half.isNone⟩
  | none => ⟨d.reversed, none, false⟩

def TextDraft.pushCode (d : TextDraft) (code : Nat) : TextDraft :=
  if 0xDC00 ≤ code && code < 0xE000 then
    match d.half with
    | some high =>
      let c := Char.ofNat (0x10000 + (high - 0xD800) * 0x400 + (code - 0xDC00))
      ⟨c :: d.reversed, none, d.legible⟩
    | none => ⟨d.reversed, none, false⟩
  else if 0xD800 ≤ code && code < 0xDC00 then ⟨d.reversed, some code, d.legible && d.half.isNone⟩
  else d.push (some (Char.ofNat code))

def TextDraft.value (d : TextDraft) : Json :=
  if d.legible && d.half.isNone then .text (String.ofList d.reversed.reverse) else .illegible

inductive Mode where
  | between
  /-- Inside of a word, with the characters to come. -/
  | word (expected : List Char) (value : Json)
  /-- Inside of a number, with its characters so far, last first. -/
  | number (part : NumberPart) (reversed : List Char)
  | text (draft : TextDraft)
  | escape (draft : TextDraft)
  /-- Inside of the four digits of a code unit. -/
  | code (missing : Nat) (value : Nat) (draft : TextDraft)
  | stopped
deriving Inhabited

def hexDigit? (c : Char) : Option Nat :=
  let n := c.toNat
  if 48 ≤ n && n ≤ 57 then some (n - 48)
  else if 65 ≤ n && n ≤ 70 then some (n - 55)
  else if 97 ≤ n && n ≤ 102 then some (n - 87)
  else none

def escaped? (c : Char) : Option Char :=
  match c with
  | '\x22' => some '\x22'
  | '\\' => some '\\'
  | '/' => some '/'
  | 'b' => some '\x08'
  | 'f' => some '\x0c'
  | 'n' => some '\n'
  | 'r' => some '\r'
  | 't' => some '\t'
  | _ => none

/-- The scanner: its mode, and the tokens so far, last first. -/
structure Scan where
  mode : Mode
  reversed : List Token
deriving Inhabited

def Scan.refuse (s : Scan) : Scan := ⟨.stopped, .refused :: s.reversed⟩

/-- A unit where a new token may start. -/
def Scan.begin (s : Scan) (unit : Option Char) : Scan :=
  match unit with
  | none => s.refuse
  | some c =>
    match c with
    | ' ' | '\t' | '\n' | '\r' => ⟨.between, s.reversed⟩
    | '[' => ⟨.between, .openList :: s.reversed⟩
    | ']' => ⟨.between, .closeList :: s.reversed⟩
    | '\x7b' => ⟨.between, .openObject :: s.reversed⟩
    | '\x7d' => ⟨.between, .closeObject :: s.reversed⟩
    | ',' => ⟨.between, .comma :: s.reversed⟩
    | ':' => ⟨.between, .colon :: s.reversed⟩
    | '\x22' => ⟨.text .start, s.reversed⟩
    | 'n' => ⟨.word ['u', 'l', 'l'] .null, s.reversed⟩
    | 't' => ⟨.word ['r', 'u', 'e'] (.boolean true), s.reversed⟩
    | 'f' => ⟨.word ['a', 'l', 's', 'e'] (.boolean false), s.reversed⟩
    | '-' => ⟨.number .minus [c], s.reversed⟩
    | '0' => ⟨.number .zero [c], s.reversed⟩
    | _ => if c.isDigit then ⟨.number .whole [c], s.reversed⟩ else s.refuse

def Scan.step (s : Scan) (unit : Option Char) : Scan :=
  match s.mode with
  | .between => s.begin unit
  | .word expected value =>
    match expected, unit with
    | [c], some d =>
      if c = d then ⟨.between, .scalar value :: s.reversed⟩ else s.refuse
    | c :: rest, some d => if c = d then ⟨.word rest value, s.reversed⟩ else s.refuse
    | _, _ => s.refuse
  | .number part reversed =>
    match unit.bind fun c => (part.next? c).map fun next => (next, c) with
    | some (next, c) => ⟨.number next (c :: reversed), s.reversed⟩
    | none =>
      if part.ends unit then
        Scan.begin ⟨.between, .scalar (numberValue reversed.reverse) :: s.reversed⟩ unit
      else s.refuse
  | .text draft =>
    match unit with
    | some '\x22' => ⟨.between, .name draft.value :: s.reversed⟩
    | some '\\' => ⟨.escape draft, s.reversed⟩
    | some c => if c.toNat < 0x20 then s.refuse else ⟨.text (draft.push unit), s.reversed⟩
    | none => ⟨.text (draft.push none), s.reversed⟩
  | .escape draft =>
    match unit with
    | some 'u' => ⟨.code 4 0 draft, s.reversed⟩
    | some c =>
      match escaped? c with
      | some d => ⟨.text (draft.push (some d)), s.reversed⟩
      | none => s.refuse
    | none => s.refuse
  | .code missing value draft =>
    match unit.bind hexDigit? with
    | none => s.refuse
    | some digit =>
      let value := value * 16 + digit
      if missing ≤ 1 then ⟨.text (draft.pushCode value), s.reversed⟩
      else ⟨.code (missing - 1) value draft, s.reversed⟩
  | .stopped => s

def Scan.finish (s : Scan) : List Token :=
  let reversed := match s.mode with
    | .between | .stopped => s.reversed
    | .number part reversed =>
      if part.ends none then .scalar (numberValue reversed.reverse) :: s.reversed
      else .refused :: s.reversed
    | .word .. | .text _ | .escape _ | .code .. => .refused :: s.reversed
  reversed.reverse

def tokens (units : List (Option Char)) : List Token :=
  (units.foldl Scan.step ⟨.between, []⟩).finish

end Json
end TreeFlow
