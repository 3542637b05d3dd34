import TreeFlow.Binary64.Numeral
import TreeFlow.Expression.Formula
import TreeFlow.Expression.Token
/-
Formulas from tokens.

  sum     = term (('+' | '-') term)*
  term    = unary (('*' | '/' | '%') unary)*
  unary   = '-' unary | '+' unary | primary ('^' unary)?
  primary = number | 'x' | 'pi' | function '(' sum ')' | '(' sum ')'

Both chains associate to the left.  Every parenthesis, call, sign, exponent and chained operator
uses up one of a fixed number of levels, for what it encloses or what follows it in its chain; this
bounds the parser's recursion, and makes it structural.
-/

namespace TreeFlow
namespace Expression

inductive Fault where
  | unexpected (c : Char) (position : Nat)
  | endOfText
  | expected (c : Char) (position : Nat)
  | unknownName (name : String)
  | invalidNumber (text : String)
  | tooDeep (position : Nat)
deriving DecidableEq, Repr, Inhabited

/-- How deep the parts of an expression may nest. -/
def maxLevels : Nat := 256

def Fault.message : Fault → String
  | .unexpected c position => s!"unexpected '{c}' at position {position}"
  | .endOfText => "unexpected end of expression"
  | .expected c position => s!"expected '{c}' at position {position}"
  | .unknownName name => s!"unknown name '{name}'"
  | .invalidNumber text => s!"invalid number '{text}'"
  | .tooDeep position =>
    s!"expression nests deeper than {maxLevels} levels at position {position}"

/-- A formula and the tokens behind it. -/
abbrev Parsed := Except Fault (Formula × List Token)

/-- The position of the next token; `stop` is the length of the text. -/
def nextPosition (stop : Nat) : List Token → Nat
  | [] => stop
  | t :: _ => t.position

/-- Takes the symbol `c`; gives its position and the tokens behind it. -/
def expect (stop : Nat) (c : Char) : List Token → Except Fault (Nat × List Token)
  | ⟨position, .symbol d⟩ :: rest =>
    if c = d then .ok (position, rest) else .error (.expected c position)
  | ts => .error (.expected c (nextPosition stop ts))

def additive? : Lexeme → Option Operator
  | .symbol '+' => some .add
  | .symbol '-' => some .sub
  | _ => none

def multiplicative? : Lexeme → Option Operator
  | .symbol '*' => some .mul
  | .symbol '/' => some .div
  | .symbol '%' => some .rem
  | _ => none

/-- A primary.  `group` reads a sum one level down, at the given position. -/
def primary (stop : Nat) (group : Nat → List Token → Parsed) : List Token → Parsed
  | [] => .error .endOfText
  | ⟨position, lexeme⟩ :: rest =>
    match lexeme with
    | .number text =>
      match Binary64.numeral? text with
      | some value => .ok (.number value, rest)
      | none => .error (.invalidNumber (String.ofList text))
    | .name letters =>
      let name := String.ofList (letters.map Char.toLower)
      if name = "x" then .ok (.variable, rest)
      else if name = "pi" then .ok (.number Binary64.pi, rest)
      else
        match Function.ofName? name with
        | none => .error (.unknownName name)
        | some function => do
          let (opening, rest) ← expect stop '(' rest
          let (argument, rest) ← group (opening + 1) rest
          let (_, rest) ← expect stop ')' rest
          return (.call function argument, rest)
    | .symbol c =>
      if c = '(' then do
        let (inner, rest) ← group (position + 1) rest
        let (_, rest) ← expect stop ')' rest
        return (inner, rest)
      else .error (.unexpected c position)

mutual

/-- A signed operand, with its exponent. -/
def unary (stop levels : Nat) (ts : List Token) : Parsed :=
  match ts with
  | ⟨position, .symbol '-'⟩ :: rest =>
    match levels with
    | 0 => .error (.tooDeep (position + 1))
    | levels + 1 => do
      let (operand, rest) ← unary stop levels rest
      return (.negate operand, rest)
  | ⟨position, .symbol '+'⟩ :: rest =>
    match levels with
    | 0 => .error (.tooDeep (position + 1))
    | levels + 1 => unary stop levels rest
  | ts => do
    let group (position : Nat) (ts : List Token) : Parsed :=
      match levels with
      | 0 => .error (.tooDeep position)
      | levels + 1 => do
        let (first, rest) ← unary stop levels ts
        let (term, rest) ← termTail stop levels first rest
        sumTail stop levels term rest
    let (base, rest) ← primary stop group ts
    match rest with
    | ⟨position, .symbol '^'⟩ :: rest =>
      match levels with
      | 0 => .error (.tooDeep (position + 1))
      | levels + 1 => do
        let (exponent, rest) ← unary stop levels rest
        return (.binary .pow base exponent, rest)
    | rest => return (base, rest)

/-- The rest of a term behind its left part. -/
def termTail (stop levels : Nat) (left : Formula) (ts : List Token) : Parsed :=
  match ts with
  | [] => .ok (left, [])
  | t :: rest =>
    match multiplicative? t.lexeme with
    | none => .ok (left, t :: rest)
    | some op =>
      match levels with
      | 0 => .error (.tooDeep t.position)
      | levels + 1 => do
        let (right, rest) ← unary stop levels rest
        termTail stop levels (.binary op left right) rest

/-- The rest of a sum behind its left part. -/
def sumTail (stop levels : Nat) (left : Formula) (ts : List Token) : Parsed :=
  match ts with
  | [] => .ok (left, [])
  | t :: rest =>
    match additive? t.lexeme with
    | none => .ok (left, t :: rest)
    | some op =>
      match levels with
      | 0 => .error (.tooDeep t.position)
      | levels + 1 => do
        let (first, rest) ← unary stop levels rest
        let (right, rest) ← termTail stop levels first rest
        sumTail stop levels (.binary op left right) rest

end

def term (stop levels : Nat) (ts : List Token) : Parsed := do
  let (first, rest) ← unary stop levels ts
  termTail stop levels first rest

def sum (stop levels : Nat) (ts : List Token) : Parsed := do
  let (first, rest) ← term stop levels ts
  sumTail stop levels first rest

def parseFormula (cs : List Char) : Except Fault Formula := do
  let (result, rest) ← sum cs.length maxLevels (tokens cs)
  match rest with
  | [] => return result
  | t :: _ => .error (.unexpected t.lexeme.first t.position)

end Expression
end TreeFlow
