import TreeFlow.Text.Blank
/-
Tokens of expressions.

A number is a longest run of digits and points, a name a longest run of ASCII letters and digits
that starts with a letter, and any other character but a blank stands for itself.  Scanning never
fails: whether a number can be read, and whether a symbol means anything, is for the parser to say.
Tokens know their positions, which count characters from zero.
-/

namespace TreeFlow
namespace Expression

inductive Lexeme where
  | number (text : List Char)
  | name (letters : List Char)
  | symbol (c : Char)
deriving DecidableEq, Repr, Inhabited

structure Token where
  position : Nat
  lexeme : Lexeme
deriving DecidableEq, Repr, Inhabited

def Lexeme.first : Lexeme → Char
  | .number text => text.headD ' '
  | .name letters => letters.headD ' '
  | .symbol c => c

/-- The run that a character continues, if any: its start, and its characters, last first. -/
inductive Run where
  | none
  | number (start : Nat) (reversed : List Char)
  | name (start : Nat) (reversed : List Char)
deriving DecidableEq, Repr, Inhabited

def Run.token? : Run → List Token
  | .none => []
  | .number start reversed => [⟨start, .number reversed.reverse⟩]
  | .name start reversed => [⟨start, .name reversed.reverse⟩]

def isNumberChar (c : Char) : Bool := c.isDigit || c = '.'

/-- The run with one more character, if the character continues it. -/
def Run.continue? : Run → Char → Option Run
  | .none, _ => Option.none
  | .number start reversed, c =>
    if isNumberChar c then some (.number start (c :: reversed)) else Option.none
  | .name start reversed, c =>
    if c.isAlphanum then some (.name start (c :: reversed)) else Option.none

/-- The run that starts with a character, if one does. -/
def Run.start? (position : Nat) (c : Char) : Option Run :=
  if isNumberChar c then some (.number position [c])
  else if c.isAlpha then some (.name position [c])
  else Option.none

/-- The tokens of a text from a position on, inside of a run. -/
def tokensFrom (position : Nat) (run : Run) : List Char → List Token
  | [] => run.token?
  | c :: rest =>
    match run.continue? c with
    | some longer => tokensFrom (position + 1) longer rest
    | none =>
      run.token? ++
        match Run.start? position c with
        | some fresh => tokensFrom (position + 1) fresh rest
        | none =>
          if Text.isBlank c then tokensFrom (position + 1) .none rest
          else ⟨position, .symbol c⟩ :: tokensFrom (position + 1) .none rest

def tokens (cs : List Char) : List Token := tokensFrom 0 .none cs

end Expression
end TreeFlow
