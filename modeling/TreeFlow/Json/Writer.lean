import TreeFlow.Binary64.Layout
import TreeFlow.Json.Basic
/-
JSON texts from values.

A text is compact, or set on lines of its own with two blanks for each level; empty lists and
objects stay on one line in both.  Control characters are escaped, all other characters stand for
themselves.
-/

namespace TreeFlow
namespace Json

/-- How a value is set: at a level of indentation, or on one line. -/
inductive Style where
  | compact
  | indented (level : Nat)
deriving DecidableEq, Repr

def Style.deeper : Style → Style
  | .compact => .compact
  | .indented level => .indented (level + 1)

/-- What stands between an opening bracket or a comma and the element after it. -/
def Style.lineBreak : Style → String
  | .compact => ""
  | .indented level => String.ofList ('\n' :: List.replicate (2 * level) ' ')

def Style.colon : Style → String
  | .compact => ":"
  | .indented _ => ": "

def hexDigit (n : Nat) : Char := Nat.digitChar (n % 16)

def quotedChar (c : Char) : List Char :=
  match c with
  | '\x22' => ['\\', '\x22']
  | '\\' => ['\\', '\\']
  | '\x08' => ['\\', 'b']
  | '\x0c' => ['\\', 'f']
  | '\n' => ['\\', 'n']
  | '\r' => ['\\', 'r']
  | '\t' => ['\\', 't']
  | _ =>
    if c.toNat < 0x20 then ['\\', 'u', '0', '0', hexDigit (c.toNat / 16), hexDigit c.toNat]
    else [c]

def quoted (s : String) : String :=
  String.ofList ('\x22' :: s.toList.flatMap quotedChar ++ ['\x22'])

def nameText : Json → String
  | .text s => quoted s
  | _ => quoted ""

mutual

/-- Appends the text of a value. -/
def write (style : Style) (before : String) : Json → String
  | .null | .illegible | .cut => before ++ "null"
  | .boolean value => before ++ if value then "true" else "false"
  | .integer value => before ++ toString value
  | .real value => before ++ Binary64.documentText value
  | .text value => before ++ quoted value
  | .list [] => before ++ "[]"
  | .list (v :: rest) =>
    writeElements style (write style.deeper (before ++ "[" ++ style.deeper.lineBreak) v) rest
  | .object [] => before ++ "\x7b\x7d"
  | .object ((name, v) :: rest) =>
    writeMembers style
      (write style.deeper
        (before ++ "\x7b" ++ style.deeper.lineBreak ++ nameText name ++ style.colon) v) rest

def writeElements (style : Style) (before : String) : List Json → String
  | [] => before ++ style.lineBreak ++ "]"
  | v :: rest =>
    writeElements style (write style.deeper (before ++ "," ++ style.deeper.lineBreak) v) rest

def writeMembers (style : Style) (before : String) : List (Json × Json) → String
  | [] => before ++ style.lineBreak ++ "\x7d"
  | (name, v) :: rest =>
    writeMembers style
      (write style.deeper
        (before ++ "," ++ style.deeper.lineBreak ++ nameText name ++ style.colon) v) rest

end

def compact (v : Json) : String := write .compact "" v

def pretty (v : Json) : String := write (.indented 0) "" v

end Json
end TreeFlow
