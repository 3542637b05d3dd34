import TreeFlow.Text.Printable
/-
Texts between quotes, for a reader at a terminal.

Quotes and backslashes get a backslash; line breaks and tabs are named; a character that cannot be
shown is given by its number.
-/

namespace TreeFlow
namespace Text

def escapedChar (c : Char) : List Char :=
  match c with
  | '\x00' => ['\\', '0']
  | '\t' => ['\\', 't']
  | '\n' => ['\\', 'n']
  | '\r' => ['\\', 'r']
  | '\x22' => ['\\', '\x22']
  | '\\' => ['\\', '\\']
  | _ =>
    if isPrintable c then [c]
    else '\\' :: 'u' :: '\x7b' :: Nat.toDigits 16 c.toNat ++ ['\x7d']

def escaped (s : String) : String :=
  String.ofList ('\x22' :: s.toList.flatMap escapedChar ++ ['\x22'])

end Text
end TreeFlow
