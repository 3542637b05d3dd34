/-
Characters from octets.

Octets are read as UTF-8.  An octet that starts no character becomes a unit without a character,
and reading goes on at the octet after it; so the places where a text is not UTF-8 stay visible,
and a reader that skips them can.
-/

namespace TreeFlow
namespace Text

/-- The number of octets that follow a first octet, and the bits that it contributes. -/
def leadOctet? (n : Nat) : Option (Nat × Nat) :=
  if n < 0x80 then some (0, n)
  else if n < 0xC2 then none
  else if n < 0xE0 then some (1, n % 0x20)
  else if n < 0xF0 then some (2, n % 0x10)
  else if n < 0xF5 then some (3, n % 0x08)
  else none

/-- The bits of the first `count` octets of a list, if all of them are continuation octets. -/
def continuation? : Nat → Nat → List UInt8 → Option Nat
  | 0, bits, _ => some bits
  | count + 1, bits, b :: rest =>
    if b.toNat / 0x40 = 2 then continuation? count (bits * 0x40 + b.toNat % 0x40) rest else none
  | _ + 1, _, [] => none

/-- The character at the start of a list of octets, and how many octets follow its first one.  A
character whose bits fit into fewer octets is refused, and so is a surrogate. -/
def character? (first : UInt8) (rest : List UInt8) : Option (Char × Nat) := do
  let (count, bits) ← leadOctet? first.toNat
  let code ← continuation? count bits rest
  let least := match count with
    | 0 => 0
    | 1 => 0x80
    | 2 => 0x800
    | _ => 0x10000
  if least ≤ code && code.isValidChar then some (Char.ofNat code, count) else none

/-- The units of a list of octets of which the first `skip` belong to the character before. -/
def unitsFrom : Nat → List UInt8 → List (Option Char)
  | _, [] => []
  | skip + 1, _ :: rest => unitsFrom skip rest
  | 0, first :: rest =>
    match character? first rest with
    | some (c, count) => some c :: unitsFrom count rest
    | none => none :: unitsFrom 0 rest

/-- The characters of a list of octets, with `none` where there is none. -/
def units (octets : List UInt8) : List (Option Char) := unitsFrom 0 octets

def ofOctets? (octets : List UInt8) : Option String :=
  ((units octets).mapM id).map String.ofList

def unitsOf (s : String) : List (Option Char) := s.toList.map some

def octetsOf (s : String) : List UInt8 := s.toList.flatMap String.utf8EncodeChar

end Text
end TreeFlow
