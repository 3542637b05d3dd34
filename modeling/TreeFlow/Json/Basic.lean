/-
JSON values as they stand in a text.

A value keeps the members of an object in the order of the text, repeated names included, because
which of two faults is reported depends on that order.  Two further forms say that a text is not
JSON throughout: `illegible` is a scalar of correct shape that cannot be held (a number beyond
binary64, a text with half a surrogate pair), which only matters to a reader that looks at it, and
`cut` stands where the text stops being JSON.  Nothing that the library writes holds either.
-/

namespace TreeFlow

inductive Json where
  | null
  | boolean (value : Bool)
  /-- A number written without point and exponent that fits a signed or an unsigned word. -/
  | integer (value : Int)
  /-- Any other number; finite. -/
  | real (value : Float)
  | text (value : String)
  | list (elements : List Json)
  /-- Names with their values; a name is a text, or an illegible one.  Where anything else stands
  as a name, the text stops being JSON there. -/
  | object (members : List (Json × Json))
  | illegible
  | cut
deriving Inhabited

namespace Json

def member (name : String) (value : Json) : Json × Json := (.text name, value)

/-- A number that is written; a number that is not finite is written as `null`. -/
def ofFloat (x : Float) : Json :=
  if x.isFinite then .real x else .null

/-- The integers that are told apart from other numbers: those of a signed or an unsigned word. -/
def isWord (n : Int) : Bool := Int64.minValue.toInt ≤ n && n < UInt64.size

mutual

/-- Whether a value holds no cut; nothing else matters in a value that is skipped. -/
def uncut : Json → Bool
  | .cut => false
  | .list elements => uncutElements elements
  | .object members => uncutMembers members
  | _ => true

def uncutElements : List Json → Bool
  | [] => true
  | v :: rest => uncut v && uncutElements rest

def uncutMembers : List (Json × Json) → Bool
  | [] => true
  | (_, v) :: rest => uncut v && uncutMembers rest

end

mutual

/-- Whether all of a value can be held: no cut, nothing illegible, and lists and objects inside
one another at most `room` deep. -/
def sound (room : Nat) : Json → Bool
  | .cut => false
  | .illegible => false
  | .list elements => room != 0 && soundElements (room - 1) elements
  | .object members => room != 0 && soundMembers (room - 1) members
  | _ => true

def soundElements (room : Nat) : List Json → Bool
  | [] => true
  | v :: rest => sound room v && soundElements room rest

def soundMembers (room : Nat) : List (Json × Json) → Bool
  | [] => true
  | (.text _, v) :: rest => sound room v && soundMembers room rest
  | _ :: _ => false

end

/-- How deep lists and objects may nest in a text. -/
def maxNesting : Nat := 127

end Json
end TreeFlow
