import TreeFlow.Text.Blank
import TreeFlow.Text.Case
import TreeFlow.Binary64.Layout
import TreeFlow.Binary64.Numeral
import TreeFlow.Binary64.Whole
/-
Items: the values in branches.

An item can be looked at as a number, an integer, a truth value or a coordinate triple; each view
either gives a value or refuses.  Texts are read by the same numerals that documents use.
-/

namespace TreeFlow

structure Coordinates where
  x : Float
  y : Float
  z : Float
deriving DecidableEq, Inhabited

namespace Coordinates

def sub (a b : Coordinates) : Coordinates := ⟨a.x - b.x, a.y - b.y, a.z - b.z⟩

def scale (a : Coordinates) (factor : Float) : Coordinates :=
  ⟨a.x * factor, a.y * factor, a.z * factor⟩

def length (a : Coordinates) : Float := (a.x * a.x + a.y * a.y + a.z * a.z).sqrt

def text (a : Coordinates) : String :=
  Binary64.plainText a.x ++ ", " ++ Binary64.plainText a.y ++ ", " ++ Binary64.plainText a.z

end Coordinates

inductive Item where
  | null
  | boolean (value : Bool)
  | integer (value : Int64)
  | number (value : Float)
  | text (value : String)
  | point (place : Coordinates)
  | vector (direction : Coordinates)
deriving DecidableEq, Inhabited

namespace Item

def isNull : Item → Bool
  | .null => true
  | _ => false

def formName : Item → String
  | .null => "null"
  | .boolean _ => "boolean"
  | .integer _ => "integer"
  | .number _ => "number"
  | .text _ => "text"
  | .point _ => "point"
  | .vector _ => "vector"

def display : Item → String
  | .null => "<null>"
  | .boolean value => if value then "true" else "false"
  | .integer value => toString value.toInt
  | .number value => Binary64.plainText value
  | .text value => value
  | .point p => "\x7b" ++ p.text ++ "\x7d"
  | .vector v => "<" ++ v.text ++ ">"

/-- The number of a text; blanks around it do not count. -/
def numberOfText? (s : String) : Option Float :=
  Binary64.numeral? (Text.trimmed s.toList)

/-- A number rounded to the nearest word; infinities and NaN give none. -/
def integerOfFloat? (x : Float) : Option Int64 :=
  if x.isFinite then some (Binary64.toInt64 .nearest x) else none

def number? : Item → Option Float
  | .number value => some value
  | .integer value => some (Binary64.ofInt64 value)
  | .boolean value => some (if value then 1 else 0)
  | .text value => numberOfText? value
  | .null | .point _ | .vector _ => none

/-- The integer view.  A text that is no integer numeral is read as a number and rounded. -/
def integer? : Item → Option Int64
  | .integer value => some value
  | .number value => integerOfFloat? value
  | .boolean value => some (if value then 1 else 0)
  | .text value =>
    let cs := Text.trimmed value.toList
    (Text.int64? cs).or ((Binary64.numeral? cs).bind integerOfFloat?)
  | .null | .point _ | .vector _ => none

def boolean? : Item → Option Bool
  | .boolean value => some value
  | .integer value => some (value != 0)
  | .number value => some (value != 0)
  | .text value =>
    let word := Text.lowered (Text.trim value)
    if word = "true" || word = "yes" || word = "1" then some true
    else if word = "false" || word = "no" || word = "0" then some false
    else none
  | .null | .point _ | .vector _ => none

def coordinates? : Item → Option Coordinates
  | .point a | .vector a => some a
  | _ => none

end Item
end TreeFlow
