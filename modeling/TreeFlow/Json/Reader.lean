import TreeFlow.Json.Token
/-
JSON values from tokens.

The reader keeps the lists and objects that are open, innermost first, and what may stand next.
A token that may not stand there ends the reading: the open lists and objects are closed around a
`cut`, so that everything before the fault can still be looked at in its order.
-/

namespace TreeFlow
namespace Json

/-- A list or object that is open, with its contents so far, last first.  An object whose member
has its name but not its value holds that name. -/
inductive Frame where
  | list (reversed : List Json)
  | object (reversed : List (Json × Json)) (name : Option Json)

inductive Want where
  | value
  | valueOrClose
  | name
  | nameOrClose
  | colon
  | commaOrClose
deriving DecidableEq, Repr

/-- Where the reader stands: inside of the value, or behind it. -/
inductive Progress where
  | inside (frames : List Frame) (want : Want)
  | behind (value : Json) (trailing : Bool)

/-- A value that has been read, and whether anything but blanks follows it. -/
structure Document where
  value : Json
  trailing : Bool
deriving Inhabited

/-- A complete value inside of the given frames. -/
def supply (v : Json) : List Frame → Progress
  | [] => .behind v false
  | .list reversed :: frames => .inside (.list (v :: reversed) :: frames) .commaOrClose
  | .object reversed (some name) :: frames =>
    .inside (.object ((name, v) :: reversed) none :: frames) .commaOrClose
  | .object reversed none :: frames =>
    .inside (.object reversed (some v) :: frames) .colon

/-- Closes all frames around a value, each member without a value being cut. -/
def close (v : Json) : List Frame → Json
  | [] => v
  | .list reversed :: frames => close (.list (v :: reversed).reverse) frames
  | .object reversed (some name) :: frames => close (.object ((name, v) :: reversed).reverse) frames
  | .object reversed none :: frames => close (.object ((v, .cut) :: reversed).reverse) frames

/-- What a token is the start of, where it may not stand. -/
def Token.glimpse : Token → Json
  | .name value | .scalar value => value
  | .openList => .list [.cut]
  | .openObject => .object [(.cut, .cut)]
  | .closeList | .closeObject | .comma | .colon | .refused => .cut

def beginValue (frames : List Frame) : Token → Progress
  | .name value | .scalar value => supply value frames
  | .openList => .inside (.list [] :: frames) .valueOrClose
  | .openObject => .inside (.object [] none :: frames) .nameOrClose
  | .closeList | .closeObject | .comma | .colon | .refused => .behind (close .cut frames) false

def beginName (frames : List Frame) : Token → Progress
  | .name value => supply value frames
  | token => .behind (close token.glimpse frames) false

def Progress.step : Progress → Token → Progress
  | .behind v _, _ => .behind v true
  | .inside frames want, token =>
    match want, token, frames with
    | .valueOrClose, .closeList, .list reversed :: outer => supply (.list reversed.reverse) outer
    | .value, token, _ | .valueOrClose, token, _ => beginValue frames token
    | .nameOrClose, .closeObject, .object reversed _ :: outer =>
      supply (.object reversed.reverse) outer
    | .name, token, _ | .nameOrClose, token, _ => beginName frames token
    | .colon, .colon, _ => .inside frames .value
    | .commaOrClose, .comma, .list _ :: _ => .inside frames .value
    | .commaOrClose, .comma, .object .. :: _ => .inside frames .name
    | .commaOrClose, .closeList, .list reversed :: outer => supply (.list reversed.reverse) outer
    | .commaOrClose, .closeObject, .object reversed _ :: outer =>
      supply (.object reversed.reverse) outer
    | _, _, _ => .behind (close .cut frames) false

def Progress.document : Progress → Document
  | .behind v trailing => ⟨v, trailing⟩
  | .inside frames _ => ⟨close .cut frames, false⟩

def read (units : List (Option Char)) : Document :=
  ((tokens units).foldl Progress.step (.inside [] .value)).document

end Json
end TreeFlow
