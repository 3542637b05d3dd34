import TreeFlow.Component.Maths
/-
Lists and sequences.
-/

namespace TreeFlow
namespace Component

inductive Lists where
  | series
  | listItem
  | listLength
  | reverseList
  | shortestList
  | longestList
  | crossReference
deriving DecidableEq, Repr, Inhabited

namespace Lists

def all : List Lists :=
  [.series, .listItem, .listLength, .reverseList, .shortestList, .longestList, .crossReference]

/-- The names of a kind, the first of which it is called by. -/
def names : Lists → List String
  | .series => ["Series"]
  | .listItem => ["List Item", "Item"]
  | .listLength => ["List Length", "Lng"]
  | .reverseList => ["Reverse List", "Rev"]
  | .shortestList => ["Shortest List", "Short"]
  | .longestList => ["Longest List", "Long"]
  | .crossReference => ["Cross Reference", "CrossRef"]

def name (l : Lists) : String := l.names.headD ""

def maxSeriesCount : Nat := 1000000

def pairInputs (make : String → List String → Input) : List Input :=
  [make "A" ["List A"], make "B" ["List B"]]

def pairOutputs : List Output := [⟨"A", ["List A"]⟩, ⟨"B", ["List B"]⟩]

/-- The inputs of a cross reference are optional, so that one without branches comes to matching
and fails there. -/
def signature : Lists → Signature
  | .series =>
    ⟨[(Input.item "Start" ["S"]).withDefault (.integer 0),
      (Input.item "Step" ["N"]).withDefault (.integer 1),
      (Input.item "Count" ["C"]).withDefault (.integer 10)], [⟨"Series", ["S"]⟩], .longest⟩
  | .listItem =>
    ⟨[Input.list "List" ["L"], (Input.item "Index" ["i"]).withDefault (.integer 0),
      (Input.item "Wrap" ["W"]).withDefault (.boolean false)],
      [⟨"Item", ["i", "E", "Element"]⟩], .longest⟩
  | .listLength => ⟨[Input.list "List" ["L"]], [⟨"Length", ["L"]⟩], .longest⟩
  | .reverseList => ⟨[Input.list "List" ["L"]], [⟨"List", ["L"]⟩], .longest⟩
  | .shortestList => ⟨pairInputs Input.list, pairOutputs, .shortest⟩
  | .longestList => ⟨pairInputs Input.list, pairOutputs, .longest⟩
  | .crossReference =>
    ⟨pairInputs fun name aliases => (Input.item name aliases).asOptional, pairOutputs, .cross⟩

/-! ## Series -/

/-- Member `i` of a series of integers; a number if the offset or the sum fits no word. -/
def integerMember (start step : Int64) (i : Nat) : Item :=
  let exact := (word? (step.toInt * i)).bind fun offset => word? (start.toInt + offset.toInt)
  exact.elim (.number (Binary64.ofInt64 start + Binary64.ofInt64 step * Float.ofNat i)) .integer

def numberMember (start step : Float) (i : Nat) : Item := .number (start + step * Float.ofNat i)

def enumerate (args : List Value) : CallResult := do
  let count ← integerAt args 2 "Count"
  if count < 0 then .error (.negativeCount count)
  else if maxSeriesCount < count.toInt.toNat then .error (.countAboveLimit count maxSeriesCount)
  else
    let indices := List.range count.toInt.toNat
    match argument args 0, argument args 1 with
    | .item (.integer start), .item (.integer step) =>
      return [.list (indices.map (integerMember start step))]
    | _, _ => do
      let start ← numberAt args 0 "Start"
      let step ← numberAt args 1 "Step"
      return [.list (indices.map (numberMember start step))]

/-! ## Picking and aligning -/

/-- The item at an index, which counts around the list if `wrap` is set. -/
def pick (args : List Value) : CallResult := do
  let items ← listAt args 0 "List"
  let index ← integerAt args 1 "Index"
  let wrap ← booleanAt args 2 "Wrap"
  if items.isEmpty then return [.item .null]
  else
    let position := if wrap then index.toInt.emod items.length else index.toInt
    match if 0 ≤ position then items[position.toNat]? else none with
    | some item => return [.item item]
    | none => .error (.indexOutOfRange index items.length)

/-- The list with its last item repeated up to `n` items; an empty list stays empty. -/
def holdLast (items : List Item) (n : Nat) : List Item :=
  match items.getLast? with
  | none => []
  | some last => items ++ List.replicate (n - items.length) last

def call (l : Lists) (args : List Value) : CallResult :=
  match l with
  | .series => enumerate args
  | .listItem => pick args
  | .listLength => do
    let items ← listAt args 0 "List"
    return [.item (.integer (Int64.ofNat items.length))]
  | .reverseList => do return [.list (← listAt args 0 "List").reverse]
  | .shortestList => do
    let a ← listAt args 0 "A"
    let b ← listAt args 1 "B"
    let n := min a.length b.length
    return [.list (a.take n), .list (b.take n)]
  | .longestList => do
    let a ← listAt args 0 "A"
    let b ← listAt args 1 "B"
    let n := max a.length b.length
    return [.list (holdLast a n), .list (holdLast b n)]
  | .crossReference => .ok [argument args 0, argument args 1]

end Lists
end Component
end TreeFlow
