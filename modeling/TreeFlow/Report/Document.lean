import TreeFlow.Report.Basic
/-
Reports in documents.

Entries and outputs are written in the order of their names, branches in path order, and a status
only where it is not ok.  Counts are read as they stand.
-/

namespace TreeFlow

open Json (Decoded)

/-! ## Status -/

namespace Status

/-- The states in documents, and the field that goes with each. -/
inductive State where
  | ok
  | failed
  | skipped
deriving DecidableEq, Repr, Inhabited

def State.ofName? : String → Option State
  | "ok" => some .ok
  | "failed" => some .failed
  | "skipped" => some .skipped
  | _ => none

/-- The state of a value; unlike other words it has to stand as a plain text. -/
def stateOfJson (v : Json) : Decoded State := do
  let s ← Json.asText v
  (State.ofName? s).elim (.error .mismatch) .ok

/-- The members of a status: its state, and the others in order. -/
structure Draft where
  state : Option State
  others : List (String × Json)

/-- A value that is kept until the state is known; all of it has to be sound. -/
def kept (room : Nat) (v : Json) : Decoded Json :=
  if v.sound room then .ok v else .error .malformed

def Draft.member (room : Nat) (d : Draft) (member : Json × Json) : Decoded Draft :=
  match member with
  | (.text "state", v) => do return { d with state := ← Json.once d.state (stateOfJson v) }
  | (.text name, v) => do return { d with others := d.others ++ [(name, ← kept room v)] }
  | _ => .error .malformed

/-- The text under a name that stands there exactly once. -/
def onlyText (name : String) (others : List (String × Json)) : Decoded String :=
  match others.filter fun (n, _) => n == name with
  | [(_, v)] => Json.asText v
  | _ => .error .mismatch

def Draft.finish (d : Draft) : Decoded Status := do
  match ← Json.required d.state with
  | .ok => return .ok
  | .failed => return .failed (← onlyText "error" d.others)
  | .skipped => return .skipped (← onlyText "upstream" d.others)

/-- The status of a list: the state, and its field behind it. -/
def ofElements (state : State) (fields : List Json) : Decoded Status :=
  match state, fields with
  | .ok, [] => .ok .ok
  | .failed, [v] => do return .failed (← Json.asText v)
  | .skipped, [v] => do return .skipped (← Json.asText v)
  | _, _ => .error .mismatch

/-- A status at a place with `room` levels of nesting left. -/
def ofJson (room : Nat) : Json → Decoded Status
  | .object members => do
    (← members.foldlM (Draft.member (room - 1)) ⟨none, []⟩).finish
  | .list [] => .error .mismatch
  | .list (v :: rest) => do
    let state ← stateOfJson v
    ofElements state (← rest.mapM (kept (room - 1)))
  | v => .error v.blame

def toJson : Status → Json
  | .ok => .object [Json.member "state" (.text "ok")]
  | .failed error =>
    .object [Json.member "state" (.text "failed"), Json.member "error" (.text error)]
  | .skipped culprit =>
    .object [Json.member "state" (.text "skipped"), Json.member "upstream" (.text culprit)]

end Status

namespace Report

/-! ## Parts of entries -/

namespace Info

structure Draft where
  typeName : Option String
  nickname : Option String
  position : Option Position

def Draft.field (d : Draft) (name : String) (v : Json) : Decoded Draft :=
  match name with
  | "type" => do return { d with typeName := ← Json.once d.typeName (Json.asText v) }
  | "nickname" => do return { d with nickname := ← Json.once d.nickname (Json.asText v) }
  | "position" => do return { d with position := ← Json.once d.position (Position.ofJson v) }
  | _ => .ok d

def Draft.finish (d : Draft) : Decoded Info := do
  return ⟨← Json.required d.typeName, ← Json.required d.nickname, ← Json.required d.position⟩

def ofJson : Json → Decoded Info :=
  Json.asRecord ["type", "nickname", "position"] ⟨none, none, none⟩ Draft.field Draft.finish

def toJson (i : Info) : Json :=
  .object [Json.member "type" (.text i.typeName), Json.member "nickname" (.text i.nickname),
    Json.member "position" i.position.toJson]

end Info

namespace Output

/-- The levels of nesting that are left for the branches of an output, which stand inside of the
output, the outputs of an entry, the entry and the report. -/
def treeRoom : Nat := Json.maxNesting - 4

structure Draft where
  tree : Option Tree
  itemCount : Option Nat
  branchCount : Option Nat

def Draft.field (d : Draft) (name : String) (v : Json) : Decoded Draft :=
  match name with
  | "branches" => do return { d with tree := ← Json.once d.tree (Tree.ofJson treeRoom v) }
  | "item_count" => do return { d with itemCount := ← Json.once d.itemCount (Json.asCount v) }
  | "branch_count" => do
    return { d with branchCount := ← Json.once d.branchCount (Json.asCount v) }
  | _ => .ok d

def Draft.finish (d : Draft) : Decoded Output := do
  return ⟨← Json.required d.tree, ← Json.required d.itemCount, ← Json.required d.branchCount⟩

def ofJson : Json → Decoded Output :=
  Json.asRecord ["branches", "item_count", "branch_count"] ⟨none, none, none⟩ Draft.field
    Draft.finish

def toJson (o : Output) : Json :=
  .object [Json.member "branches" o.tree.toJson,
    Json.member "item_count" (.integer o.itemCount),
    Json.member "branch_count" (.integer o.branchCount)]

end Output

/-! ## Entries -/

namespace Entry

/-- The levels of nesting that are left for the status of an entry, which stands inside of the entry
and the report. -/
def statusRoom : Nat := Json.maxNesting - 2

structure Draft where
  info : Option Info
  outputs : Option (SortedMap String Output)
  status : Option Status

def outputsOfJson (v : Json) : Decoded (SortedMap String Output) := do
  return .ofList (← Json.asMembers Output.ofJson v)

def Draft.field (d : Draft) (name : String) (v : Json) : Decoded Draft :=
  match name with
  | "component_info" => do return { d with info := ← Json.once d.info (Info.ofJson v) }
  | "outputs" => do return { d with outputs := ← Json.once d.outputs (outputsOfJson v) }
  | "status" => do
    return { d with status := ← Json.once d.status (Status.ofJson statusRoom v) }
  | _ => .ok d

def Draft.finish (d : Draft) : Decoded Entry := do
  return ⟨← Json.required d.info, ← Json.required d.outputs, d.status.getD .ok⟩

def ofJson : Json → Decoded Entry :=
  Json.asRecord ["component_info", "outputs", "status"] ⟨none, none, none⟩ Draft.field
    Draft.finish

def toJson (e : Entry) : Json :=
  .object ([Json.member "component_info" e.info.toJson,
      Json.member "outputs" (.object (e.outputs.entries.map fun (name, o) =>
        Json.member name o.toJson))]
    ++ if e.status.isOk then [] else [Json.member "status" e.status.toJson])

end Entry

/-! ## Reports -/

/-- The report of a value; of two entries of one guid the later counts. -/
def ofJson (v : Json) : Decoded Report := do
  return ⟨.ofList (← Json.asMembers Entry.ofJson v)⟩

def toJson (r : Report) : Json :=
  .object (r.entries.entries.map fun (guid, e) => Json.member guid e.toJson)

def read (units : List (Option Char)) : Decoded Report := Json.decode ofJson units

end Report
end TreeFlow
