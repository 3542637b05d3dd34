import TreeFlow.Graph.Load
import TreeFlow.Json.Writer
import TreeFlow.Report.Document
import TreeFlow.Text.Utf8
/-
Files: documents that are read, and reports that are written.

Whatever holds the files, a run sees them through two operations, so the same run works on a disk
and on a directory that is a value.  A graph has to be a text throughout; other documents are
octets, and where those are no text they are no JSON either.
-/

namespace TreeFlow

structure FileAccess (m : Type → Type) where
  /-- The octets of the file at a location, if it can be read. -/
  read : String → m (Option (List UInt8))
  /-- Puts a text into the file at a location, and makes the directories above it.  Gives whether
  that worked. -/
  write : String → String → m Bool

/-! ## Documents in octets -/

def Graph.ofOctets (octets : List UInt8) : Except Failure Graph :=
  match Text.ofOctets? octets with
  | some s => Graph.read (Text.unitsOf s)
  | none => .error .file

def Bindings.ofOctets (octets : List UInt8) : Except Failure Bindings := do
  let d ← (InputsDocument.read (Text.units octets)).mapError .json
  (Bindings.ofDocument d).mapError .path

def Report.ofOctets (octets : List UInt8) : Except Failure Report :=
  (Report.read (Text.units octets)).mapError .json

/-! ## Loading and saving -/

namespace FileAccess

variable {m : Type → Type} [Monad m]

/-- Reads a file with a reader of octets. -/
def load {α : Type} (files : FileAccess m) (reader : List UInt8 → Except Failure α)
    (location : String) : ExceptT Failure m α :=
  .mk do
    match ← files.read location with
    | some octets => return reader octets
    | none => return .error .file

/-- Writes a report on lines of its own. -/
def save (files : FileAccess m) (location : String) (r : Report) : ExceptT Failure m Unit :=
  .mk do
    return if ← files.write location r.toJson.pretty then .ok () else .error .file

end FileAccess

/-! ## Jobs -/

structure Job where
  graph : String
  /-- The document of bindings; without it, nothing is bound. -/
  inputs : Option String
  /-- Where the report goes; without it, nothing is written. -/
  output : Option String
  limit : Nat
deriving DecidableEq, Repr, Inhabited

namespace Job

variable {m : Type → Type} [Monad m]

/-- The report of a job; a file is only read if everything before it went well. -/
def report (j : Job) (files : FileAccess m) : ExceptT Failure m Report := do
  let g ← files.load Graph.ofOctets j.graph
  let b ← match j.inputs with
    | some location => files.load Bindings.ofOctets location
    | none => pure .empty
  .mk (pure (g.run b j.limit Pool.inTurn))

def run (j : Job) (files : FileAccess m) : ExceptT Failure m Report := do
  let r ← j.report files
  if let some location := j.output then
    files.save location r
  return r

end Job
end TreeFlow
