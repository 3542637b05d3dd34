import TreeFlow.Files
import TreeFlow.Text.Escaped
/-
The command line.

A command line names a graph file and up to three settings; two variables of the environment
override settings.  Arguments are taken one after the other, and the first that is wrong, or a call
for help, decides.  How an invocation ends is a value, from which its texts and its exit code
follow.
-/

namespace TreeFlow
namespace CommandLine

inductive Setting where
  | inputs
  | output
  | maxParallel
deriving DecidableEq, Repr, Inhabited

def Setting.name : Setting → String
  | .inputs => "inputs"
  | .output => "output"
  | .maxParallel => "max-parallel"

def Setting.all : List Setting := [.inputs, .output, .maxParallel]

def Setting.ofName? (name : List Char) : Option Setting :=
  Setting.all.find? fun s => s.name.toList == name

inductive UsageFault where
  | unknownArgument (argument : String)
  /-- `--help` takes no value. -/
  | surplusValue
  | missingValue (setting : Setting)
  | repeated (setting : Setting)
  | notACount (value : String)
  | emptyGraph
  | missingGraph
deriving DecidableEq, Repr, Inhabited

def UsageFault.message : UsageFault → String
  | .unknownArgument argument => "unexpected argument '" ++ argument ++ "'"
  | .surplusValue => "'--help' takes no value"
  | .missingValue setting => "'--" ++ setting.name ++ "' needs a value"
  | .repeated setting => "'--" ++ setting.name ++ "' is given twice"
  | .notACount value => "'" ++ value ++ "' is no number of components"
  | .emptyGraph => "the path of the graph is empty"
  | .missingGraph => "no graph is given"

structure Draft where
  inputs : Option String
  output : Option String
  maxParallel : Option Nat
  graph : Option String

def Draft.start : Draft := ⟨none, none, none, none⟩

structure Invocation where
  graph : String
  inputs : Option String
  output : Option String
  maxParallel : Option Nat
deriving DecidableEq, Repr, Inhabited

inductive Request where
  | help
  | run (invocation : Invocation)
deriving DecidableEq, Repr, Inhabited

/-! ## Reading arguments -/

/-- The value of a setting; an empty text is none, and no setting is given twice. -/
def valueOnce {α : Type} (setting : Setting) (present : Option α) (value : String) :
    Except UsageFault String :=
  if present.isSome then .error (.repeated setting)
  else if value.isEmpty then .error (.missingValue setting)
  else .ok value

def Draft.give (d : Draft) (setting : Setting) (value : String) : Except UsageFault Draft :=
  match setting with
  | .inputs => do return { d with inputs := some (← valueOnce setting d.inputs value) }
  | .output => do return { d with output := some (← valueOnce setting d.output value) }
  | .maxParallel => do
    let value ← valueOnce setting d.maxParallel value
    match Text.naturalBelow? UInt64.size value.toList with
    | some n => return { d with maxParallel := some n }
    | none => throw (.notACount value)

def Draft.giveGraph (d : Draft) (path : String) : Except UsageFault Draft :=
  if d.graph.isSome then .error (.unknownArgument path)
  else if path.isEmpty then .error .emptyGraph
  else .ok { d with graph := some path }

def Draft.finish (d : Draft) : Except UsageFault Request :=
  match d.graph with
  | some graph => .ok (.run ⟨graph, d.inputs, d.output, d.maxParallel⟩)
  | none => .error .missingGraph

inductive Argument where
  /-- `--`: everything after it is a path. -/
  | separator
  /-- `--name` or `--name=value`. -/
  | long (name : List Char) (value : Option String)
  /-- `-letters`. -/
  | short (letters : List Char)
  /-- Anything else, a lone `-` included. -/
  | plain (path : String)
deriving DecidableEq, Repr, Inhabited

def Argument.ofText (s : String) : Argument :=
  match s.toList with
  | ['-', '-'] => .separator
  | '-' :: '-' :: cs =>
    match cs.dropWhile (· != '=') with
    | [] => .long cs none
    | _ :: value => .long (cs.takeWhile (· != '=')) (some (String.ofList value))
  | '-' :: c :: cs => .short (c :: cs)
  | _ => .plain s

/-- Reads arguments.  `pending` is a setting whose value is the next argument. -/
def readFrom (d : Draft) (pending : Option Setting) : List String → Except UsageFault Request
  | [] =>
    match pending with
    | some setting => .error (.missingValue setting)
    | none => d.finish
  | s :: rest =>
    match pending, Argument.ofText s with
    | some setting, .plain value => do readFrom (← d.give setting value) none rest
    | some setting, _ => .error (.missingValue setting)
    | none, .separator => do (← rest.foldlM Draft.giveGraph d).finish
    | none, .plain path => do readFrom (← d.giveGraph path) none rest
    | none, .short letters =>
      if letters.head? = some 'h' then .ok .help else .error (.unknownArgument s)
    | none, .long name value =>
      if name = "help".toList then
        if value.isSome then .error .surplusValue else .ok .help
      else
        match Setting.ofName? name, value with
        | none, _ => .error (.unknownArgument s)
        | some setting, some value => do readFrom (← d.give setting value) none rest
        | some setting, none => readFrom d (some setting) rest

def read (arguments : List String) : Except UsageFault Request := readFrom .start none arguments

/-! ## Running -/

/-- What a program finds around it: its two variables, and what the machine tells about how much
can run at once. -/
structure Environment where
  output : Option String
  maxParallel : Option String
  parallelism : Option Nat
deriving DecidableEq, Repr, Inhabited

def outputVariable : String := "BRANCHWEAVE_OUTPUT"
def maxParallelVariable : String := "BRANCHWEAVE_MAX_PARALLEL"

/-- Where a report goes that nobody has a place for. -/
def defaultOutput : String := "evaluation_results.json"

/-- How many components run at once if nobody says and the machine does not tell. -/
def defaultLimit : Nat := 4

/-- How many components run at once if nobody says. -/
def Environment.limit (e : Environment) : Nat := e.parallelism.getD defaultLimit

namespace Invocation

def outputIn (i : Invocation) (e : Environment) : String :=
  e.output.getD (i.output.getD defaultOutput)

def limitIn (i : Invocation) (e : Environment) : Nat :=
  Limit.adjust ((i.maxParallel.map Limit.clamp).getD e.limit) e.maxParallel

def job (i : Invocation) (e : Environment) : Job :=
  ⟨i.graph, i.inputs, some (i.outputIn e), i.limitIn e⟩

end Invocation

inductive Ending where
  | help
  | misuse (fault : UsageFault)
  | failed (failure : Failure)
  /-- With its report, and where that was written. -/
  | completed (report : Report) (output : String)
deriving DecidableEq, Inhabited

def run {m : Type → Type} [Monad m] (files : FileAccess m) (e : Environment)
    (arguments : List String) : m Ending :=
  match read arguments with
  | .error fault => pure (.misuse fault)
  | .ok .help => pure .help
  | .ok (.run i) => do
    match ← ((i.job e).run files).run with
    | .error failure => return .failed failure
    | .ok report => return .completed report (i.outputIn e)

/-! ## Texts -/

def statusText : Status → String
  | .ok => "Ok"
  | .failed error => "Failed \x7b error: " ++ Text.escaped error ++ " \x7d"
  | .skipped culprit => "Skipped \x7b upstream: " ++ Text.escaped culprit ++ " \x7d"

def entryLine (guid : String) (e : Report.Entry) : String :=
  "    " ++ guid ++ " (" ++ e.info.typeName ++ "): " ++ statusText e.status ++ "\n"

def summary (r : Report) (output : String) : String :=
  "Evaluation completed.\n  Components: " ++ toString r.size
    ++ "\n  Unsuccessful: " ++ toString r.unsuccessful.length ++ "\n"
    ++ String.join (r.unsuccessful.map fun (guid, e) => entryLine guid e)
    ++ "  Results: " ++ output ++ "\n"

def usage : String :=
  "Usage: treeflow [--inputs FILE] [--output FILE] [--max-parallel N] GRAPH\n"

namespace Ending

def code : Ending → UInt32
  | .help => 0
  | .misuse _ => 2
  | .failed _ => 1
  | .completed report _ => if report.unsuccessful.isEmpty then 0 else 2

def output : Ending → String
  | .help => usage
  | .completed report output => summary report output
  | _ => ""

def complaint : Ending → String
  | .misuse fault => "error: " ++ fault.message ++ "\n\n" ++ usage
  | .failed failure => "Evaluation error: " ++ failure.message ++ "\n"
  | _ => ""

end Ending
end CommandLine
end TreeFlow
