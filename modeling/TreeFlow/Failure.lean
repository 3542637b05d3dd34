import TreeFlow.Component.Run
import TreeFlow.Expression.Parser
import TreeFlow.Tree.Document
/-
Failures of the library.

A failure of one component is recorded in the results of a run; every other failure ends the run.
An inconsistency would mean that the library broke a rule of its own.
-/

namespace TreeFlow

inductive Defect where
  | unknownType (tag : String)
  | duplicateId
  | missingProducer (producer : String)
  | missingOutput (producer output : String)
  | invalidExpression (param : String) (cause : Expression.Fault)
  | invalidLiteral (param : String) (cause : PathFault)
deriving DecidableEq, Repr, Inhabited

def Defect.message : Defect → String
  | .unknownType tag => s!"unknown component type '{tag}'"
  | .duplicateId => "duplicate component id"
  | .missingProducer producer => s!"source references missing component '{producer}'"
  | .missingOutput producer output =>
    s!"source references missing output '{output}' on component '{producer}'"
  | .invalidExpression param cause => s!"invalid expression on param '{param}': " ++ cause.message
  | .invalidLiteral param cause => s!"invalid literal data on param '{param}': " ++ cause.message

/-- Which rule of the library was broken. -/
inductive Inconsistency where
  /-- A result is recorded for a component that is not there. -/
  | noComponent (index : Nat)
  /-- A second result is recorded for a component. -/
  | writtenTwice (index : Nat)
  /-- An input is resolved before the component that it reads. -/
  | readTooEarly (param component : String)
  /-- A component has no result at the end of a run. -/
  | notRecorded (component : String)
  /-- A call gives another number of values than there are outputs. -/
  | arity (kind : Component.Kind) (values outputs : Nat)
deriving DecidableEq, Repr, Inhabited

def Inconsistency.message : Inconsistency → String
  | .noComponent index => s!"no component at index {index}"
  | .writtenTwice index => s!"result for component {index} written twice"
  | .readTooEarly param component =>
    s!"input '{param}' of {component} read before its producer was evaluated"
  | .notRecorded component => s!"no result recorded for {component}"
  | .arity kind values outputs => s!"{kind.name} returned {values} values for {outputs} outputs"

inductive Failure where
  | malformedGraph (component : String) (defect : Defect)
  | cyclicGraph (components : List String)
  | unmatchedShape (component : String) (cause : Matching.NoBranch)
  | componentEvaluation (component : String) (cause : Component.CallFault)
  | path (cause : PathFault)
  | file
  | json (cause : Json.Fault)
  | internal (cause : Inconsistency)
deriving DecidableEq, Inhabited

namespace Failure

/-- The failure of a component's run, with the name of the component. -/
def ofRun (component : String) : Component.Failure → Failure
  | .unmatched cause => .unmatchedShape component cause
  | .call cause => .componentEvaluation component cause
  | .arity kind values outputs => .internal (.arity kind values outputs)

/-- Whether a failure is recorded with its component, and the run goes on. -/
def isLocal : Failure → Bool
  | .unmatchedShape .. | .componentEvaluation .. => true
  | _ => false

/-- The text of a failure; files and documents only name what they are. -/
def message : Failure → String
  | .malformedGraph component defect =>
    s!"malformed graph at component {component}: " ++ defect.message
  | .cyclicGraph components =>
    "graph contains a cycle through components " ++ ", ".intercalate components
  | .unmatchedShape component cause =>
    s!"unmatched input shape on component {component}: " ++ cause.message
  | .componentEvaluation component cause => s!"component {component} failed: " ++ cause.message
  | .path cause => cause.message
  | .file => "I/O error"
  | .json _ => "JSON error"
  | .internal cause => "internal error: " ++ cause.message

end Failure

def runComponent (kind : Component.Kind) (component : String) (inputs : List Tree) :
    Except Failure (List Tree) :=
  (Component.run kind inputs).mapError (Failure.ofRun component)

end TreeFlow
