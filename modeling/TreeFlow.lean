import TreeFlow.Binary64.Layout
import TreeFlow.Binary64.Numeral
import TreeFlow.Binary64.Parts
import TreeFlow.Binary64.Shortest
import TreeFlow.Binary64.Whole
import TreeFlow.CommandLine
import TreeFlow.Component.Call
import TreeFlow.Component.Kind
import TreeFlow.Component.Lists
import TreeFlow.Component.Maths
import TreeFlow.Component.Parameter
import TreeFlow.Component.Restructure
import TreeFlow.Component.Run
import TreeFlow.Component.Signature
import TreeFlow.Component.Vectors
import TreeFlow.Expression
import TreeFlow.Expression.Formula
import TreeFlow.Expression.Parser
import TreeFlow.Expression.Token
import TreeFlow.Failure
import TreeFlow.Files
import TreeFlow.Files.Directory
import TreeFlow.Graph.Basic
import TreeFlow.Graph.Document
import TreeFlow.Graph.Load
import TreeFlow.Item
import TreeFlow.Item.Document
import TreeFlow.Json.Basic
import TreeFlow.Json.Decode
import TreeFlow.Json.Reader
import TreeFlow.Json.Token
import TreeFlow.Json.Writer
import TreeFlow.Literal
import TreeFlow.Main
import TreeFlow.Matching
import TreeFlow.Path
import TreeFlow.Proofs.Binary64.Finite
import TreeFlow.Proofs.Binary64.Nonzero
import TreeFlow.Proofs.Component.Aligned
import TreeFlow.Proofs.Component.Arity
import TreeFlow.Proofs.Component.Assembled
import TreeFlow.Proofs.Component.Branches
import TreeFlow.Proofs.Component.Calls
import TreeFlow.Proofs.Component.Defaults
import TreeFlow.Proofs.Component.Faults
import TreeFlow.Proofs.Component.Integral
import TreeFlow.Proofs.Component.Missing
import TreeFlow.Proofs.Component.Restructure
import TreeFlow.Proofs.Component.Shaped
import TreeFlow.Proofs.Component.Single
import TreeFlow.Proofs.Component.Valued
import TreeFlow.Proofs.Except
import TreeFlow.Proofs.Expression.Grammar
import TreeFlow.Proofs.Expression.Height
import TreeFlow.Proofs.Expression.Parser
import TreeFlow.Proofs.Graph.Consistent
import TreeFlow.Proofs.Graph.Cut
import TreeFlow.Proofs.Graph.Document
import TreeFlow.Proofs.Graph.Load
import TreeFlow.Proofs.Graph.Loaded
import TreeFlow.Proofs.Graph.Neighbours
import TreeFlow.Proofs.Graph.Offers
import TreeFlow.Proofs.Graph.Reorder
import TreeFlow.Proofs.Graph.Slots
import TreeFlow.Proofs.Graph.Sound
import TreeFlow.Proofs.Graph.Wiring
import TreeFlow.Proofs.Item.Document
import TreeFlow.Proofs.Json.Decode
import TreeFlow.Proofs.Json.Number
import TreeFlow.Proofs.Json.Sized
import TreeFlow.Proofs.Json.Text
import TreeFlow.Proofs.Literal
import TreeFlow.Proofs.Matching.Cross
import TreeFlow.Proofs.Matching.Extra
import TreeFlow.Proofs.Matching.Fits
import TreeFlow.Proofs.Matching.Initial
import TreeFlow.Proofs.Matching.Longest
import TreeFlow.Proofs.Matching.Rearrange
import TreeFlow.Proofs.Matching.Serves
import TreeFlow.Proofs.Matching.Shortest
import TreeFlow.Proofs.Matching.Supply
import TreeFlow.Proofs.Path
import TreeFlow.Proofs.Path.Grammar
import TreeFlow.Proofs.Path.Text
import TreeFlow.Proofs.Report
import TreeFlow.Proofs.Report.Document
import TreeFlow.Proofs.Report.Outputs
import TreeFlow.Proofs.Report.Reload
import TreeFlow.Proofs.Report.RoundTrip
import TreeFlow.Proofs.Run.Compare
import TreeFlow.Proofs.Run.Cone
import TreeFlow.Proofs.Run.Cut
import TreeFlow.Proofs.Run.Cycles
import TreeFlow.Proofs.Run.Evaluate
import TreeFlow.Proofs.Run.Keys
import TreeFlow.Proofs.Run.Pool
import TreeFlow.Proofs.Run.Propagation
import TreeFlow.Proofs.Run.Reorder
import TreeFlow.Proofs.Run.Schedule
import TreeFlow.Proofs.Run.Settled
import TreeFlow.Proofs.Run.Store
import TreeFlow.Proofs.Run.Visit
import TreeFlow.Proofs.SortedMap
import TreeFlow.Proofs.Text.Blank
import TreeFlow.Proofs.Text.Numeral
import TreeFlow.Proofs.Text.Utf8
import TreeFlow.Proofs.Tree
import TreeFlow.Proofs.Tree.Document
import TreeFlow.Report.Basic
import TreeFlow.Report.Document
import TreeFlow.Run.Bindings
import TreeFlow.Run.Evaluate
import TreeFlow.Run.Limit
import TreeFlow.Run.Pool
import TreeFlow.Run.Schedule
import TreeFlow.Run.Store
import TreeFlow.SortedMap
import TreeFlow.Text.Blank
import TreeFlow.Text.Case
import TreeFlow.Text.Escaped
import TreeFlow.Text.Numeral
import TreeFlow.Text.Printable
import TreeFlow.Text.Utf8
import TreeFlow.Tree
import TreeFlow.Tree.Document
import TreeFlow.Tree.Structure
import TreeFlow.Proofs.Run.Order
import TreeFlow.Proofs.Run.Layers
import TreeFlow.Proofs.Tree.Numbering
import TreeFlow.Proofs.Tree.Normal
import TreeFlow.Proofs.Tree.Siblings
import TreeFlow.Proofs.Tree.Nested
import TreeFlow.Proofs.Tree.Graft
import TreeFlow.Proofs.Tree.Itemwise
import TreeFlow.Proofs.Run.Inputs
import TreeFlow.Proofs.Literal.Branches
import TreeFlow.Proofs.Literal.Forms
import TreeFlow.Proofs.Component.Arithmetic
import TreeFlow.Proofs.Binary64.Rounding
import TreeFlow.Proofs.Binary64.Exact
import TreeFlow.Proofs.Expression.Exact
import TreeFlow.Proofs.Expression.Print
import TreeFlow.Proofs.Expression.Machine
import TreeFlow.Proofs.Expression.Cursor
import TreeFlow.Proofs.Expression.Agreement
import TreeFlow.Proofs.Item.Integer
import TreeFlow.Proofs.Graph.Declared
import TreeFlow.Proofs.Component.Level
import TreeFlow.Proofs.Component.Held
import TreeFlow.Proofs.Component.Parameter
import TreeFlow.Proofs.Run.Recording
import TreeFlow.Proofs.Graph.Assignment
import TreeFlow.Proofs.Component.Panel
import TreeFlow.Proofs.Files
import TreeFlow.Proofs.Files.Directory
import TreeFlow.Proofs.CommandLine
