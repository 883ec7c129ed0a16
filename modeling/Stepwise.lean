import Stepwise.Main
import Stepwise.Replay
import Stepwise.Proofs.Run.Program
import Stepwise.Proofs.State.Lineage
import Stepwise.Proofs.State.Storage
import Stepwise.Proofs.State.Lexical
import Stepwise.Proofs.State.Scoping
import Stepwise.Proofs.Run.Scoping
import Stepwise.Proofs.Run.Naming
import Stepwise.Proofs.Run.Nesting
import Stepwise.Proofs.Run.Soundness
import Stepwise.Proofs.LexicalScoping
import Stepwise.Proofs.ClosureCollection
import Stepwise.Proofs.NeededScopes
import Stepwise.Proofs.Comments
import Stepwise.Proofs.EventLoop.Conservation
import Stepwise.Proofs.Promise.Ledger
import Stepwise.Proofs.Promise.Sparing
import Stepwise.Proofs.Promise.Gathering
import Stepwise.Proofs.Promise.Course
import Stepwise.Proofs.PromiseAll
import Stepwise.Proofs.State.Apart
import Stepwise.Proofs.Run.Stacking
import Stepwise.Proofs.Run.Returning
import Stepwise.Proofs.StackDiscipline
import Stepwise.Proofs.EventLoop.Ceiling
import Stepwise.Proofs.EventLoop.Budget
import Stepwise.Proofs.CeilingExtension
import Stepwise.Proofs.Promise.History
import Stepwise.Proofs.Promise.Serving
import Stepwise.Proofs.Promise.Book
import Stepwise.Proofs.Promise.Keeping
import Stepwise.Proofs.Promise.Making
import Stepwise.Proofs.Promise.Account
import Stepwise.Proofs.Promise.Roster
import Stepwise.Proofs.DerivedPromise
import Stepwise.Proofs.Promise.Orderly
import Stepwise.Proofs.Run.History
import Stepwise.Proofs.Quiescence
import Stepwise.Proofs.EventLoop.Extension
import Stepwise.Proofs.Run.Conduct
import Stepwise.Proofs.Run.Calling
import Stepwise.Proofs.RunToCompletion
import Stepwise.Proofs.State.Calling
import Stepwise.Proofs.Run.Enclosed
import Stepwise.Proofs.CalleeIsolation
import Stepwise.Proofs.Value.Counting
import Stepwise.Proofs.State.Counting
import Stepwise.Proofs.State.Tallying
import Stepwise.Proofs.State.Counted
import Stepwise.Proofs.Run.Counting
import Stepwise.Proofs.ReferenceCounts
import Stepwise.Proofs.Run.Declaring
import Stepwise.Proofs.State.Framing
import Stepwise.Proofs.Run.Framing
import Stepwise.Proofs.CallDepth
import Stepwise.Proofs.Promise.Standing
import Stepwise.Proofs.Promise.Changing
import Stepwise.Proofs.Promise.Turn
import Stepwise.Proofs.Settlement
import Stepwise.Proofs.HandlerOrder
import Stepwise.Proofs.Promise.Racing
import Stepwise.Proofs.PromiseRace
import Stepwise.Proofs.State.Growth
import Stepwise.Proofs.State.Edit
import Stepwise.Proofs.State.Numbering
import Stepwise.Proofs.State.Editing
import Stepwise.Proofs.Run.Unfolding
import Stepwise.Proofs.Run.Chronicle
import Stepwise.Proofs.RecordedGrowth
import Stepwise.Proofs.UniqueNumbers
import Stepwise.Proofs.Run.Access
import Stepwise.Proofs.References
import Stepwise.Proofs.Run.Congruence
import Stepwise.Proofs.Run.Faulting
import Stepwise.Proofs.CleanEnd
import Stepwise.Proofs.TaskSteps
import Stepwise.Proofs.Value.Recasting
import Stepwise.Proofs.State.Recasting
import Stepwise.Proofs.Run.Recasting
import Stepwise.Proofs.Filling.Gap
import Stepwise.Proofs.Filling.Operation
import Stepwise.Proofs.Filling.Expression
import Stepwise.Proofs.Filling.Statement
import Stepwise.Proofs.Filling.Run
import Stepwise.Proofs.Filling.Reading
import Stepwise.Proofs.Filling.Masking
import Stepwise.Proofs.InertStatements
import Stepwise.Proofs.PropertyStore
import Stepwise.Proofs.Assignment
import Stepwise.Proofs.Hoisting.Home
import Stepwise.Proofs.Hoisting.Reading
import Stepwise.Proofs.Hoisting.Declaring
import Stepwise.Proofs.VariableHoisting
import Stepwise.Proofs.Run.Leaving
import Stepwise.Proofs.IterationIsolation
import Stepwise.Proofs.State.Row
import Stepwise.Proofs.Initialization
import Stepwise.Proofs.ParameterBinding
import Stepwise.Proofs.ReadPaths
import Stepwise.Proofs.ObjectLiteral
import Stepwise.Proofs.Number.Numeral
import Stepwise.Proofs.ElementKeys
import Stepwise.Proofs.Value.Text
import Stepwise.Proofs.BooleanEquality
import Stepwise.Proofs.Layout
import Stepwise.Proofs.ArraySlots
import Stepwise.Proofs.Redeclaration
import Stepwise.Proofs.Number.Exact
import Stepwise.Proofs.Number.Range
import Stepwise.Proofs.Number.Division
import Stepwise.Proofs.Value.Primitive
import Stepwise.Proofs.Equality
import Stepwise.Proofs.Comparison
import Stepwise.Proofs.OperatorFaults
import Stepwise.Proofs.SubscriptKeys
import Stepwise.Proofs.Value.Joining
import Stepwise.Proofs.EndlessText
import Stepwise.Proofs.Value.Unfolding
import Stepwise.Proofs.CircularRendering
import Stepwise.Proofs.Number.Shortest
import Stepwise.Proofs.Number.Shape
import Stepwise.Proofs.Number.Written
import Stepwise.Proofs.Json.Word
import Stepwise.Proofs.Json.Quoting
import Stepwise.Proofs.Json.Style
import Stepwise.Proofs.Json.Path
import Stepwise.Proofs.NumberRendering
import Stepwise.Proofs.Value.Export
import Stepwise.Proofs.RecordedReads
import Stepwise.Proofs.Tree.Slice
import Stepwise.Proofs.Tree.Preorder
import Stepwise.Proofs.StringLiterals
import Stepwise.Proofs.Number.Hexadecimal
import Stepwise.Proofs.Text.Escape
import Stepwise.Proofs.Grammar.Literal
import Stepwise.Proofs.EscapedLiterals
import Stepwise.Proofs.FirstError
import Stepwise.Proofs.FunctionExtraction
import Stepwise.Proofs.TraceWalk
import Stepwise.Proofs.Value.Joining
