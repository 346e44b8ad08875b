import ExplicitControl.Arity
import ExplicitControl.CallStack
import ExplicitControl.Command.Basic
import ExplicitControl.Command.Evaluation
import ExplicitControl.Command.RunOptions
import ExplicitControl.Command.Session
import ExplicitControl.Decimal.Binary
import ExplicitControl.Decimal.Notation
import ExplicitControl.Decimal.Reader
import ExplicitControl.Decimal.Scaled
import ExplicitControl.Decimal.Shortest
import ExplicitControl.Diagnostic.Basic
import ExplicitControl.Diagnostic.Code
import ExplicitControl.Diagnostic.Docs
import ExplicitControl.Diagnostic.LineTable
import ExplicitControl.Diagnostic.OfError
import ExplicitControl.Diagnostic.Report
import ExplicitControl.EvalError
import ExplicitControl.Heap
import ExplicitControl.Host.Basic
import ExplicitControl.Host.Prelude
import ExplicitControl.Json.Basic
import ExplicitControl.Json.Reader
import ExplicitControl.Machine.Apply
import ExplicitControl.Machine.Breakpoints
import ExplicitControl.Machine.Evaluate
import ExplicitControl.Machine.Execute
import ExplicitControl.Machine.Inspect
import ExplicitControl.Machine.Instruction
import ExplicitControl.Machine.Run
import ExplicitControl.Machine.Stash
import ExplicitControl.Machine.State
import ExplicitControl.Main
import ExplicitControl.Member
import ExplicitControl.NameTable
import ExplicitControl.Object
import ExplicitControl.Operators
import ExplicitControl.Output
import ExplicitControl.Printer
import ExplicitControl.Proofs.Above
import ExplicitControl.Proofs.Acceptance
import ExplicitControl.Proofs.Acyclic
import ExplicitControl.Proofs.Additions
import ExplicitControl.Proofs.Alike
import ExplicitControl.Proofs.Balance
import ExplicitControl.Proofs.Bindings
import ExplicitControl.Proofs.Building
import ExplicitControl.Proofs.BuiltTrees
import ExplicitControl.Proofs.CallDepth
import ExplicitControl.Proofs.CallReturn
import ExplicitControl.Proofs.CallWork
import ExplicitControl.Proofs.Completions
import ExplicitControl.Proofs.Confinement
import ExplicitControl.Proofs.Contracts
import ExplicitControl.Proofs.Conversions
import ExplicitControl.Proofs.Correspondence
import ExplicitControl.Proofs.Coupled
import ExplicitControl.Proofs.Declarations
import ExplicitControl.Proofs.Demand
import ExplicitControl.Proofs.Documents
import ExplicitControl.Proofs.Enclosure
import ExplicitControl.Proofs.Ensures
import ExplicitControl.Proofs.Faithful
import ExplicitControl.Proofs.Faults
import ExplicitControl.Proofs.Follows
import ExplicitControl.Proofs.Frames
import ExplicitControl.Proofs.Heights
import ExplicitControl.Proofs.InTree
import ExplicitControl.Proofs.Installation
import ExplicitControl.Proofs.Jumps
import ExplicitControl.Proofs.Layout
import ExplicitControl.Proofs.Limits
import ExplicitControl.Proofs.Local
import ExplicitControl.Proofs.Loops
import ExplicitControl.Proofs.Moves
import ExplicitControl.Proofs.Names
import ExplicitControl.Proofs.Nesting
import ExplicitControl.Proofs.Origins
import ExplicitControl.Proofs.Overflow
import ExplicitControl.Proofs.Owed
import ExplicitControl.Proofs.Parts
import ExplicitControl.Proofs.Pauses
import ExplicitControl.Proofs.Placement
import ExplicitControl.Proofs.Plain
import ExplicitControl.Proofs.Refinement
import ExplicitControl.Proofs.Returns
import ExplicitControl.Proofs.Safety
import ExplicitControl.Proofs.Scheduled
import ExplicitControl.Proofs.SharedNames
import ExplicitControl.Proofs.Shortcuts
import ExplicitControl.Proofs.Slots
import ExplicitControl.Proofs.StaticScope
import ExplicitControl.Proofs.StraightRuns
import ExplicitControl.Proofs.Structural
import ExplicitControl.Proofs.Supply
import ExplicitControl.Proofs.Surroundings
import ExplicitControl.Proofs.TailCalls
import ExplicitControl.Proofs.Tidy
import ExplicitControl.Proofs.Tracks
import ExplicitControl.Proofs.Travel
import ExplicitControl.Proofs.Trips
import ExplicitControl.Proofs.Turns
import ExplicitControl.Proofs.Values
import ExplicitControl.Proofs.Located
import ExplicitControl.Proofs.Unwinding
import ExplicitControl.Proofs.ScopeChain
import ExplicitControl.Scopes
import ExplicitControl.Span
import ExplicitControl.Text.Blank
import ExplicitControl.Text.Bytes
import ExplicitControl.Text.CodeRanges
import ExplicitControl.Text.Quoted
import ExplicitControl.Text.Unprintable
import ExplicitControl.Tree.Basic
import ExplicitControl.Tree.Builder
import ExplicitControl.Tree.Decode
import ExplicitControl.Tree.Encode
import ExplicitControl.Tree.NamesPlace
import ExplicitControl.Tree.Node
import ExplicitControl.Tree.Operator
import ExplicitControl.Value
import ExplicitControl.Proofs.FramesSince
import ExplicitControl.Proofs.Iterations
import ExplicitControl.Proofs.TripFrames
import ExplicitControl.Proofs.Drawings
import ExplicitControl.Proofs.PlainText
import ExplicitControl.Proofs.Reaching
import ExplicitControl.Proofs.Members
import ExplicitControl.Proofs.HeldObjects
import ExplicitControl.Proofs.Boundaries
import ExplicitControl.Proofs.Interning
import ExplicitControl.Proofs.LineTables
import ExplicitControl.Proofs.Renderings
import ExplicitControl.Proofs.Numerals
import ExplicitControl.Proofs.Arguments
import ExplicitControl.Proofs.Spelling
import ExplicitControl.Proofs.InsertionOrder
import ExplicitControl.Proofs.OperandOrder
import ExplicitControl.Proofs.FrameNumbers
import ExplicitControl.Proofs.Snippets
