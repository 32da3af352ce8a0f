import StackScript.Cli.Command
import StackScript.Cli.Input
import StackScript.Cli.Options
import StackScript.Code.Instruction
import StackScript.Code.Opcode
import StackScript.Code.SpanMap
import StackScript.Compile.Basic
import StackScript.Compile.Error
import StackScript.Compile.Link
import StackScript.Compile.Program
import StackScript.Compile.Unit
import StackScript.Decimal.Binary
import StackScript.Decimal.Notation
import StackScript.Decimal.Reader
import StackScript.Decimal.Remainder
import StackScript.Decimal.Shortest
import StackScript.Diagnostic.Basic
import StackScript.Diagnostic.Code
import StackScript.Diagnostic.Render
import StackScript.Machine.Collection
import StackScript.Machine.Fault
import StackScript.Machine.Limits
import StackScript.Machine.Operate
import StackScript.Machine.Run
import StackScript.Machine.Stack
import StackScript.Machine.State
import StackScript.Machine.Step
import StackScript.Main
import StackScript.Proofs.Code.Assembly
import StackScript.Proofs.Code.Codec
import StackScript.Proofs.Code.SpanMap
import StackScript.Proofs.Compile.Acceptance
import StackScript.Proofs.Compile.Agreement
import StackScript.Proofs.Compile.Assignment
import StackScript.Proofs.Compile.Balance
import StackScript.Proofs.Compile.Buffer
import StackScript.Proofs.Compile.Control
import StackScript.Proofs.Compile.Edits
import StackScript.Proofs.Compile.Emission
import StackScript.Proofs.Compile.Flow
import StackScript.Proofs.Compile.Functions
import StackScript.Proofs.Compile.Layout
import StackScript.Proofs.Compile.Listing
import StackScript.Proofs.Compile.Loops
import StackScript.Proofs.Compile.Nodes
import StackScript.Proofs.Compile.Operands
import StackScript.Proofs.Compile.Pool
import StackScript.Proofs.Compile.Programs
import StackScript.Proofs.Compile.Quiet
import StackScript.Proofs.Compile.Relocation
import StackScript.Proofs.Compile.Sequence
import StackScript.Proofs.Compile.Settled
import StackScript.Proofs.Compile.Spans
import StackScript.Proofs.Compile.Validity
import StackScript.Proofs.Compile.Visibility
import StackScript.Proofs.Compile.WellFormed
import StackScript.Proofs.Decimal.Order
import StackScript.Proofs.Diagnostic.Excerpt
import StackScript.Proofs.Effect
import StackScript.Proofs.Eval.Evaluator
import StackScript.Proofs.Eval.Nodes
import StackScript.Proofs.Eval.Plain
import StackScript.Proofs.Eval.Preservation
import StackScript.Proofs.Eval.Scoping
import StackScript.Proofs.Eval.Simulation
import StackScript.Proofs.Machine.Access
import StackScript.Proofs.Machine.Arithmetic
import StackScript.Proofs.Machine.Bounds
import StackScript.Proofs.Machine.Budget
import StackScript.Proofs.Machine.Capacity
import StackScript.Proofs.Machine.Comparison
import StackScript.Proofs.Machine.Control
import StackScript.Proofs.Machine.Discipline
import StackScript.Proofs.Machine.Exec
import StackScript.Proofs.Machine.Indexing
import StackScript.Proofs.Machine.Instructions
import StackScript.Proofs.Machine.Invariants
import StackScript.Proofs.Machine.Inversion
import StackScript.Proofs.Machine.Margin
import StackScript.Proofs.Machine.Preservation
import StackScript.Proofs.Machine.Relocated
import StackScript.Proofs.Machine.Results
import StackScript.Proofs.Machine.Shifts
import StackScript.Proofs.Machine.Stack
import StackScript.Proofs.Machine.Stale
import StackScript.Proofs.Machine.Values
import StackScript.Proofs.Scope.Aliasing
import StackScript.Proofs.Scope.Captures
import StackScript.Proofs.Scope.Lexical
import StackScript.Proofs.Scope.Operations
import StackScript.Proofs.Scope.Resolve
import StackScript.Proofs.Scope.Roster
import StackScript.Proofs.Scope.Shows
import StackScript.Proofs.Session.Assignment
import StackScript.Proofs.Session.Calls
import StackScript.Proofs.Session.Capture
import StackScript.Proofs.Session.Diagnostics
import StackScript.Proofs.Session.Entries
import StackScript.Proofs.Session.Growth
import StackScript.Proofs.Session.Labels
import StackScript.Proofs.Session.LongCode
import StackScript.Proofs.Session.Provenance
import StackScript.Proofs.Session.Safety
import StackScript.Proofs.Session.Sequence
import StackScript.Proofs.Source.Columns
import StackScript.Proofs.Source.Lines
import StackScript.Proofs.Token.Lexemes
import StackScript.Proofs.Token.Literals
import StackScript.Proofs.Token.Longest
import StackScript.Proofs.Token.Positions
import StackScript.Proofs.Token.Tiling
import StackScript.Proofs.Tree.Expressions
import StackScript.Proofs.Tree.Grammar
import StackScript.Proofs.Tree.Nesting
import StackScript.Proofs.Tree.Nodes
import StackScript.Proofs.Tree.Placement
import StackScript.Proofs.Tree.Printer
import StackScript.Proofs.Tree.Progress
import StackScript.Proofs.Tree.Reading
import StackScript.Proofs.Tree.RoundTrip
import StackScript.Proofs.Tree.Spans
import StackScript.Proofs.Tree.Steps
import StackScript.Proofs.Tree.Termination
import StackScript.Proofs.Tree.Yield
import StackScript.Proofs.Value.Coercion
import StackScript.Proofs.Value.Hashes
import StackScript.Scope.Storage
import StackScript.Scope.Symbol
import StackScript.Scope.Table
import StackScript.Session
import StackScript.Source.Lines
import StackScript.Source.Span
import StackScript.Text.Blank
import StackScript.Text.Pad
import StackScript.Text.Printable
import StackScript.Text.Quoted
import StackScript.Token.Basic
import StackScript.Token.Error
import StackScript.Token.Escape
import StackScript.Token.Lexer
import StackScript.Token.Reader
import StackScript.Tree.Basic
import StackScript.Tree.Error
import StackScript.Tree.Listing
import StackScript.Tree.Operator
import StackScript.Tree.Parser
import StackScript.Value.Basic
import StackScript.Value.Builtin
import StackScript.Value.Coercion
import StackScript.Value.Copy
import StackScript.Value.Display
import StackScript.Value.Equality
import StackScript.Value.Hash
