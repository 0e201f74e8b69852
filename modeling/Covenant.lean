import Covenant.Arithmetic
import Covenant.Block
import Covenant.Checksum
import Covenant.Cli.Command
import Covenant.Cli.Dialogue
import Covenant.Cli.Program
import Covenant.Code
import Covenant.Compile.Call
import Covenant.Compile.Declaration
import Covenant.Compile.Expression
import Covenant.Compile.Literal
import Covenant.Compile.Unit
import Covenant.Compile.Work
import Covenant.Dict
import Covenant.Error
import Covenant.Extension
import Covenant.Grammar
import Covenant.Heap
import Covenant.Lexeme.Basic
import Covenant.Lexeme.Reading
import Covenant.Lexeme.Slice
import Covenant.Library.Format
import Covenant.Library.Sample
import Covenant.Library.Standard
import Covenant.Limits
import Covenant.Limits.Reading
import Covenant.Machine.Basic
import Covenant.Machine.Call
import Covenant.Machine.Run
import Covenant.Machine.Step
import Covenant.Machine.Variable
import Covenant.Main
import Covenant.Money.Arithmetic
import Covenant.Money.Basic
import Covenant.Money.Float
import Covenant.Money.Reading
import Covenant.Name
import Covenant.Number.Binary64
import Covenant.Number.Digits
import Covenant.Number.Power
import Covenant.Number.Reading
import Covenant.Number.Rounding
import Covenant.Number.Shortest
import Covenant.Opcode
import Covenant.Proofs.Arena
import Covenant.Proofs.Block
import Covenant.Proofs.Comparison
import Covenant.Proofs.Compile.Balance
import Covenant.Proofs.Compile.Bounds
import Covenant.Proofs.Compile.Brackets
import Covenant.Proofs.Compile.Callees
import Covenant.Proofs.Compile.Counted
import Covenant.Proofs.Compile.DataSections
import Covenant.Proofs.Compile.Declared
import Covenant.Proofs.Compile.Edits
import Covenant.Proofs.Compile.Growth
import Covenant.Proofs.Compile.Headers
import Covenant.Proofs.Compile.Heights
import Covenant.Proofs.Compile.Layout
import Covenant.Proofs.Compile.Literals
import Covenant.Proofs.Compile.Marks
import Covenant.Proofs.Compile.Names
import Covenant.Proofs.Compile.Outcome
import Covenant.Proofs.Compile.Parts
import Covenant.Proofs.Compile.Passages
import Covenant.Proofs.Compile.Phrases
import Covenant.Proofs.Compile.Positions
import Covenant.Proofs.Compile.Readings
import Covenant.Proofs.Compile.Renaming
import Covenant.Proofs.Compile.Scopes
import Covenant.Proofs.Compile.Sentences
import Covenant.Proofs.Compile.Signatures
import Covenant.Proofs.Compile.Spreads
import Covenant.Proofs.Compile.Terms
import Covenant.Proofs.Compile.Units
import Covenant.Proofs.Compile.Uses
import Covenant.Proofs.Compile.Yards
import Covenant.Proofs.Computation
import Covenant.Proofs.Dict
import Covenant.Proofs.Heap.Apart
import Covenant.Proofs.Heap.Content
import Covenant.Proofs.Heap.Grounded
import Covenant.Proofs.Heap.Lasting
import Covenant.Proofs.Heap.Stores
import Covenant.Proofs.Lexeme.Branches
import Covenant.Proofs.Lexeme.Comments
import Covenant.Proofs.Lexeme.Growth
import Covenant.Proofs.Lexeme.Outline
import Covenant.Proofs.Lexeme.Pieces
import Covenant.Proofs.Lexeme.Slices
import Covenant.Proofs.Lexeme.Strings
import Covenant.Proofs.Lexeme.Wrapping
import Covenant.Proofs.Machine.Acyclic
import Covenant.Proofs.Machine.Amounts
import Covenant.Proofs.Machine.Arguments
import Covenant.Proofs.Machine.Assignment
import Covenant.Proofs.Machine.Budget
import Covenant.Proofs.Machine.Callers
import Covenant.Proofs.Machine.Calls
import Covenant.Proofs.Machine.Chained
import Covenant.Proofs.Machine.Changes
import Covenant.Proofs.Machine.Charges
import Covenant.Proofs.Machine.Collecting
import Covenant.Proofs.Machine.Conditions
import Covenant.Proofs.Machine.ContractCalls
import Covenant.Proofs.Machine.Copies
import Covenant.Proofs.Machine.Crashes
import Covenant.Proofs.Machine.Depth
import Covenant.Proofs.Machine.Effects
import Covenant.Proofs.Machine.Environment
import Covenant.Proofs.Machine.Equations
import Covenant.Proofs.Machine.Evaluation
import Covenant.Proofs.Machine.Frames
import Covenant.Proofs.Machine.Heights
import Covenant.Proofs.Machine.Kinds
import Covenant.Proofs.Machine.Memory
import Covenant.Proofs.Machine.Metering
import Covenant.Proofs.Machine.Moves
import Covenant.Proofs.Machine.Operands
import Covenant.Proofs.Machine.Panics
import Covenant.Proofs.Machine.Parameters
import Covenant.Proofs.Machine.Plain
import Covenant.Proofs.Machine.Reentry
import Covenant.Proofs.Machine.Renaming
import Covenant.Proofs.Machine.Routing
import Covenant.Proofs.Machine.Runs
import Covenant.Proofs.Machine.Scopes
import Covenant.Proofs.Machine.Segments
import Covenant.Proofs.Machine.Shifts
import Covenant.Proofs.Machine.Spreading
import Covenant.Proofs.Machine.Steps
import Covenant.Proofs.Machine.SystemVariables
import Covenant.Proofs.Machine.Terms
import Covenant.Proofs.Machine.Traces
import Covenant.Proofs.Machine.Twins
import Covenant.Proofs.Machine.Variables
import Covenant.Proofs.Machine.Views
import Covenant.Proofs.Money
import Covenant.Proofs.Name
import Covenant.Proofs.Registry.Clean
import Covenant.Proofs.Registry.Closure
import Covenant.Proofs.Registry.Conditions
import Covenant.Proofs.Registry.Linked
import Covenant.Proofs.Registry.Operations
import Covenant.Proofs.Registry.Recompiling
import Covenant.Proofs.Registry.Rollback
import Covenant.Proofs.Registry.Scopes
import Covenant.Proofs.Registry.StableNumbers
import Covenant.Proofs.Registry.Wrapping
import Covenant.Proofs.Registry.Writes
import Covenant.Proofs.Renaming
import Covenant.Proofs.Structured.Blocks
import Covenant.Proofs.Structured.Code
import Covenant.Proofs.Structured.Correctness
import Covenant.Proofs.Structured.Expressions
import Covenant.Proofs.Structured.Metered
import Covenant.Proofs.Structured.Postfix
import Covenant.Proofs.Structured.Semantics
import Covenant.Proofs.Structured.Simulation
import Covenant.Proofs.Structured.Statements
import Covenant.Proofs.Structured.Syntax
import Covenant.Proofs.Structured.Tokens
import Covenant.Proofs.Structured.Unit
import Covenant.Proofs.Structured.Word
import Covenant.Registry
import Covenant.Session
import Covenant.Text.Blank
import Covenant.Text.Hidden
import Covenant.Text.Quoted
import Covenant.Toml.Document
import Covenant.Toml.Token
import Covenant.Ty
import Covenant.Value
