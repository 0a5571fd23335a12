import ArrayScript.Analysis.Draft
import ArrayScript.Analysis.Expr
import ArrayScript.Analysis.Function
import ArrayScript.Analysis.Stmt
import ArrayScript.Builtin
import ArrayScript.Code
import ArrayScript.Command
import ArrayScript.Complexity
import ArrayScript.Datum
import ArrayScript.Decimal.Binary
import ArrayScript.Decimal.Notation
import ArrayScript.Decimal.Shortest
import ArrayScript.Decl.Basic
import ArrayScript.Decl.Parse
import ArrayScript.Error.Basic
import ArrayScript.Error.Cause
import ArrayScript.Expr.Basic
import ArrayScript.Expr.Parse
import ArrayScript.Heap
import ArrayScript.Main
import ArrayScript.Number
import ArrayScript.Operator
import ArrayScript.Program
import ArrayScript.Run.Call
import ArrayScript.Run.Site
import ArrayScript.Run.Step
import ArrayScript.Run.Term
import ArrayScript.Scope
import ArrayScript.Source
import ArrayScript.Stmt.Basic
import ArrayScript.Stmt.Parse
import ArrayScript.Text.Blank
import ArrayScript.Text.Excerpt
import ArrayScript.Text.Line
import ArrayScript.Text.Position
import ArrayScript.Token.Cursor
import ArrayScript.Token.Kind
import ArrayScript.Token.Pattern
import ArrayScript.Token.Scan
import ArrayScript.Ty
import ArrayScript.Proofs.Analysis
import ArrayScript.Proofs.Scope
import ArrayScript.Proofs.Program
import ArrayScript.Proofs.Typing
import ArrayScript.Proofs.Depth
import ArrayScript.Proofs.World
import ArrayScript.Proofs.Safety
import ArrayScript.Proofs.Arguments
import ArrayScript.Proofs.Soundness
import ArrayScript.Proofs.Acyclic
import ArrayScript.Proofs.Reference
import ArrayScript.Proofs.Lowering
import ArrayScript.Proofs.Loosening
import ArrayScript.Proofs.Pledge
import ArrayScript.Proofs.Static
import ArrayScript.Proofs.Renaming
import ArrayScript.Proofs.Locality
import ArrayScript.Proofs.Grammar
import ArrayScript.Proofs.Parsing
import ArrayScript.Proofs.Printing
import ArrayScript.Proofs.Machine
import ArrayScript.Proofs.Termination
import ArrayScript.Proofs.Callees
import ArrayScript.Proofs.Tally
import ArrayScript.Proofs.Registry
import ArrayScript.Proofs.Relocation
import ArrayScript.Proofs.Commuting
import ArrayScript.Proofs.Layout
import ArrayScript.Proofs.Scanning
import ArrayScript.Proofs.LongestMatch
import ArrayScript.Proofs.Rendering
import ArrayScript.Proofs.Walk
import ArrayScript.Proofs.Progress
import ArrayScript.Proofs.Spans
import ArrayScript.Proofs.Nesting
import ArrayScript.Proofs.Marks
import ArrayScript.Proofs.Operations
import ArrayScript.Proofs.Attribution
import ArrayScript.Proofs.Double
import ArrayScript.Proofs.Nearest
import ArrayScript.Proofs.Numeral
import ArrayScript.Proofs.Literal
import ArrayScript.Proofs.Limit
import ArrayScript.Proofs.DefiniteAssignment
import ArrayScript.Proofs.Domination
import ArrayScript.Proofs.Extension
import ArrayScript.Proofs.View
import ArrayScript.Proofs.Update
import ArrayScript.Proofs.Counter
import ArrayScript.Proofs.Allocation
import ArrayScript.Proofs.Conformance
import ArrayScript.Proofs.Opening
import ArrayScript.Proofs.Recursion
import ArrayScript.Proofs.Lines
import ArrayScript.Proofs.Caret
import ArrayScript.Proofs.Offsets
import ArrayScript.Proofs.Slots
import ArrayScript.Proofs.Wildcard
