import Tricode.Position
import Tricode.Diagnostic
import Tricode.Token
import Tricode.Token.Segment
import Tricode.Token.Scan
import Tricode.Json
import Tricode.Ty
import Tricode.Expr
import Tricode.Program
import Tricode.Node
import Tricode.Node.Outline
import Tricode.Pass
import Tricode.Parser.Cause
import Tricode.Parser
import Tricode.Expr.Parser
import Tricode.Program.Parser
import Tricode.Parser.Session
import Tricode.Symbol
import Tricode.Symbol.Listing
import Tricode.Typing.Cause
import Tricode.Typing.Inference
import Tricode.Typing
import Tricode.Typing.Session
import Tricode.Instr
import Tricode.Lowering
import Tricode.Lowering.Session
import Tricode.Compilation
import Tricode.Text.Printable
import Tricode.Text.Decimal
import Tricode.Text.Quoted
import Tricode.Text.Utf8
import Tricode.Text.Upper
import Tricode.Command.Arguments
import Tricode.Command.Directory
import Tricode.Command
import Tricode.Json.Encoding
import Tricode.Json.Reader
import Tricode.Service
import Tricode.Service.Target
import Tricode.Service.Route
import Tricode.Service.Plain
import Tricode.Main
import Tricode.Proofs.Pass
import Tricode.Proofs.Parser
import Tricode.Proofs.Grammar
import Tricode.Proofs.Grammar.Reading
import Tricode.Proofs.Grammar.Expr
import Tricode.Proofs.Parser.Reports
import Tricode.Proofs.Grammar.Program
import Tricode.Proofs.Lowering.Code
import Tricode.Proofs.Machine
import Tricode.Proofs.Simulation.Expr
import Tricode.Proofs.Simulation.Stmt
import Tricode.Proofs.Lowering.Layout
import Tricode.Proofs.Lexemes
import Tricode.Proofs.Typing.Resolution
import Tricode.Proofs.Compilation
import Tricode.Proofs.Preservation
import Tricode.Proofs.Lowering.Writes
import Tricode.Proofs.Freshness
import Tricode.Proofs.Lowering.Sites
import Tricode.Proofs.Operands
import Tricode.Proofs.Token.Partition
import Tricode.Proofs.Pairing
import Tricode.Proofs.Parser.Alignment
import Tricode.Proofs.Parser.Correspondence
import Tricode.Proofs.Parser.Trees
import Tricode.Proofs.Parser.Shape
import Tricode.Proofs.Parser.Height
import Tricode.Proofs.Parser.Plain
import Tricode.Proofs.Parser.Places
import Tricode.Proofs.Grammar.Gap
import Tricode.Proofs.Parser.Recovery
import Tricode.Proofs.Typing.Acceptance
import Tricode.Proofs.Typing.Findings
import Tricode.Proofs.Lowering.Faults
import Tricode.Proofs.Lowering.Jumps
import Tricode.Proofs.Totality
import Tricode.Proofs.Occurrence
import Tricode.Proofs.Typing.Cascade
import Tricode.Proofs.Typing.Table
import Tricode.Proofs.Lowering.Frame
import Tricode.Proofs.Closure
import Tricode.Proofs.Bare
import Tricode.Proofs.Typing.Bare
import Tricode.Proofs.Independence
import Tricode.Proofs.Typing.Visits
import Tricode.Proofs.Typing.Scopes
import Tricode.Proofs.Typing.Bodies
import Tricode.Proofs.Places
import Tricode.Proofs.Void
import Tricode.Proofs.Gating
import Tricode.Proofs.Token.LineEnds
import Tricode.Proofs.LineEnds
import Tricode.Proofs.Parser.Local
import Tricode.Proofs.Parser.Locality
import Tricode.Proofs.Token.Longest
import Tricode.Proofs.Token.Spacing
import Tricode.Proofs.Parser.Composition
import Tricode.Proofs.Parser.Aim
import Tricode.Proofs.Parser.Order
import Tricode.Proofs.Parser.Blame
import Tricode.Proofs.Token.Lines
import Tricode.Proofs.Parser.Session
import Tricode.Proofs.Lowering.Spelling
import Tricode.Proofs.Lowering.Decoding
import Tricode.Proofs.Lowering.Supply
import Tricode.Proofs.Parser.Synchronization
import Tricode.Proofs.Typing.Walk
import Tricode.Proofs.Typing.Alterations
import Tricode.Proofs.Typing.Restoration
import Tricode.Proofs.Typing.Unknown
