import Lox.Cbor.Decode
import Lox.Cbor.Float
import Lox.Cbor.Item
import Lox.Cbor.Read
import Lox.Cbor.Write
import Lox.Chunk.Basic
import Lox.Chunk.Listing
import Lox.Chunk.Verify
import Lox.Cli.Flags
import Lox.Cli.Number
import Lox.Cli.Run
import Lox.Compile
import Lox.Compiler
import Lox.Decimal.Number
import Lox.Decimal.Shortest
import Lox.Diagnostic
import Lox.Directory
import Lox.Engine
import Lox.Expr.Basic
import Lox.Expr.Code
import Lox.Expr.Complaint
import Lox.Expr.Parse
import Lox.Expr.Precedence
import Lox.Failure
import Lox.Image.Basic
import Lox.Image.Chunk
import Lox.Instr
import Lox.Interpret
import Lox.Log
import Lox.Machine.Console
import Lox.Machine.Fault
import Lox.Machine.Run
import Lox.Machine.Stack
import Lox.Main
import Lox.Pool
import Lox.Program.Read
import Lox.Program.Statement
import Lox.Proofs.Acceptance
import Lox.Proofs.Constants
import Lox.Proofs.Correctness
import Lox.Proofs.Discipline
import Lox.Proofs.Effects
import Lox.Proofs.Emitted
import Lox.Proofs.Evaluation
import Lox.Proofs.Grammar
import Lox.Proofs.Indexed
import Lox.Proofs.Levels
import Lox.Proofs.Lexical
import Lox.Proofs.Lines
import Lox.Proofs.Reading
import Lox.Proofs.Safety
import Lox.Proofs.Statements
import Lox.Proofs.Steps
import Lox.Proofs.Utf8
import Lox.Proofs.Verification
import Lox.Repl
import Lox.Settings
import Lox.Text.Column
import Lox.Text.Printable
import Lox.Text.Quoted
import Lox.Text.Utf8
import Lox.Token.Basic
import Lox.Token.Scan
import Lox.Toml.Document
import Lox.Toml.Grammar
import Lox.Toml.Quoted
import Lox.Toml.Scalar
import Lox.Value
import Lox.Word
import Lox.Proofs.Cbor
import Lox.Proofs.Spacing
import Lox.Proofs.Extent
import Lox.Proofs.Image
import Lox.Proofs.Blame
import Lox.Proofs.Coverage
import Lox.Proofs.Joining
import Lox.Proofs.Sessions
import Lox.Proofs.Recovery
import Lox.Proofs.Building
import Lox.Proofs.Rounds
import Lox.Proofs.Order
import Lox.Proofs.Reloading
import Lox.Proofs.OnePass
import Lox.Proofs.Making
import Lox.Proofs.Tracking
import Lox.Proofs.Totality
import Lox.Proofs.Munch
import Lox.Proofs.Literals
import Lox.Proofs.Verbatim
import Lox.Proofs.Narrowing
import Lox.Proofs.Restriction
import Lox.Proofs.Listing
import Lox.Proofs.Decoders
import Lox.Proofs.Severity
import Lox.Proofs.Plain
import Lox.Proofs.Layers
