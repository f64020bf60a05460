import QuadLang.Command.Arguments
import QuadLang.Command.Run
import QuadLang.Compile.Emit
import QuadLang.Compile.Object
import QuadLang.Compile.Program
import QuadLang.Compile.State
import QuadLang.Compile.Step
import QuadLang.Compile.Symbols
import QuadLang.Datum
import QuadLang.Dialect.Basic
import QuadLang.Dialect.Piece
import QuadLang.Dialect.Rules
import QuadLang.Dialect.Token
import QuadLang.FaultKind
import QuadLang.Fingerprint.Digest
import QuadLang.Fingerprint.Sample
import QuadLang.Generator.Definitions
import QuadLang.Generator.Lexer
import QuadLang.Generator.Parser
import QuadLang.Grammar.Basic
import QuadLang.Grammar.Check
import QuadLang.Grammar.FirstFollow
import QuadLang.Grammar.Report
import QuadLang.Grammar.Tables
import QuadLang.Grammar.Written
import QuadLang.Lalr.Automaton
import QuadLang.Lalr.Digraph
import QuadLang.Lalr.Lookahead
import QuadLang.Lalr.Report
import QuadLang.Lalr.Rules
import QuadLang.Lalr.Tables
import QuadLang.Lexer.Basic
import QuadLang.Lexer.Scan
import QuadLang.Machine.Expression
import QuadLang.Machine.Matrix
import QuadLang.Machine.Memory
import QuadLang.Machine.Object
import QuadLang.Machine.Operator
import QuadLang.Machine.Step
import QuadLang.Machine.Value
import QuadLang.Main
import QuadLang.Number.Binary64
import QuadLang.Number.Numeral
import QuadLang.Number.Shortest
import QuadLang.Number.Written
import QuadLang.Parse.Basic
import QuadLang.Parse.Engine
import QuadLang.Pattern.Basic
import QuadLang.Pattern.Reader
import QuadLang.Proofs.Activations
import QuadLang.Proofs.ArrayAssignments
import QuadLang.Proofs.Automaton
import QuadLang.Proofs.Calls
import QuadLang.Proofs.Frames
import QuadLang.Proofs.Keeps
import QuadLang.Proofs.Numeral
import QuadLang.Proofs.Spots
import QuadLang.Session
import QuadLang.Space
import QuadLang.Table
import QuadLang.Text.Blank
import QuadLang.Text.Case
import QuadLang.Text.Digit
import QuadLang.Text.Letter
import QuadLang.Text.Lines
import QuadLang.Text.Literal
import QuadLang.Text.Printable
import QuadLang.Text.Quoted
import QuadLang.Text.Word
import QuadLang.Types
import QuadLang.Proofs.Coding
import QuadLang.Proofs.Derivations
import QuadLang.Proofs.Scanned
import QuadLang.Proofs.Pieces
import QuadLang.Proofs.Effects
import QuadLang.Proofs.Jumps
import QuadLang.Proofs.Layout
import QuadLang.Proofs.Compiled
import QuadLang.Proofs.Routes
import QuadLang.Proofs.Addresses
import QuadLang.Proofs.Stages
import QuadLang.Proofs.Storage
import QuadLang.Proofs.Placement
import QuadLang.Proofs.Cells
import QuadLang.Proofs.Lines
import QuadLang.Proofs.Literals
import QuadLang.Proofs.Loading
import QuadLang.Proofs.RoundTrip
import QuadLang.Proofs.Balance
import QuadLang.Proofs.Decisions
import QuadLang.Proofs.Regular
import QuadLang.Proofs.Beginnings
import QuadLang.Proofs.Blanks
import QuadLang.Proofs.Halting
import QuadLang.Proofs.Completeness
import QuadLang.Proofs.Allocation
import QuadLang.Proofs.Console
import QuadLang.Proofs.Compact
import QuadLang.Proofs.Listing
import QuadLang.Proofs.Fingerprints
