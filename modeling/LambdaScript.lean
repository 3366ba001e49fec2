import LambdaScript.Outcome
import LambdaScript.Number.Decimal
import LambdaScript.Text.Quoted
import LambdaScript.Source.CharStream
import LambdaScript.Interner
import LambdaScript.Operator
import LambdaScript.Token.Stream
import LambdaScript.Expr.Dump
import LambdaScript.Expr.Nodes
import LambdaScript.Grammar.Totality
import LambdaScript.Value.Operation
import LambdaScript.Store
import LambdaScript.Interpreter
import LambdaScript.Diagnostic.Report
import LambdaScript.Diagnostic.Render
import LambdaScript.Text.Utf8
import LambdaScript.CommandLine
import LambdaScript.Main
import LambdaScript.Proofs.Interning
import LambdaScript.Proofs.Presents
import LambdaScript.Proofs.Tracking
import LambdaScript.Proofs.Descent
import LambdaScript.Proofs.Scanning
import LambdaScript.Proofs.Reading
import LambdaScript.Proofs.Spelling
import LambdaScript.Proofs.Alike
import LambdaScript.Proofs.Locality
import LambdaScript.Proofs.Rejection
import LambdaScript.Proofs.Moments
import LambdaScript.Proofs.Scopes
import LambdaScript.Proofs.Discipline
import LambdaScript.Proofs.CallOrder
import LambdaScript.Proofs.Enclosure
import LambdaScript.Proofs.Nesting
import LambdaScript.Proofs.Bindings
import LambdaScript.Proofs.Scoping
import LambdaScript.Proofs.Session
import LambdaScript.Proofs.Lexemes
import LambdaScript.Proofs.Partition
import LambdaScript.Proofs.Modes
import LambdaScript.Proofs.Output
import LambdaScript.Proofs.Renaming
import LambdaScript.Proofs.Following
import LambdaScript.Proofs.Limits
import LambdaScript.Proofs.Rereading
import LambdaScript.Proofs.Words
import LambdaScript.Proofs.Renumbering
import LambdaScript.Proofs.Nodes
import LambdaScript.Proofs.Labels
import LambdaScript.Proofs.Texts
import LambdaScript.Proofs.Lookahead
import LambdaScript.Proofs.Laziness
import LambdaScript.Proofs.Reachability
import LambdaScript.Proofs.Independence
import LambdaScript.Proofs.JoinedSources
import LambdaScript.Proofs.Joining
import LambdaScript.Proofs.Respelling
import LambdaScript.Proofs.Retracing
import LambdaScript.Proofs.Relocation
import LambdaScript.Proofs.Concatenation
import LambdaScript.Proofs.Positions
import LambdaScript.Proofs.Transparency
import LambdaScript.Proofs.Respacing
import LambdaScript.Proofs.Spanless
import LambdaScript.Proofs.Rebinding
import LambdaScript.Proofs.ReboundScopes
import LambdaScript.Proofs.BoundNames
import LambdaScript.Proofs.Consumed
import LambdaScript.Proofs.Histories
import LambdaScript.Proofs.Numbering
import LambdaScript.Proofs.Cursor
import LambdaScript.Proofs.Asking
import LambdaScript.Proofs.Capacity
import LambdaScript.Proofs.Ranges
import LambdaScript.Proofs.Hosts
import LambdaScript.Proofs.Blame
import LambdaScript.Proofs.Depth
import LambdaScript.Proofs.NodeTokens
import LambdaScript.Proofs.Tracing
import LambdaScript.Proofs.Brackets
import LambdaScript.Proofs.Extents
import LambdaScript.Proofs.Excerpts
import LambdaScript.Proofs.Fuel
import LambdaScript.Proofs.ShortCircuit
import LambdaScript.Proofs.Parameters
import LambdaScript.Proofs.Doubles
import LambdaScript.Proofs.Collation
import LambdaScript.Proofs.Comparisons
import LambdaScript.Proofs.Instances
import LambdaScript.Proofs.Identity
import LambdaScript.Proofs.Lines
import LambdaScript.Proofs.Snippets
import LambdaScript.Proofs.Colors
import LambdaScript.Proofs.Rounding
import LambdaScript.Proofs.Decimals
import LambdaScript.Proofs.Nearest
import LambdaScript.Proofs.Sexprs
import LambdaScript.Proofs.Dumping
import LambdaScript.Proofs.Arguments
import LambdaScript.Proofs.Taking
import LambdaScript.Proofs.Stopping
import LambdaScript.Proofs.Lists
import LambdaScript.Proofs.Recursion
import LambdaScript.Proofs.Progress
