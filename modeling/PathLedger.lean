import PathLedger.Bytes.Ascii
import PathLedger.Bytes.Base64
import PathLedger.Bytes.Basic
import PathLedger.Bytes.Hex
import PathLedger.Bytes.Square
import PathLedger.Cipher.Blob
import PathLedger.Cipher.ChaCha20
import PathLedger.Cipher.Poly1305
import PathLedger.Cipher.Sealed
import PathLedger.Clock
import PathLedger.Command.Arguments
import PathLedger.Command.Basic
import PathLedger.Command.Database
import PathLedger.Command.Input
import PathLedger.Command.Run
import PathLedger.Config.Settings
import PathLedger.Config.Toml
import PathLedger.Derivation.Binding
import PathLedger.Derivation.Cascade
import PathLedger.Derivation.Graph
import PathLedger.Dict
import PathLedger.Digest.Blake3
import PathLedger.Entries
import PathLedger.Expr.Evaluate
import PathLedger.Expr.Lexer
import PathLedger.Expr.Postfix
import PathLedger.Expr.Token
import PathLedger.Fault
import PathLedger.Files.Basic
import PathLedger.Files.Disk
import PathLedger.Files.Place
import PathLedger.Index.Basic
import PathLedger.Index.Fold
import PathLedger.Index.Walk
import PathLedger.Journal.Basic
import PathLedger.Journal.Binary
import PathLedger.Json.Basic
import PathLedger.Json.Numeral
import PathLedger.Json.Parser
import PathLedger.Json.Printer
import PathLedger.Json.Quoted
import PathLedger.Json.Reader
import PathLedger.Ledger.Basic
import PathLedger.Ledger.Json
import PathLedger.Ledger.Record
import PathLedger.Main
import PathLedger.Number.Binary64
import PathLedger.Number.Decimal
import PathLedger.Number.Layout
import PathLedger.Number.Shortest
import PathLedger.Operator.Instruction
import PathLedger.Operator.Kind
import PathLedger.Operator.Registry
import PathLedger.Path.Basic
import PathLedger.Path.Brackets
import PathLedger.Proofs.Cipher.RoundTrip
import PathLedger.Proofs.Derivation.Cascades
import PathLedger.Proofs.Derivation.Levels
import PathLedger.Proofs.Derivation.Subscriptions
import PathLedger.Proofs.Derivation.Upkeep
import PathLedger.Proofs.Digest.Collision
import PathLedger.Proofs.Entries
import PathLedger.Proofs.Expr.Grammar
import PathLedger.Proofs.Expr.Labels
import PathLedger.Proofs.Expr.Lexemes
import PathLedger.Proofs.Expr.Precedence
import PathLedger.Proofs.Expr.Scanned
import PathLedger.Proofs.Index.Below
import PathLedger.Proofs.Index.Echo
import PathLedger.Proofs.Index.Fold
import PathLedger.Proofs.Index.Latest
import PathLedger.Proofs.Index.Nested
import PathLedger.Proofs.Index.Uncovered
import PathLedger.Proofs.Index.Walk
import PathLedger.Proofs.Journal.Chained
import PathLedger.Proofs.Journal.Saves
import PathLedger.Proofs.Json.Compact
import PathLedger.Proofs.Json.Quoted
import PathLedger.Proofs.Ledger.Chain
import PathLedger.Proofs.Ledger.Commitment
import PathLedger.Proofs.Ledger.Detection
import PathLedger.Proofs.Number.Rounding
import PathLedger.Proofs.Number.Shortest
import PathLedger.Proofs.Number.Written
import PathLedger.Proofs.Operator.Meaning
import PathLedger.Proofs.Operator.Registry
import PathLedger.Proofs.Path.Dotted
import PathLedger.Proofs.Path.Groups
import PathLedger.Proofs.Path.Keys
import PathLedger.Proofs.Path.Plain
import PathLedger.Proofs.Path.Prefixes
import PathLedger.Proofs.Path.Segments
import PathLedger.Proofs.Scope.Alike
import PathLedger.Proofs.Scope.Hiding
import PathLedger.Proofs.Scope.Lineage
import PathLedger.Proofs.Selector.Choices
import PathLedger.Proofs.Selector.Clauses
import PathLedger.Proofs.Selector.Filters
import PathLedger.Proofs.Selector.Free
import PathLedger.Proofs.Selector.Marks
import PathLedger.Proofs.Selector.Projections
import PathLedger.Proofs.Selector.Ranges
import PathLedger.Proofs.Snapshot.Binary
import PathLedger.Proofs.Snapshot.Json
import PathLedger.Proofs.Store.Aliases
import PathLedger.Proofs.Store.Anchored
import PathLedger.Proofs.Store.Bindings
import PathLedger.Proofs.Store.Bounded
import PathLedger.Proofs.Store.Branches
import PathLedger.Proofs.Store.Changes
import PathLedger.Proofs.Store.Commit
import PathLedger.Proofs.Store.Confinement
import PathLedger.Proofs.Store.Declarations
import PathLedger.Proofs.Store.Derivations
import PathLedger.Proofs.Store.Downstream
import PathLedger.Proofs.Store.Edits
import PathLedger.Proofs.Store.Endless
import PathLedger.Proofs.Store.Explain
import PathLedger.Proofs.Store.Freshness
import PathLedger.Proofs.Store.Held
import PathLedger.Proofs.Store.Hops
import PathLedger.Proofs.Store.Noninterference
import PathLedger.Proofs.Store.Passes
import PathLedger.Proofs.Store.PlainKeys
import PathLedger.Proofs.Store.PlainRuns
import PathLedger.Proofs.Store.Pointers
import PathLedger.Proofs.Store.Portable
import PathLedger.Proofs.Store.ReadBack
import PathLedger.Proofs.Store.Reading
import PathLedger.Proofs.Store.Records
import PathLedger.Proofs.Store.References
import PathLedger.Proofs.Store.Refusals
import PathLedger.Proofs.Store.Removal
import PathLedger.Proofs.Store.Replay
import PathLedger.Proofs.Store.Runs
import PathLedger.Proofs.Store.Selections
import PathLedger.Proofs.Store.Stealth
import PathLedger.Proofs.Store.Subtree
import PathLedger.Proofs.Store.Termination
import PathLedger.Proofs.Store.Transparency
import PathLedger.Proofs.Store.Verified
import PathLedger.Proofs.Text.Ends
import PathLedger.Proofs.Text.Parts
import PathLedger.Proofs.Username
import PathLedger.Proofs.Value.Fits
import PathLedger.Proofs.Value.Leaves
import PathLedger.Proofs.Value.Nested
import PathLedger.Proofs.Value.Printed
import PathLedger.Proofs.Value.Tagged
import PathLedger.Proofs.Wire.Decoded
import PathLedger.Proofs.Wire.Front
import PathLedger.Proofs.Wire.Records
import PathLedger.Proofs.Wire.Room
import PathLedger.Proofs.Wire.RoundTrip
import PathLedger.Resolver
import PathLedger.Scope.Basic
import PathLedger.Selector.Broadcast
import PathLedger.Selector.Filter
import PathLedger.Selector.Read
import PathLedger.Selector.Related
import PathLedger.Selector.Segment
import PathLedger.Snapshot.Basic
import PathLedger.Snapshot.Binary
import PathLedger.Snapshot.Json
import PathLedger.Store.Basic
import PathLedger.Store.Call
import PathLedger.Store.Commit
import PathLedger.Store.Derive
import PathLedger.Store.Inspect
import PathLedger.Store.Portable
import PathLedger.Store.View
import PathLedger.Text.Blank
import PathLedger.Text.GraphemeBase
import PathLedger.Text.Quote
import PathLedger.Text.Split
import PathLedger.Username
import PathLedger.Value.Basic
import PathLedger.Value.Compare
import PathLedger.Value.Json
import PathLedger.Wire.Basic
import PathLedger.Wire.Record
import PathLedger.Wire.Value
