import Lenient.Address
import Lenient.Elapsed
import Lenient.Json.Builder
import Lenient.Json.Document
import Lenient.Json.Value
import Lenient.Query.Read
import Lenient.Query.Term
import Lenient.Tape
import Lenient.Proofs.Stream.Refinement
import Lenient.Proofs.Json.Entry
import Lenient.Proofs.Json.Nesting
import Lenient.Proofs.Json.Writing
import Lenient.Proofs.Json.Escaping
import Lenient.Proofs.Json.StepReading
import Lenient.Proofs.Json.RoundTrip
import Lenient.Proofs.Query.Nesting
import Lenient.Proofs.Lexeme.Agreement
import Lenient.Proofs.Reader.Agreement
import Lenient.Proofs.Json.Acceptance
import Lenient.Proofs.Json.Building
import Lenient.Proofs.Json.Layout
import Lenient.Proofs.Json.Walking
import Lenient.Proofs.Json.Numbering
import Lenient.Proofs.Stream.Location
import Lenient.Proofs.Json.Replay
import Lenient.Proofs.Lexeme.Spelling
import Lenient.Proofs.Query.Grammar
import Lenient.Proofs.Query.Acceptance
import Lenient.Proofs.Reader.Lookahead
import Lenient.Proofs.Json.Truncation
import Lenient.Proofs.Stream.Fetching
import Lenient.Proofs.Reader.Bracketing
import Lenient.Proofs.Query.Truncation
import Lenient.Proofs.Json.Regrowth
import Lenient.Proofs.Json.Refusal
import Lenient.Proofs.Json.Production
import Lenient.Proofs.Catalog.History
import Lenient.Proofs.Json.Delivery
import Lenient.Proofs.Address.Acceptance
import Lenient.Proofs.Reader.Progress
import Lenient.Proofs.Address.Resumption
import Lenient.Proofs.Stream.Cutting
import Lenient.Proofs.Stream.Growth
import Lenient.Proofs.Text.Trimming
import Lenient.Proofs.Catalog.Loading
import Lenient.Proofs.Catalog.Filling
import Lenient.Proofs.Elapsed.Wording
import Lenient.Proofs.Address.Reporting
import Lenient.Proofs.Address.Legibility
import Lenient.Proofs.Catalog.Missing
import Lenient.Proofs.Json.Quoting
