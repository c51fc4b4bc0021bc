import NonAxiomatic.Bag
import NonAxiomatic.Console
import NonAxiomatic.Double
import NonAxiomatic.Engine.Basic
import NonAxiomatic.Engine.Parts
import NonAxiomatic.Engine.Step
import NonAxiomatic.Inference.Conclusion
import NonAxiomatic.Inference.Rules
import NonAxiomatic.Json
import NonAxiomatic.Main
import NonAxiomatic.Memory
import NonAxiomatic.Proofs.Access
import NonAxiomatic.Proofs.Admission
import NonAxiomatic.Proofs.Agenda
import NonAxiomatic.Proofs.Arithmetic
import NonAxiomatic.Proofs.Atomicity
import NonAxiomatic.Proofs.BagRun
import NonAxiomatic.Proofs.Balance
import NonAxiomatic.Proofs.Blending
import NonAxiomatic.Proofs.Canonical
import NonAxiomatic.Proofs.Circularity
import NonAxiomatic.Proofs.Clock
import NonAxiomatic.Proofs.Commuting
import NonAxiomatic.Proofs.Companions
import NonAxiomatic.Proofs.Conduct
import NonAxiomatic.Proofs.Decision
import NonAxiomatic.Proofs.Delivery
import NonAxiomatic.Proofs.Docket
import NonAxiomatic.Proofs.Encoding
import NonAxiomatic.Proofs.EngineOrder
import NonAxiomatic.Proofs.EngineSound
import NonAxiomatic.Proofs.Evidence
import NonAxiomatic.Proofs.Exact
import NonAxiomatic.Proofs.Exchange
import NonAxiomatic.Proofs.Fading
import NonAxiomatic.Proofs.Faultless
import NonAxiomatic.Proofs.Filing
import NonAxiomatic.Proofs.Foremost
import NonAxiomatic.Proofs.Formed
import NonAxiomatic.Proofs.Gaps
import NonAxiomatic.Proofs.Growth
import NonAxiomatic.Proofs.Hundredths
import NonAxiomatic.Proofs.Identity
import NonAxiomatic.Proofs.Intake
import NonAxiomatic.Proofs.Journal
import NonAxiomatic.Proofs.Layouts
import NonAxiomatic.Proofs.Ledger
import NonAxiomatic.Proofs.Legible
import NonAxiomatic.Proofs.Linking
import NonAxiomatic.Proofs.MemorySound
import NonAxiomatic.Proofs.MissingConjunct
import NonAxiomatic.Proofs.Modest
import NonAxiomatic.Proofs.Nearest
import NonAxiomatic.Proofs.Nesting
import NonAxiomatic.Proofs.Network
import NonAxiomatic.Proofs.Places
import NonAxiomatic.Proofs.Pooling
import NonAxiomatic.Proofs.Precedence
import NonAxiomatic.Proofs.QueueRun
import NonAxiomatic.Proofs.Reading
import NonAxiomatic.Proofs.Rebuilding
import NonAxiomatic.Proofs.Records
import NonAxiomatic.Proofs.Recovery
import NonAxiomatic.Proofs.Relatedness
import NonAxiomatic.Proofs.Rendering
import NonAxiomatic.Proofs.Rereading
import NonAxiomatic.Proofs.Restatement
import NonAxiomatic.Proofs.Restoring
import NonAxiomatic.Proofs.Resubmission
import NonAxiomatic.Proofs.Retention
import NonAxiomatic.Proofs.Revising
import NonAxiomatic.Proofs.RoundTrip
import NonAxiomatic.Proofs.Rounding
import NonAxiomatic.Proofs.Run
import NonAxiomatic.Proofs.Said
import NonAxiomatic.Proofs.Scanning
import NonAxiomatic.Proofs.Schedule
import NonAxiomatic.Proofs.Schema
import NonAxiomatic.Proofs.Slicing
import NonAxiomatic.Proofs.Spelling
import NonAxiomatic.Proofs.Starvation
import NonAxiomatic.Proofs.Substance
import NonAxiomatic.Proofs.Succession
import NonAxiomatic.Proofs.Summing
import NonAxiomatic.Proofs.TotalOrder
import NonAxiomatic.Proofs.Undertaking
import NonAxiomatic.Proofs.Utterances
import NonAxiomatic.Proofs.Waning
import NonAxiomatic.Proofs.Wiring
import NonAxiomatic.Proofs.Written
import NonAxiomatic.Reader
import NonAxiomatic.Sentence
import NonAxiomatic.Service.Message
import NonAxiomatic.Service.Router
import NonAxiomatic.Settings
import NonAxiomatic.Sliced
import NonAxiomatic.Snapshot
import NonAxiomatic.Symbol
import NonAxiomatic.Term
import NonAxiomatic.Text.Basic
import NonAxiomatic.Text.Bytes
import NonAxiomatic.Text.Quoted
import NonAxiomatic.Toml
import NonAxiomatic.Truth
