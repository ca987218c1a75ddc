import StreamLexer.Input.Flat
import StreamLexer.Input.SlotPair
import StreamLexer.Input.Walk
import StreamLexer.Inspect
import StreamLexer.Main
import StreamLexer.Proofs.Delivery
import StreamLexer.Proofs.Tracking
import StreamLexer.Proofs.Framing
import StreamLexer.Proofs.Alphabet
import StreamLexer.Proofs.Buffering
import StreamLexer.Proofs.Calls
import StreamLexer.Proofs.Transparency
import StreamLexer.Proofs.Grammar
import StreamLexer.Proofs.LongestMatch
import StreamLexer.Proofs.Loading
import StreamLexer.Proofs.Tiling
import StreamLexer.Proofs.Concatenation
import StreamLexer.Proofs.Faults
import StreamLexer.Proofs.LineColumn
import StreamLexer.Proofs.Placement
import StreamLexer.Proofs.Vocabulary
import StreamLexer.Proofs.Interleaving
import StreamLexer.Proofs.Persistence
import StreamLexer.Proofs.Layout
import StreamLexer.Proofs.Atomicity
import StreamLexer.Proofs.Demand
import StreamLexer.Proofs.Diagnosis
import StreamLexer.Proofs.Discipline
import StreamLexer.Proofs.Termination
import StreamLexer.Proofs.Listing
import StreamLexer.Proofs.Truncation
import StreamLexer.Proofs.Histories
import StreamLexer.Proofs.Arguments
import StreamLexer.Proofs.ExitStatus
