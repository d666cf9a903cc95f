import Relay.Functions.Session
import Relay.Proofs.Links
import Relay.Script.Session
import Relay.Shared.Store
import Relay.Text.Hex
import Relay.ValueRule
import Relay.Proofs.Residue
import Relay.Proofs.Tally
import Relay.Proofs.Change
import Relay.Proofs.StepDeed
import Relay.Proofs.Run
import Relay.Proofs.Representation
import Relay.Proofs.Pins
import Relay.Proofs.Course
import Relay.Proofs.Custody
import Relay.Proofs.Ownership
import Relay.Proofs.Balance
import Relay.Proofs.Remaining
import Relay.Proofs.Order
import Relay.Proofs.Traversal
import Relay.Proofs.Removal
import Relay.Proofs.Accounting
import Relay.Proofs.Listing
import Relay.Proofs.Passage
import Relay.Proofs.Lifetime
import Relay.Proofs.Answer
import Relay.Proofs.PlainList
import Relay.Proofs.Restore
import Relay.Proofs.Reference
import Relay.Proofs.Segment
import Relay.Proofs.Agreement
import Relay.Proofs.Simulation
import Relay.Proofs.Refinement
import Relay.Proofs.Settling
import Relay.Proofs.CutOff
import Relay.Proofs.Ledger
import Relay.Proofs.Unlinking
import Relay.Proofs.Verdict
import Relay.Proofs.Conservation
import Relay.Proofs.Bare
import Relay.Proofs.Intact
import Relay.Proofs.Traceless
import Relay.Proofs.Delivery
import Relay.Proofs.SelfRemoval
import Relay.Proofs.Nesting
import Relay.Proofs.Likeness
import Relay.Proofs.Decision
import Relay.Proofs.Comparison
import Relay.Proofs.Undo
import Relay.Proofs.Inspection
import Relay.Proofs.Manner
import Relay.Proofs.Interlude
import Relay.Proofs.Underway
import Relay.Proofs.Onward
import Relay.Proofs.Following
import Relay.Proofs.Transparency
import Relay.Proofs.Unfailing
import Relay.Proofs.Candor
import Relay.Proofs.ByValue
import Relay.Proofs.Holders
import Relay.Proofs.Capture
import Relay.Proofs.Families
import Relay.Proofs.Endings
import Relay.Proofs.Handover
