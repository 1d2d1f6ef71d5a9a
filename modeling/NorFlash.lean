import NorFlash.Main
import NorFlash.Proofs.Outcome
import NorFlash.Proofs.Contents
import NorFlash.Proofs.Location
import NorFlash.Proofs.Reaction
import NorFlash.Proofs.Access
import NorFlash.Proofs.Burst
import NorFlash.Proofs.Transaction
import NorFlash.Proofs.Invariant
import NorFlash.Proofs.Landing
import NorFlash.Proofs.Commands
import NorFlash.Proofs.Cells
import NorFlash.Proofs.Erasing
import NorFlash.Proofs.Reading
import NorFlash.Proofs.Programming
import NorFlash.Proofs.Pages
import NorFlash.Proofs.FlatSpace
import NorFlash.Proofs.Countdown
import NorFlash.Proofs.Sessions
import NorFlash.Proofs.Attaching
import NorFlash.Proofs.Reachability
import NorFlash.Proofs.Exactness
import NorFlash.Proofs.PartialWrites
import NorFlash.Proofs.WriteAll
import NorFlash.Proofs.Bounds
import NorFlash.Proofs.Chronicle
import NorFlash.Proofs.Deliveries
import NorFlash.Proofs.Sending
import NorFlash.Proofs.Orders
import NorFlash.Proofs.Targets
import NorFlash.Proofs.Coherence
import NorFlash.Proofs.Discipline
import NorFlash.Proofs.Orderly
import NorFlash.Proofs.Operations
import NorFlash.Proofs.Terms
import NorFlash.Proofs.Payloads
import NorFlash.Proofs.Transfers
import NorFlash.Proofs.BurstBounds
import NorFlash.Proofs.Lockstep
import NorFlash.Proofs.Leftovers
import NorFlash.Proofs.EraseExactness
import NorFlash.Proofs.ChipSteps
import NorFlash.Proofs.NorRules
import NorFlash.Proofs.Recovery
import NorFlash.Proofs.Dialogue
import NorFlash.Proofs.AttachVerdict
import NorFlash.Proofs.Refusals
import NorFlash.Proofs.Totality
import NorFlash.Proofs.Cursor
import NorFlash.Proofs.Admission
import NorFlash.Proofs.Readback
import NorFlash.Proofs.Saving
import NorFlash.Proofs.Visits
import NorFlash.Proofs.EraseRecords
import NorFlash.Proofs.ChunkedWrite
import NorFlash.Proofs.Ledger
import NorFlash.Proofs.Tiling
import NorFlash.Proofs.Sights
import NorFlash.Proofs.Exchanges
import NorFlash.Proofs.FlatArray
import NorFlash.Proofs.Polling
import NorFlash.Proofs.Probing
import NorFlash.Proofs.Resting
import NorFlash.Proofs.Commanding
import NorFlash.Proofs.SectorChoice
import NorFlash.Proofs.BackendTexts
import NorFlash.Proofs.Components
import NorFlash.Proofs.Numerals
