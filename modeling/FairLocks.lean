import FairLocks.Dict
import FairLocks.OwnerSet
import FairLocks.ResourceType
import FairLocks.Registry
import FairLocks.Time
import FairLocks.Slot
import FairLocks.Request
import FairLocks.Fact
import FairLocks.Service.Basic
import FairLocks.Service.Move
import FairLocks.Service.Submit
import FairLocks.Service.Run
import FairLocks.Service.Progress
import FairLocks.Session
import FairLocks.Config
import FairLocks.Decimal.Binary64
import FairLocks.Decimal.Shortest
import FairLocks.Json.Fault
import FairLocks.Json.Text
import FairLocks.Json.Number
import FairLocks.Json.Skip
import FairLocks.Json.Reader
import FairLocks.Json.Record
import FairLocks.Json.Writer
import FairLocks.Codec
import FairLocks.FileTree
import FairLocks.Proofs.History
import FairLocks.Proofs.Sessions
import FairLocks.Proofs.Slot
import FairLocks.Proofs.Ledger
import FairLocks.Proofs.Permits
import FairLocks.Proofs.Line
import FairLocks.Proofs.Story
import FairLocks.Proofs.Step
import FairLocks.Proofs.Visits
import FairLocks.Proofs.Moves
import FairLocks.Proofs.Waiting
import FairLocks.Proofs.Kept
import FairLocks.Proofs.Orderly
import FairLocks.Proofs.Conservation
import FairLocks.Proofs.Moments
import FairLocks.Proofs.Fifo
import FairLocks.Proofs.Group
import FairLocks.Proofs.AllOrNothing
import FairLocks.Proofs.Rollback
import FairLocks.Proofs.Cascade
import FairLocks.Proofs.Wakeups
import FairLocks.Proofs.Tickets
import FairLocks.Proofs.Announcements
import FairLocks.Proofs.Events
import FairLocks.Proofs.Dict
import FairLocks.Proofs.Undrawn
import FairLocks.Proofs.Deletion
import FairLocks.Proofs.Served
import FairLocks.Proofs.Expiry
import FairLocks.Proofs.Registrations
import FairLocks.Proofs.Provenance
import FairLocks.Proofs.Refusals
import FairLocks.Proofs.Shifts
import FairLocks.Proofs.Twins
import FairLocks.Proofs.Eviction
import FairLocks.Proofs.Snapshots
import FairLocks.Proofs.Draining
import FairLocks.Proofs.Locality
import FairLocks.Proofs.Commuting
import FairLocks.Proofs.NormalForms
import FairLocks.Proofs.Listings
import FairLocks.Proofs.WrittenForms
import FairLocks.Proofs.Layouts
import FairLocks.Proofs.RoundTrips
import FairLocks.Proofs.Grammar
import FairLocks.Proofs.Settled
import FairLocks.Proofs.FaultyRecords
import FairLocks.Proofs.ConfigTexts
import FairLocks.Proofs.Attempt
import FairLocks.Proofs.Undisturbed
import FairLocks.Proofs.LockUnlock
import FairLocks.Proofs.Timely
import FairLocks.Proofs.Budgets
import FairLocks.Proofs.LastRegistration
import FairLocks.Proofs.HandOver
import FairLocks.Proofs.Batches
import FairLocks.Proofs.Serials
import FairLocks.Proofs.Interleaved
