import LiveIndex.Main
import LiveIndex.Proofs.Index.Drift
import LiveIndex.Proofs.Number.Digits
import LiveIndex.Proofs.Query.Rendering
import LiveIndex.Scenario.Play
import LiveIndex.Proofs.Time.Reading
import LiveIndex.Proofs.Json.RoundTrip
import LiveIndex.Proofs.Snapshot.RoundTrip
import LiveIndex.Proofs.Index.Saving
import LiveIndex.Proofs.Index.Stored
import LiveIndex.Proofs.Intake.Order
import LiveIndex.Proofs.Intake.Handing
import LiveIndex.Proofs.Intake.Ledger
import LiveIndex.Proofs.Snapshot.Reopening
import LiveIndex.Proofs.Index.Content
import LiveIndex.Proofs.Index.Alone
import LiveIndex.Proofs.Disk.Walk
import LiveIndex.Proofs.Reconciliation.Session
import LiveIndex.Proofs.Reconciliation.Convergence
import LiveIndex.Proofs.Index.Updates
import LiveIndex.Proofs.Intake.Coalescing
import LiveIndex.Proofs.Intake.Agreement
import LiveIndex.Proofs.Index.Preparing
import LiveIndex.Proofs.Index.Waiting
import LiveIndex.Proofs.Snapshot.Faults
import LiveIndex.Proofs.Index.Ending
import LiveIndex.Proofs.Index.Lasting
import LiveIndex.Proofs.Path.Descent
import LiveIndex.Proofs.Disk.Reach
import LiveIndex.Proofs.Keeper.Refreshing
import LiveIndex.Proofs.Keeper.Stopping
import LiveIndex.Proofs.Sharing.Decisions
import LiveIndex.Proofs.Index.Searchable
import LiveIndex.Proofs.Watch.Discovery
import LiveIndex.Proofs.Watch.Lifecycle
import LiveIndex.Proofs.Intake.Ending
import LiveIndex.Proofs.Matching.Literal
import LiveIndex.Proofs.Index.Listening
import LiveIndex.Proofs.Index.Phrases
import LiveIndex.Proofs.Index.Ranking
import LiveIndex.Proofs.Index.Words
import LiveIndex.Proofs.Index.Removing
import LiveIndex.Proofs.Index.Batches
import LiveIndex.Proofs.Disk.Scan
import LiveIndex.Proofs.Intake.Timing
import LiveIndex.Proofs.Disk.Operations
import LiveIndex.Proofs.Snapshot.Replacing
import LiveIndex.Proofs.Watch.Condensing
import LiveIndex.Proofs.Watch.Unwatching
import LiveIndex.Proofs.Query.ShortCircuit
