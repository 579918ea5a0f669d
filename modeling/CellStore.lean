import CellStore.Host
import CellStore.Proofs.Runs
import CellStore.Proofs.Findings
import CellStore.Proofs.Sweeping
import CellStore.Proofs.Regions
import CellStore.Proofs.Reading
import CellStore.Proofs.Retaining
import CellStore.Proofs.Transparency
import CellStore.Proofs.Maintenance
import CellStore.Proofs.LiveReaders
import CellStore.Proofs.Lookups
import CellStore.Proofs.Histories
import CellStore.Proofs.Isolation
import CellStore.Proofs.Limits
import CellStore.Proofs.PlainReads
import CellStore.Proofs.Unsettled
import CellStore.Proofs.Purging
import CellStore.Proofs.TimeRanges
import CellStore.Proofs.StoreOrder
import CellStore.Proofs.LastWrites
import CellStore.Proofs.Encoding
import CellStore.Proofs.Publications
import CellStore.Proofs.Streams
import CellStore.Proofs.Shadows
import CellStore.Proofs.LogicalDeletes
import CellStore.Proofs.Lifecycle
import CellStore.Proofs.FailedOperations
import CellStore.Proofs.Scans
import CellStore.Proofs.Hints
import CellStore.Proofs.Passes
import CellStore.Proofs.Spellings
import CellStore.Proofs.Formats
import CellStore.Proofs.NormalForms
import CellStore.Proofs.RunningWriters
import CellStore.Proofs.Chains
import CellStore.Proofs.Rejections
import CellStore.Proofs.Rows
import CellStore.Proofs.LaterReaders
import CellStore.Proofs.Merges
import CellStore.Proofs.Members
import CellStore.Proofs.Counts
import CellStore.Proofs.Ties
