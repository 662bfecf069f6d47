import StagingIndex.Document.Codec
import StagingIndex.Index
import StagingIndex.Proofs.CanonicalTrees
import StagingIndex.Proofs.Flattening
import StagingIndex.Proofs.LoadedTrees
import StagingIndex.Proofs.LockProtocol
import StagingIndex.Proofs.Outdated
import StagingIndex.Proofs.Reopening
import StagingIndex.Proofs.Rewriting
import StagingIndex.Toml.Settings
import StagingIndex.Proofs.ForgottenDirectories
import StagingIndex.Proofs.ReplacedTables
import StagingIndex.Proofs.LatestEntries
import StagingIndex.Proofs.QueuedEdits
import StagingIndex.Proofs.EditedDirectories
import StagingIndex.Proofs.IncrementalUpdate
import StagingIndex.Proofs.AcceptedBatches
import StagingIndex.Proofs.CommittedContent
import StagingIndex.Proofs.CollapsedDirectories
import StagingIndex.Proofs.RefusedListings
import StagingIndex.Proofs.Examination
import StagingIndex.Proofs.DroppedSizes
import StagingIndex.Proofs.Progress
import StagingIndex.Proofs.ReusedNodes
import StagingIndex.Proofs.CheckedDecoding
import StagingIndex.Proofs.SplitTables
import StagingIndex.Proofs.VarintForms
