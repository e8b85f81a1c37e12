import Sto.Caches
import Sto.Statements
import Sto.StorageSize
import Sto.Flamegraph
import Sto.RegressionFractions
import Sto.RegressionScaling
import Sto.SampleCounts
import Sto.Ingestible
import Sto.FrameIds
import Sto.EndToEnd
import Sto.Growth
import Sto.Snapshot
import Sto.Listing
import Sto.Sampling
import Sto.Deployment
import Sto.Settling
import Sto.RegressionOrder
import Sto.EventFormat
import Sto.Isolation
import Sto.Convergence
import Sto.CallTree
import Sto.Library.PrefixForest
import Sto.UpsertLocks
import Sto.Library.RowLocks
import Sto.BatchSplit
import Sto.CountNesting
import Sto.Subtree
import Sto.ReadSafety
import Sto.RenderedForest
import Sto.Library.RowTree
import Sto.Rendering
import Sto.CallForest
import Sto.Library.ParentForest
import Sto.Collector
import Sto.Dag
import Sto.IngestOutcome
import Sto.ConcurrentIngest
