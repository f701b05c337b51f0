import Tangram.Base.PopBin
import Tangram.Cache.Queue
import Tangram.Cluster.MapProgress
import Tangram.Cluster.Refinement
import Tangram.Cluster.Setup
import Tangram.Cluster.Staleness
import Tangram.Cluster.Survivors
import Tangram.Comm.SchedulerMailbox
import Tangram.Io.HdfsBlockReader
import Tangram.Io.ReadBlock
import Tangram.MapOutput.Combine
import Tangram.Partition.RangeIndexedSeqPartition
import Tangram.Plan.Context
import Tangram.Scheduler.BlockManager
import Tangram.Scheduler.DistributeManager
import Tangram.Scheduler.PlanIds
import Tangram.Scheduler.Replacement
import Tangram.Scheduler.Traversal
import Tangram.Scheduler.WriteManager
import Tangram.Storage.ConsistentCut
import Tangram.Storage.LastCheckpoint
import Tangram.Storage.SavedCheckpoint
