import Kallisto.Verification.Http.Confinement
import Kallisto.Library.Contracts
import Kallisto.Verification.Cuckoo.Teardown
import Kallisto.Verification.Registry.Mounts
import Kallisto.Verification.Queue.Progress
import Kallisto.Verification.Engine.GracefulRestart
import Kallisto.Verification.Engine.Visibility
import Kallisto.Verification.Engine.Numbering
import Kallisto.Verification.Engine.Assembly
import Kallisto.Verification.Background.BatchOrder
import Kallisto.Verification.Background.Flusher
import Kallisto.Verification.Cuckoo.OwnBucket
import Kallisto.Verification.Cuckoo.Relocation
import Kallisto.Verification.Cuckoo.SecondChance
import Kallisto.Verification.Cuckoo.ShardBuckets
import Kallisto.Verification.Engine.CacheCoherence
import Kallisto.Verification.Engine.CacheTransparency
import Kallisto.Verification.Engine.ConcurrentPuts
import Kallisto.Verification.Engine.CrashConsistency
import Kallisto.Verification.Engine.DestroyPermanence
import Kallisto.Verification.Engine.Directories
import Kallisto.Verification.Engine.FailedDestroy
import Kallisto.Verification.Engine.FailedRequests
import Kallisto.Verification.Engine.ImmediateWrites
import Kallisto.Verification.Engine.MetadataFrame
import Kallisto.Verification.Engine.Publication
import Kallisto.Verification.Engine.Restart
import Kallisto.Verification.Engine.WriteOrder
import Kallisto.Verification.Http.Addresses
import Kallisto.Verification.Http.CheckAndSet
import Kallisto.Verification.Http.ConcurrentPatches
import Kallisto.Verification.Http.DeleteLatest
import Kallisto.Verification.Http.Durations
import Kallisto.Verification.Http.MergePatch
import Kallisto.Verification.Http.ReadBack
import Kallisto.Verification.Http.ResponseBodies
import Kallisto.Verification.Http.Subkeys
import Kallisto.Verification.Http.Timestamps
import Kallisto.Verification.Index.Occupancy
import Kallisto.Verification.Queue.Sequential
import Kallisto.Verification.Queue.Outcomes
