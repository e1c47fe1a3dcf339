import LsmStore.Blocks.AccessPaths
import LsmStore.Blocks.RestartInterval
import LsmStore.Blocks.TableIterator
import LsmStore.LevelMetadata
import LsmStore.Logic.CrashRecovery
import LsmStore.Logic.Deadlock
import LsmStore.Logic.Exclusion
import LsmStore.Logic.FailedCompaction
import LsmStore.Logic.Files
import LsmStore.Logic.Invisibility
import LsmStore.Logic.Iteration
import LsmStore.Logic.SeekRequests
import LsmStore.Logic.UpdateCrash
import LsmStore.MergeLoop
import LsmStore.Selection
import LsmStore.SyncIterate
import LsmStore.Tasks
import LsmStore.Values.Deletion
import LsmStore.Values.DirtyFlag
import LsmStore.Values.Liveness
import LsmStore.Values.PageRoundTrip
import LsmStore.Values.Restart
import LsmStore.Wal.Acknowledgement
import LsmStore.Wal.Durability
import LsmStore.Wal.Sessions
import LsmStore.Wal.Stream
import LsmStore.Wal.Truncation
import LsmStore.WisckeyMerge
