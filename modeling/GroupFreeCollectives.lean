import GroupFreeCollectives.Lib.Positions
import GroupFreeCollectives.Lib.StepFunction
import GroupFreeCollectives.Lib.TaskGraph
import GroupFreeCollectives.Lib.Renaming
import GroupFreeCollectives.Lib.Tiling
import GroupFreeCollectives.Lib.DeviceInt
import GroupFreeCollectives.Lib.WordMix
import GroupFreeCollectives.Config
import GroupFreeCollectives.Env
import GroupFreeCollectives.Validation
import GroupFreeCollectives.Group
import GroupFreeCollectives.Hash
import GroupFreeCollectives.Token
import GroupFreeCollectives.GroupTokens
import GroupFreeCollectives.Device
import GroupFreeCollectives.Barrier
import GroupFreeCollectives.DataFlow
import GroupFreeCollectives.Execution
import GroupFreeCollectives.Schedule
import GroupFreeCollectives.ScheduleProgress
import GroupFreeCollectives.Replay
import GroupFreeCollectives.Sync
import GroupFreeCollectives.Kernels.Common
import GroupFreeCollectives.Kernels.Engines
import GroupFreeCollectives.Kernels.Fused
import GroupFreeCollectives.Kernels.FusedSpec
import GroupFreeCollectives.FusedCorrect
import GroupFreeCollectives.StepValue
import GroupFreeCollectives.Kernels.Pull
import GroupFreeCollectives.Kernels.Exact
import GroupFreeCollectives.Kernels.DeviceTiles
import GroupFreeCollectives.Kernels.DeviceKernels
import GroupFreeCollectives.Kernels.PullExact
import GroupFreeCollectives.Kernels.Accesses
import GroupFreeCollectives.Autotune
import GroupFreeCollectives.Tuner
import GroupFreeCollectives.Runtime.Registry
import GroupFreeCollectives.Runtime.State
import GroupFreeCollectives.Runtime.Chunks
import GroupFreeCollectives.Runtime.ChunkLayout
import GroupFreeCollectives.Runtime.Collectives
import GroupFreeCollectives.Runtime.P2p
import GroupFreeCollectives.Runtime.Run
import GroupFreeCollectives.Runtime.Entry
import GroupFreeCollectives.Runtime.P2pRun
import GroupFreeCollectives.Runtime.Atomicity
import GroupFreeCollectives.Runtime.Init
import GroupFreeCollectives.Runtime.Registration
import GroupFreeCollectives.Runtime.Session
import GroupFreeCollectives.Runtime.GroupIds
import GroupFreeCollectives.Runtime.Lifecycle
import GroupFreeCollectives.Runtime.Trace
import GroupFreeCollectives.Runtime.Agreement
import GroupFreeCollectives.Runtime.Reregister
import GroupFreeCollectives.Runtime.StepGrid
import GroupFreeCollectives.Runtime.Interleaving
import GroupFreeCollectives.Runtime.StreamOrder
import GroupFreeCollectives.Runtime.Paths
import GroupFreeCollectives.Runtime.Alignment
import GroupFreeCollectives.World.Operation
import GroupFreeCollectives.World.Part
import GroupFreeCollectives.World.FusedPart
import GroupFreeCollectives.World.Job
import GroupFreeCollectives.World.Program
import GroupFreeCollectives.World.Order
import GroupFreeCollectives.World.Values
import GroupFreeCollectives.World.Progress
import GroupFreeCollectives.World.Jobs
import GroupFreeCollectives.World.Sessions
import GroupFreeCollectives.World.Ordered
import GroupFreeCollectives.World.Transfer
import GroupFreeCollectives.World.LeftOut
import GroupFreeCollectives.World.OnDevice
import GroupFreeCollectives.World.Buffer
import GroupFreeCollectives.World.Shutdown
import GroupFreeCollectives.World.Exchange
import GroupFreeCollectives.World.Serial
import GroupFreeCollectives.World.Placed
import GroupFreeCollectives.World.Performs
import GroupFreeCollectives.World.Sequential
import GroupFreeCollectives.World.Reissue
import GroupFreeCollectives.World.Relaunch
import GroupFreeCollectives.World.Replayed
import GroupFreeCollectives.World.Polled
import GroupFreeCollectives.Runtime.Bootstrap
