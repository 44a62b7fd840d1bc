import TraceJvm.ClassInitFailure
import TraceJvm.SpillDiscipline
import TraceJvm.SilentResolution
import TraceJvm.SchedulerRoots
import TraceJvm.HandleOwnership
import TraceJvm.SynchronousExecution
import TraceJvm.MonitorWakeup
import TraceJvm.LinkedState
import TraceJvm.ClassCircularity
import TraceJvm.LookupTermination
import TraceJvm.HostChannelProtocol
import TraceJvm.HostOwnership
import TraceJvm.RunCleanup
import TraceJvm.ArrayPlacement
import TraceJvm.WorkerSettlement
import TraceJvm.WorkerInitialization
import TraceJvm.AnalysisReport
import TraceJvm.FrameStack
import TraceJvm.ExceptionDispatch
import TraceJvm.InferenceFixpoint
import TraceJvm.IntegerDivision
import TraceJvm.DescriptorParsing
import TraceJvm.LoadConstant
import TraceJvm.ArrayCopy
import TraceJvm.MultiArray
import TraceJvm.IdentityHash
import TraceJvm.ObjectGraph
import TraceJvm.ClassPathSplit
import TraceJvm.LineNumbers
import TraceJvm.NotifyDelivery
import TraceJvm.IdleSleep
import TraceJvm.ParkPermits
import TraceJvm.ThreadStart
import TraceJvm.ConstantValues
import TraceJvm.FieldAccess
import TraceJvm.AsyncDiscipline
import TraceJvm.LineEncoding
import TraceJvm.ScratchRemoval
import TraceJvm.HostChannelCodec
import TraceJvm.InotifyRead
import TraceJvm.HostEpoll
import TraceJvm.InotifyPoll
import TraceJvm.ByteAccounting
import TraceJvm.MethodIdentity
import TraceJvm.ArenaRegions
import TraceJvm.Reducibility
import TraceJvm.CompactionOrder
import TraceJvm.HashTable
import TraceJvm.WasmModule
