import Coroc.Transition
import Coroc.ArrayHeap
import Coroc.TimerHeap
import Coroc.TimerMembers
import Coroc.TimerScan
import Coroc.TimerDaemon
import Coroc.TimerDelay
import Coroc.StackTimer
import Coroc.StealRing
import Coroc.ThreadPool
import Coroc.RunQueue
import Coroc.RunQueueBounds
import Coroc.Backtrace
import Coroc.FutexLock
import Coroc.PthreadBarrier
import Coroc.Sched
import Coroc.IdlePoll
import Coroc.GroupJoin
import Coroc.ReadyCount
import Coroc.AsyncPool
import Coroc.NetPoll
import Coroc.NetWait
import Coroc.EpollBatch
import Coroc.PollTable
import Coroc.RefCount
import Coroc.LockChain
import Coroc.CuckooHash
import Coroc.Vfs
import Coroc.Message
import Coroc.ParseIp
import Coroc.RingBuffer
import Coroc.ChanBuffer
import Coroc.LinkedList
import Coroc.Queue
import Coroc.GlobalQueue
import Coroc.Program
import Coroc.Protocol
import Coroc.SigMask
import Coroc.Runtime.State
import Coroc.Runtime.Commands
import Coroc.Runtime.Api
import Coroc.Runtime.Inv
import Coroc.Runtime.Frame
import Coroc.Runtime.ChanSteps
import Coroc.Runtime.SchedSteps
import Coroc.Runtime.SyncSteps
import Coroc.Runtime.Assert
import Coroc.Runtime.SchedSpecs
import Coroc.Runtime.ChanSpecs
import Coroc.Runtime.CallSpecs
import Coroc.Runtime.SelectSpecs
import Coroc.Runtime.SyncSpecs
import Coroc.Runtime.Safety
import Coroc.Runtime.HeldLocks
import Coroc.Runtime.Waiters
import Coroc.Runtime.Issued
import Coroc.Runtime.Records
import Coroc.Runtime.RefOps
import Coroc.Runtime.Ledger
import Coroc.Runtime.Waits
import Coroc.Runtime.Blocking
import Coroc.Runtime.Stages
import Coroc.Runtime.ClosedChans
import Coroc.Runtime.Turns
import Coroc.Runtime.CloseWakes
import Coroc.Runtime.CloseKeeps
import Coroc.Runtime.LateCalls
import Coroc.Runtime.ChanClose
import Coroc.Runtime.RefSends
import Coroc.Runtime.Mailbox
import Coroc.Runtime.MailFifo
import Coroc.Simulation
import Coroc.Switch.Lifecycle
import Coroc.Switch.Model
import Coroc.Switch.Inv
import Coroc.Switch.Calls
import Coroc.Switch.Steps
import Coroc.Switch.Safety
import Coroc.Switch.Progress
import Coroc.Congruential
import Coroc.NetStream
import Coroc.NetCalls
import Coroc.NetRelay
import Coroc.RandomSteal
import Coroc.LockedObject
import Coroc.AtomicQueue
import Coroc.Runtime.WaitFifo
