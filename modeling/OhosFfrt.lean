import OhosFfrt.Basic
import OhosFfrt.Lib.Runs
import OhosFfrt.Lib.Arena
import OhosFfrt.Lib.WaitQueue
import OhosFfrt.RwLock.State
import OhosFfrt.RwLock.System
import OhosFfrt.RwLock.Moves
import OhosFfrt.RwLock.Exclusion
import OhosFfrt.Lib.Waiting
import OhosFfrt.RwLock.Queue
import OhosFfrt.RwLock.Wakeups
import OhosFfrt.Semaphore.State
import OhosFfrt.Semaphore.System
import OhosFfrt.Semaphore.Conservation
import OhosFfrt.Semaphore.Queue
import OhosFfrt.Semaphore.Wakeups
import OhosFfrt.Mpsc.Shared
import OhosFfrt.Mpsc.System
import OhosFfrt.Mpsc.Moves
import OhosFfrt.Mpsc.Permits
import OhosFfrt.Mpsc.Delivery
import OhosFfrt.Lib.Traces
import OhosFfrt.Mpsc.Waiters
import OhosFfrt.Mpsc.EndOfStream
import OhosFfrt.Semaphore.Fairness
import OhosFfrt.Lib.FifoLock
import OhosFfrt.Mutex.State
import OhosFfrt.Mutex.System
import OhosFfrt.Mutex.Moves
import OhosFfrt.Mutex.Refinement
import OhosFfrt.Notify.Moves
import OhosFfrt.Notify.Conservation
import OhosFfrt.Notify.Cancellation
import OhosFfrt.Notify.Exactness
import OhosFfrt.Broadcast.State
import OhosFfrt.Broadcast.System
import OhosFfrt.Broadcast.Moves
import OhosFfrt.Broadcast.Sequence
import OhosFfrt.Broadcast.Closing
import OhosFfrt.Lib.Mask
import OhosFfrt.Reactor.State
import OhosFfrt.Reactor.System
import OhosFfrt.Reactor.Readiness
import OhosFfrt.Fs.State
import OhosFfrt.Fs.System
import OhosFfrt.Fs.Refinement
import OhosFfrt.Fs.Owned
import OhosFfrt.Oneshot.Agreement
import OhosFfrt.Barrier.Rounds
import OhosFfrt.Lib.Calls
import OhosFfrt.Lib.Linear
import OhosFfrt.SetOnce.System
import OhosFfrt.SetOnce.Moves
import OhosFfrt.SetOnce.Linearizable
import OhosFfrt.SetOnce.Waiters
import OhosFfrt.OnceCell.Moves
import OhosFfrt.OnceCell.Once
import OhosFfrt.Watch.State
import OhosFfrt.Watch.System
import OhosFfrt.Watch.Moves
import OhosFfrt.Watch.Tracking
import OhosFfrt.Io.Traits
import OhosFfrt.Io.BufWriter
import OhosFfrt.Io.Cursor
import OhosFfrt.Io.Lossless
import OhosFfrt.Io.BufReader
import OhosFfrt.Io.Transparent
import OhosFfrt.Fs.Seeks
import OhosFfrt.Io.FailedSeek
import OhosFfrt.Io.WriterSeeks
import OhosFfrt.Fs.SeekFutures
import OhosFfrt.Io.SeekFutures
import OhosFfrt.Io.Duplex
import OhosFfrt.Io.Integrity
import OhosFfrt.Io.EndOfFile
import OhosFfrt.Io.Abandoned
import OhosFfrt.Task.Moves
import OhosFfrt.Task.Wakes
import OhosFfrt.Task.Aborts
import OhosFfrt.Task.Handle
import OhosFfrt.Task.Joins
import OhosFfrt.Task.Outcomes
import OhosFfrt.Lib.Paths
import OhosFfrt.Local.Moves
import OhosFfrt.Local.Tasks
import OhosFfrt.Local.Locks
import OhosFfrt.Local.Wakes
import OhosFfrt.Local.Current
import OhosFfrt.Mpsc.Draining
import OhosFfrt.JoinSet.System
import OhosFfrt.JoinSet.Moves
import OhosFfrt.JoinSet.Once
import OhosFfrt.JoinSet.Detached
import OhosFfrt.JoinSet.LocalTasks
import OhosFfrt.Io.BufRead
import OhosFfrt.Io.Copy
import OhosFfrt.Io.Script
import OhosFfrt.Io.Bidirectional
import OhosFfrt.Io.Sources
import OhosFfrt.Io.Chain
import OhosFfrt.Io.ReadBuf
import OhosFfrt.Io.Take
import OhosFfrt.Lib.Pieces
import OhosFfrt.Lib.Utf8
import OhosFfrt.Io.Finite
import OhosFfrt.Io.Delimited
import OhosFfrt.Lib.Sessions
import OhosFfrt.Io.Cancelled
import OhosFfrt.Io.Exact
import OhosFfrt.Lib.Bytes
import OhosFfrt.Io.Numbers
import OhosFfrt.Select.Discipline
import OhosFfrt.Reactor.Clearing
import OhosFfrt.Timer.Instant
import OhosFfrt.Timer.Sleep
import OhosFfrt.Timer.Early
import OhosFfrt.Timer.Waiter
import OhosFfrt.Timer.Interval
import OhosFfrt.Timer.Deadline
import OhosFfrt.Looper.Timer
import OhosFfrt.Lib.XorShift
import OhosFfrt.Select.Start
import OhosFfrt.Io.Views
import OhosFfrt.Reactor.Arming
import OhosFfrt.Signal.Unix
import OhosFfrt.Task.LocalKey
import OhosFfrt.Io.BufCopy
import OhosFfrt.Net.PollIo
import OhosFfrt.Timer.Timeout
