import RtAsync.Arch.TrapEntry
import RtAsync.Executor.Join
import RtAsync.Executor.Pend
import RtAsync.Futures.Mutex
import RtAsync.Timer.TimerQueue
import RtAsync.Futures.TimerDelay
import RtAsync.Executor.Skip
import RtAsync.Lib.RingBuf
import RtAsync.Platform.IrqLatch
import RtAsync.Platform.RxRing
import RtAsync.Platform.SerialRx
import RtAsync.Executor.Retired
import RtAsync.Executor.Fifo
import RtAsync.Executor.Slot
import RtAsync.Executor.Handles
import RtAsync.Executor.PrioritySet
import RtAsync.Executor.ExternalMsi
import RtAsync.Executor.Drain
import RtAsync.Futures.MutexFifo
import RtAsync.Futures.DelayTiming
import RtAsync.Platform.TimerClint
import RtAsync.Platform.Bus
import RtAsync.Executor.Scheduling
import RtAsync.Executor.WakePolls
import RtAsync.Platform.SerialTx
import RtAsync.Platform.Boot
import RtAsync.Platform.Plic
import RtAsync.Platform.IrqDispatch
import RtAsync.Executor.DeepestNesting
import RtAsync.Executor.Preempt
import RtAsync.Futures.Capacity
import RtAsync.Executor.Awaiting
import RtAsync.Platform.AtRest
import RtAsync.Executor.Respawn
