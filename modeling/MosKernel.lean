import MosKernel.Lib.Transition
import MosKernel.Partition
import MosKernel.System
import MosKernel.Permits
import MosKernel.Fifo
import MosKernel.TimedWaits
import MosKernel.Tokens
import MosKernel.MsgSteps
import MosKernel.PeerWakes
import MosKernel.LostWakes
import MosKernel.LockSpec
import MosKernel.Mutexes
import MosKernel.Inheritance
import MosKernel.HighestRuns
import MosKernel.GivenBack
import MosKernel.IdleReady
import MosKernel.Erasure
import MosKernel.Ticks
import MosKernel.Systimer
import MosKernel.Delays
import MosKernel.EnsureInit
import MosKernel.TimerQueue
import MosKernel.AsyncRt
import MosKernel.AsyncWakes
import MosKernel.AsyncTimers
import MosKernel.TimerHeap
import MosKernel.Yields
import MosKernel.TimeSlices
import MosKernel.Preemption
import MosKernel.UnlockYields
import MosKernel.CondWaits
import MosKernel.WaitOrder
import MosKernel.BarrierWaits
import MosKernel.Passes
import MosKernel.RunningTask
import MosKernel.TimeOuts
import MosKernel.Lcd
import MosKernel.RtosAdapter
import MosKernel.Lib.TextWrap
import MosKernel.TerminalText
import MosKernel.ShellInput
import MosKernel.TerminalRows
import MosKernel.LineEditor
import MosKernel.BitMap
import MosKernel.Queue
import MosKernel.WakeUps
import MosKernel.PriorityList
import MosKernel.Lib.StableOrder
import MosKernel.Lib.FixedVec
import MosKernel.Devices
import MosKernel.TrapDispatch
import MosKernel.Hart
import MosKernel.ContextSwitch
import MosKernel.Contexts
import MosKernel.KernelMoves
import MosKernel.LcdOutput
import MosKernel.Names
import MosKernel.Shell
import MosKernel.Console
import MosKernel.Closures
import MosKernel.StackUse
import MosKernel.Buffer
