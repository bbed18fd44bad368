import UoftOs.MsgQueue.BrokenPipe
import UoftOs.MsgQueue.Deadlock
import UoftOs.MsgQueue.Delivery
import UoftOs.MsgQueue.Fifo
import UoftOs.MsgQueue.PollWakeups
import UoftOs.MsgQueue.ReaderEvents
import UoftOs.MsgQueue.ReaderWakeups
import UoftOs.MsgQueue.RingBufferFifo
import UoftOs.MsgQueue.WholeReads
import UoftOs.MsgQueue.WholeWrites
import UoftOs.MsgQueue.WaiterLists
import UoftOs.MsgQueue.WaiterPointers
import UoftOs.MsgQueue.WriterEvents
import UoftOs.FileSystem.RemovedEntries
import UoftOs.FileSystem.BitSearch
import UoftOs.FileSystem.Driver
import UoftOs.FileSystem.Accounting
import UoftOs.FileSystem.BlockAccounting
import UoftOs.FileSystem.Failures
import UoftOs.FileSystem.InodeAccounting
import UoftOs.FileSystem.Consistent
import UoftOs.FileSystem.Extents
import UoftOs.FileSystem.FileBytes
import UoftOs.FileSystem.Growing
import UoftOs.FileSystem.Isolation
import UoftOs.Lib.Rings
import UoftOs.MsgQueue.HandleAccounting
import UoftOs.MsgQueue.IntrusiveList
import UoftOs.MsgQueue.MutexValidator
import UoftOs.MsgQueue.PollChecks
import UoftOs.MsgQueue.Refusals
import UoftOs.FileSystem.Exhaustion
import UoftOs.FileSystem.Releasing
import UoftOs.MsgQueue.PollCount
import UoftOs.FileSystem.RoundTrips
import UoftOs.MsgQueue.ProdconProgress
import UoftOs.FileSystem.Sessions
