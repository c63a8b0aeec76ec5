import LklPort.Bitmap.Area
import LklPort.BlkMerge.Law
import LklPort.Bootmem.Release
import LklPort.Checksum.Generic
import LklPort.Checksum.Transport
import LklPort.Disk.Transfer
import LklPort.Eth.Isolation
import LklPort.Eth.Release
import LklPort.Eth.Transmit
import LklPort.Idr.Law
import LklPort.ImageWriter.Basic
import LklPort.Irq.Delivery
import LklPort.Irq.Idle
import LklPort.Irq.Wakeup
import LklPort.Jbd.Law
import LklPort.Kfifo.Peek
import LklPort.Mount.Device
import LklPort.Mount.SafeMount
import LklPort.PageAlloc.Law
import LklPort.PageAlloc.Touches
import LklPort.PidMap.Law
import LklPort.PosixLock.Deadlock
import LklPort.PosixLock.Range
import LklPort.RadixTree.Law
import LklPort.Rbtree.Law
import LklPort.Resource.Law
import LklPort.RwSem.Law
import LklPort.Semaphore.Counting
import LklPort.Slab.Failure
import LklPort.SyscallQueue.Lifetime
import LklPort.SyscallQueue.Order
import LklPort.SyscallQueue.Routing
import LklPort.Syscalls.Marshalling
import LklPort.Threads.Fork
import LklPort.Threads.LastTask
import LklPort.Timer.Elapsed
import LklPort.TimerWheel.NextEvent
import LklPort.TimerWheel.Slack
