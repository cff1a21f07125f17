import Xv6.Lib.Bytes
import Xv6.Lib.Writes
import Xv6.Lib.Trans
import Xv6.Log.Crash
import Xv6.Log.GroupInv
import Xv6.Bio.Refine
import Xv6.Bcache.Inv
import Xv6.Itable.NoLeak
import Xv6.Itable.Table
import Xv6.Pipe.Wakeup
import Xv6.Sched.ControlC
import Xv6.Sched.Intr
import Xv6.Sched.Owner
import Xv6.Sched.Protocol
import Xv6.Sched.Sleeplock
import Xv6.Sys.Args
import Xv6.Sys.Recycle
import Xv6.Sys.Ticks
import Xv6.Uthread.Sched
import Xv6.Uthread.Table
import Xv6.Uthread.Tid
import Xv6.Uthread.Lock
import Xv6.Uthread.Args
import Xv6.Uthread.Null
import Xv6.Uthread.Resume
import Xv6.Uthread.Switch
import Xv6.Vm.Fork
import Xv6.Vm.Protect
import Xv6.Fs.Fault
import Xv6.Fs.Resolve
import Xv6.Fs.Share
import Xv6.Syscall.Bounds
import Xv6.Uart.Ring
import Xv6.Virtio.Protocol
import Xv6.Heap.Runs
import Xv6.Sh.Parsecmd
import Xv6.Sh.Script
import Xv6.Grep.Grep
import Xv6.Libc.Memmove
import Xv6.Read.File
import Xv6.Exec.Fail
