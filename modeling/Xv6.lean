import Xv6.Framework.WriteSeq
import Xv6.Log.Model
import Xv6.Log.CrashAtomic
import Xv6.Log.GroupCommit
import Xv6.Framework.Radix
import Xv6.Framework.Run
import Xv6.Vm.Kalloc
import Xv6.Vm.PageTable
import Xv6.Vm.UserMemory
import Xv6.Vm.State
import Xv6.Vm.File
import Xv6.Vm.Fault
import Xv6.Vm.Syscall
import Xv6.Vm.Process
import Xv6.Framework.Regions
import Xv6.Framework.Pool
import Xv6.Framework.Ring
import Xv6.Vm.Layout
import Xv6.Vm.AddressSpace
import Xv6.Vm.ReadOnly
import Xv6.Vm.Teardown
import Xv6.Vm.HeapBound
import Xv6.Vm.Fork
import Xv6.Vm.Exec
import Xv6.Vm.ExactWriteBack
import Xv6.Vm.Copyin
import Xv6.Framework.Tally
import Xv6.Log.Reserve
import Xv6.Bio.CommitBuffers
import Xv6.Vm.Ledger
import Xv6.Vm.Conserve
import Xv6.Vm.OneOwner
import Xv6.Framework.Fifo
import Xv6.Pipe.Pipe
import Xv6.Pipe.Fifo
import Xv6.Pipe.Sleepers
import Xv6.Proc.OneCpu
import Xv6.Proc.ExitWait
import Xv6.Proc.WaitInv
import Xv6.Proc.WaitSteps
import Xv6.Proc.Reaping
import Xv6.Framework.MemTree
import Xv6.Vm.Sv39
import Xv6.Vm.FlatMap
import Xv6.Vm.Words
import Xv6.Kernel.Table
import Xv6.Framework.Meets
import Xv6.Vm.Calm
import Xv6.Vm.Depart
import Xv6.Kernel.Clean
import Xv6.Vm.Contents
import Xv6.Vm.MmapArgs
import Xv6.Vm.Munmap
import Xv6.Vm.ShowsFile
import Xv6.Vm.KernelStores
import Xv6.Vm.FaultSafety
import Xv6.Framework.Scan
import Xv6.Vm.Copyinstr
import Xv6.Framework.Slots
import Xv6.Virtio.Disk
import Xv6.Virtio.Chains
import Xv6.Virtio.Requests
import Xv6.Virtio.Safety
import Xv6.Console.Console
import Xv6.Console.Discipline
import Xv6.Vm.AllOrNothing
import Xv6.Vm.Sbrk
import Xv6.Exec.Kexec
import Xv6.Exec.Image
import Xv6.Exec.Load
import Xv6.Exec.Stack
import Xv6.Exec.Outcome
import Xv6.Exec.Segments
import Xv6.Exec.Args
import Xv6.Exec.Commit
import Xv6.Exec.Failure
import Xv6.Lib.Memmove
import Xv6.Lib.Printint
import Xv6.User.Grep
import Xv6.Pipe.FailedCopy
import Xv6.Proc.Sleeplock
import Xv6.Framework.SortedRing
import Xv6.User.Malloc
import Xv6.User.FreeList
import Xv6.User.Allocate
import Xv6.User.HeapRuns
import Xv6.Proc.Spinlock
