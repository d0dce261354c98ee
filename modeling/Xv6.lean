import Xv6.Param
import Xv6.Runs
import Xv6.Threads
import Xv6.Accounts
import Xv6.Notes
import Xv6.Bytes
import Xv6.Allocation
import Xv6.Ring
import Xv6.Sentinel
import Xv6.Circular
import Xv6.Spans
import Xv6.Fuel
import Xv6.Watched
import Xv6.Bio.Bcache
import Xv6.Bio.Held
import Xv6.Fs.Disk
import Xv6.Fs.Inode
import Xv6.Fs.Sysfile
import Xv6.Fs.Contents
import Xv6.Fs.Frame
import Xv6.Fs.Calls
import Xv6.Fs.Discipline
import Xv6.Fs.Blocks
import Xv6.Fs.Write
import Xv6.Fs.Truncate
import Xv6.Fs.Layers
import Xv6.Fs.Bodies
import Xv6.Fs.Usage
import Xv6.Fs.Entries
import Xv6.Fs.Room
import Xv6.Fs.Arrays
import Xv6.Fs.Paths
import Xv6.Fs.Holds
import Xv6.Fs.Descriptors
import Xv6.Fs.Header
import Xv6.Fs.Shared
import Xv6.Mkfs.Image
import Xv6.Mkfs.Append
import Xv6.Mkfs.Volume
import Xv6.Mkfs.Kernel
import Xv6.Mkfs.Balloc
import Xv6.Mkfs.Regions
import Xv6.File.Pipe
import Xv6.Proc.Table
import Xv6.Proc.Forest
import Xv6.Proc.Lifetime
import Xv6.Proc.Reaping
import Xv6.Proc.Tsleep
import Xv6.Sched.Cpus
import Xv6.Sched.Machine
import Xv6.Sched.Locks
import Xv6.Sched.Refines
import Xv6.Sched.Statements
import Xv6.Sched.Exclusive
import Xv6.Sched.Wakeup
import Xv6.Console
import Xv6.User.Semaphore
import Xv6.User.Yield
import Xv6.User.Umalloc
import Xv6.User.Heap
import Xv6.Proc.Kill
import Xv6.Syscall
import Xv6.File.Read
import Xv6.Vm.Mem
import Xv6.Vm.Owner
import Xv6.Vm.Copyout
import Xv6.Vm.Grow
import Xv6.Vm.Space
import Xv6.Vm.Proc
import Xv6.Vm.Fork
import Xv6.Vm.Exec
import Xv6.Vm.Reclaim
import Xv6.Vm.Args
import Xv6.Vm.Unmap
import Xv6.Vm.Mapping
import Xv6.Memmove
import Xv6.User.Regex
import Xv6.Chain
import Xv6.Queue
import Xv6.User.Frisbee
import Xv6.Mp
import Xv6.User.Grep
import Xv6.User.Sbrk
import Xv6.Ide
import Xv6.Proc.ThreadYield
import Xv6.Log
import Xv6.Vm.Spaces
