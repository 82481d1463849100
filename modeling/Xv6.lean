import Xv6.Lib.Bytes
import Xv6.Lib.Writes
import Xv6.Lib.Runs
import Xv6.Lib.Exec
import Xv6.Lib.Blocks
import Xv6.Lib.Walk
import Xv6.Lib.Residues
import Xv6.Lib.Ring
import Xv6.Lib.Mutex
import Xv6.Params
import Xv6.Log.Commit
import Xv6.Log.Crash
import Xv6.Log.Protocol
import Xv6.Log.Grouping
import Xv6.Log.Reserve
import Xv6.Bio.Cache
import Xv6.Bio.Refine
import Xv6.Bio.Starve
import Xv6.Fs.Layout
import Xv6.Fs.State
import Xv6.Fs.File
import Xv6.Fs.Own
import Xv6.Fs.Alloc
import Xv6.Fs.Bmap
import Xv6.Fs.Content
import Xv6.Fs.Writei
import Xv6.Fs.Inode
import Xv6.Fs.Dir
import Xv6.Fs.Path
import Xv6.Mkfs.Model
import Xv6.Mkfs.Append
import Xv6.Mkfs.Build
import Xv6.Mkfs.Main
import Xv6.Mkfs.Wellformed
import Xv6.Mkfs.Boot
import Xv6.Mkfs.Kernel
import Xv6.Fs.Namei
import Xv6.Sched.Table
import Xv6.Sched.Lottery
import Xv6.Sched.Steps
import Xv6.Sched.Tickets
import Xv6.Sched.Family
import Xv6.Sched.Wait
import Xv6.Sched.Kill
import Xv6.Sched.Smp
import Xv6.Pipe.Model
import Xv6.Pipe.Fifo
import Xv6.Pipe.Wakeup
import Xv6.Console.Model
import Xv6.Console.Line
import Xv6.Vm.Model
import Xv6.Vm.System
import Xv6.Vm.Tags
import Xv6.Vm.Rules
import Xv6.Vm.Space
import Xv6.Vm.Dealloc
import Xv6.Vm.Map
import Xv6.Vm.Alloc
import Xv6.Vm.Grow
import Xv6.Vm.Free
import Xv6.Vm.Kernel
import Xv6.Vm.Copy
import Xv6.Vm.Leak
import Xv6.Vm.History
import Xv6.Vm.Isolation
import Xv6.Exec.Model
import Xv6.Exec.Image
import Xv6.Exec.Load
import Xv6.Exec.Args
import Xv6.Exec.Segments
import Xv6.Exec.Writes
import Xv6.Exec.Panics
import Xv6.Syscall.Model
import Xv6.Syscall.Checked
import Xv6.Sleep.Model
import Xv6.Sleep.Wakeup
import Xv6.Ide.Model
import Xv6.Ide.Refine
import Xv6.Ide.Faults
import Xv6.Sh.Parser
import Xv6.Sh.Grammar
import Xv6.Sh.Scan
import Xv6.Sh.Sound
import Xv6.Sh.Complete
import Xv6.Sh.Parsecmd
import Xv6.Sh.Strings
import Xv6.Sh.Run
import Xv6.Sh.Wiring
import Xv6.Sh.Runcmd
import Xv6.Rand.Uniform
import Xv6.Print.Long
import Xv6.Grep.Match
import Xv6.Grep.Lines
import Xv6.Malloc.Model
import Xv6.Malloc.Free
import Xv6.Malloc.Alloc
import Xv6.Malloc.Runs
import Xv6.Malloc.Sbrk
import Xv6.Memmove.Overlap
import Xv6.Print.Int
import Xv6.Mp.Init
import Xv6.Fs.Bitmap
import Xv6.Lib.Links
import Xv6.Bio.Lru
import Xv6.Vm.Mappages
import Xv6.Spinlock.Cli
import Xv6.Fs.Files
