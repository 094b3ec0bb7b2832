import Espl.Program.Basic
import Espl.Disk.Layout
import Espl.Program.Hoare
import Espl.Kernel.Sysfile
import Espl.Mkfs.Basic
import Espl.Kernel.Crash
import Espl.Kernel.Proc
import Espl.Kernel.Exec
import Espl.Program.Protocol
import Espl.Kernel.Transactions
import Espl.Disk.Volume
import Espl.Disk.Node
import Espl.Mkfs.Image
import Espl.Kernel.OnDisk
import Espl.Kernel.Allocation
import Espl.Program.Rules
import Espl.Sched.Basic
import Espl.Sched.Watch
import Espl.Sched.Sleep
import Espl.Sched.Pipe
import Espl.Sched.Table
import Espl.Sched.Slots
import Espl.Sched.SlotSteps
import Espl.Sched.Lifecycle
import Espl.Sched.Pids
import Espl.Sched.Kill
import Espl.Sched.Cpu
import Espl.Sched.Plain
import Espl.Sched.Switch
import Espl.Sched.Turns
import Espl.Sched.Exclusive
import Espl.Kernel.Supply
import Espl.Kernel.FileBytes
import Espl.Kernel.Lookup
import Espl.Kernel.Fresh
import Espl.Sched.Vigil
import Espl.Sched.Vigilant
import Espl.Sched.Wait
import Espl.Program.History
import Espl.Sched.Monitor
import Espl.Sched.Fifo
import Espl.Sched.Console
import Espl.Program.Links
import Espl.Sched.Ide
import Espl.Shell.Grammar
import Espl.Shell.Accepts
import Espl.Malloc.Umalloc
import Espl.Malloc.Heap
import Espl.Malloc.Allocate
import Espl.Malloc.Runs
import Espl.Sched.Calls
import Espl.Kernel.Footprint
import Espl.Program.Sections
import Espl.Kernel.Filewrite
import Espl.Kernel.Paging
import Espl.Kernel.Uvm
import Espl.Kernel.Growproc
import Espl.Kernel.Copyout
import Espl.Kernel.Setupkvm
import Espl.Kernel.Copyuvm
import Espl.Kernel.ExecHost
import Espl.Kernel.ExecArgs
import Espl.Kernel.ExecLoad
import Espl.Kernel.ExecImage
import Espl.Kernel.Deallocuvm
import Espl.Grep.Match
import Espl.Grep.Grep
import Espl.Kernel.Kbd
import Espl.Kernel.Signal
import Espl.Malloc.Requests
import Espl.Program.Demonic
import Espl.Shell.Run
import Espl.Shell.Redirections
import Espl.Shell.Plumbing
import Espl.Program.Path
import Espl.Ulib.Printf
import Espl.Shell.Prompt
import Espl.Calc.Atod
import Espl.Labs.Namelist
import Espl.Labs.Fgetname
import Espl.Libc.Stdlib
import Espl.Labs.Diff
import Espl.Kernel.Printint
import Espl.Ulib.Memmove
import Espl.Sched.Cli
import Espl.Sched.Interrupts
import Espl.Labs.Ascart
import Espl.Labs.Dirwatch
import Espl.Labs.Complines
import Espl.Esplsh.Split
import Espl.Esplsh.Quoting
import Espl.Esplsh.Run
import Espl.Labs.Bfix
import Espl.Kernel.Dirlink
import Espl.Kernel.CrashWrite
import Espl.Shell.Executes
