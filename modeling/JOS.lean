import JOS.General.Chain
import JOS.General.Count
import JOS.General.Run
import JOS.General.Log
import JOS.General.Except
import JOS.General.Rendezvous
import JOS.Inc.Mmu
import JOS.Kern.Pmap
import JOS.Kern.Env
import JOS.Kern.Sched
import JOS.Lib.Printfmt
import JOS.Kern.Syscall
import JOS.Kern.Trap
import JOS.Kern.Icode
import JOS.Kern.Machine
import JOS.Kern.Boot
import JOS.Kern.Spinlock
import JOS.Kern.MemInit
import JOS.Memory.UserMem
import JOS.Memory.Cputs
import JOS.Memory.Tables
import JOS.Memory.Pool
import JOS.Memory.Allocator
import JOS.Memory.Vm
import JOS.Memory.Space
import JOS.Memory.Footprint
import JOS.Memory.Directory
import JOS.Sched.Procs
import JOS.Sched.Entry
import JOS.Sched.Step
import JOS.Sched.OneCpu
import JOS.Sched.Teardown
import JOS.Sched.Kill
import JOS.Sched.Stop
import JOS.Sched.BigLock
import JOS.Calls.Failure
import JOS.Envs.Table
import JOS.Envs.Step
import JOS.Ipc.Blocked
import JOS.Ipc.Once
import JOS.Spaces.Touch
import JOS.Spaces.Calls
import JOS.Spaces.Load
import JOS.Spaces.KernelHalf
import JOS.Spaces.Confined
import JOS.Spaces.Refs
import JOS.Spaces.Reclaim
import JOS.Spaces.KernMap
import JOS.Spaces.Windows
import JOS.Lib.Printf
import JOS.Print.Backends
import JOS.Kern.Mpconfig
import JOS.Sched.Cpunum
import JOS.Envs.Ids
import JOS.Envs.Generations
import JOS.Ipc.Perm
import JOS.Envs.Flags
import JOS.General.Ring
import JOS.Memory.Total
import JOS.Sched.RoundRobin
import JOS.Memory.Ops
import JOS.Sched.Dispatch
import JOS.Sched.Loaded
import JOS.Spaces.Sound
import JOS.Spaces.Checked
import JOS.Memory.PageList
import JOS.Memory.BootAlloc
import JOS.Memory.Paging
import JOS.Memory.Regions
import JOS.Memory.Mmio
import JOS.Memory.PageMap
import JOS.Memory.PageInsert
import JOS.Memory.Absence
import JOS.Memory.Bytes
import JOS.Spaces.FaultFrame
import JOS.Spaces.Image
import JOS.Spaces.Program
import JOS.Spaces.Isolation
import JOS.Spaces.Invalidate
import JOS.Spaces.Stale
import JOS.Kern.Picirq
import JOS.Kern.Tlb
import JOS.Sched.Devices
import JOS.Spaces.NoPanic
import JOS.General.Queue
import JOS.Kern.Console
import JOS.Print.Console
import JOS.Lib.String
import JOS.Strings.Memmove
import JOS.Print.Snprintf
import JOS.Print.Format
import JOS.Print.Numbers
import JOS.Print.Strtol
import JOS.Kern.Kdebug
import JOS.Debug.Search
import JOS.Debug.Lookup
import JOS.Debug.UserTables
import JOS.General.TailPointer
import JOS.Memory.Relink
import JOS.Kern.Cga
import JOS.Print.Display
import JOS.Lib.Readline
import JOS.Monitor.Readline
import JOS.General.Tokens
import JOS.Kern.Monitor
import JOS.Monitor.Runcmd
import JOS.Monitor.Backtrace
import JOS.Sched.MpTable
import JOS.General.Overwrite
import JOS.Boot.Main
import JOS.Boot.Overread
import JOS.Spaces.RefCounts
import JOS.Lib.Nesting
import JOS.General.Sharing
import JOS.Fork.Uvpt
import JOS.Fork.Records
import JOS.Fork.Turns
import JOS.Fork.Shared
import JOS.Fork.Calls
import JOS.Fork.Invariant
import JOS.Fork.Tame
import JOS.Fork.Keep
import JOS.Fork.Traps
import JOS.Fork.Maps
import JOS.Fork.Answers
import JOS.Fork.Stores
import JOS.Fork.Sees
import JOS.Fork.Moves
import JOS.Fork.Memories
import JOS.Fork.Copy
import JOS.Fork.Isolated
import JOS.Kern.Trapentry
import JOS.Kern.Board
import JOS.Envs.Frames
import JOS.Envs.Saved
import JOS.Envs.Registers
