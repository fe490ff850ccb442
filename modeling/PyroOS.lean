import PyroOS.Library.Sharing
import PyroOS.Library.Loop
import PyroOS.Library.Interaction
import PyroOS.Memory.Word
import PyroOS.Memory.Pmm
import PyroOS.Memory.Vmm
import PyroOS.Memory.Space
import PyroOS.Memory.View
import PyroOS.Memory.Mapping
import PyroOS.Memory.Pages
import PyroOS.Memory.Clone
import PyroOS.Memory.Fault
import PyroOS.Memory.Observe
import PyroOS.Memory.Room
import PyroOS.Process.Table
import PyroOS.Process.System
import PyroOS.Process.Calls
import PyroOS.Process.Reachable
import PyroOS.Process.Pids
import PyroOS.Process.Family
import PyroOS.Process.History
import PyroOS.Process.CopyOnWrite
import PyroOS.Machine.World
import PyroOS.Machine.Strings
import PyroOS.FileSystem.Layout
import PyroOS.FileSystem.Calls
import PyroOS.FileSystem.Rules
import PyroOS.FileSystem.Table
import PyroOS.FileSystem.Write
import PyroOS.FileSystem.Mount
import PyroOS.FileSystem.Refinement
import PyroOS.FileSystem.Durability
import PyroOS.FileSystem.Image
import PyroOS.Machine.Screen
import PyroOS.Syscall.Handler
import PyroOS.Syscall.Confinement
import PyroOS.Launch.Elf
import PyroOS.Launch.Load
import PyroOS.Launch.Args
import PyroOS.Launch.Paging
import PyroOS.Launch.Exec
import PyroOS.Launch.Writable
import PyroOS.Launch.Intact
import PyroOS.Launch.Leak
import PyroOS.Memory.Backed
import PyroOS.Memory.Duplicate
import PyroOS.Process.Independent
import PyroOS.Memory.Demand
import PyroOS.Process.KernelRange
import PyroOS.Process.ForkDemand
import PyroOS.Process.Promises
import PyroOS.Library.Rotation
import PyroOS.Task.Scheduler
import PyroOS.Library.ByteMemory
import PyroOS.Task.Switch
import PyroOS.Trap.Descriptors
import PyroOS.Trap.Cpu
import PyroOS.Trap.Frame
import PyroOS.Trap.Nesting
import PyroOS.Trap.Context
import PyroOS.Trap.Excursion
import PyroOS.Task.Preempt
import PyroOS.Task.Semaphore
import PyroOS.Task.Rounds
import PyroOS.Task.Mutex
import PyroOS.Library.RingBuffer
import PyroOS.Machine.Keyboard
import PyroOS.Library.FreeList
import PyroOS.Heap.Kernel
import PyroOS.Heap.User
import PyroOS.Memory.Pool
import PyroOS.Process.Attempts
import PyroOS.Process.Isolation
import PyroOS.Paging.Runs
import PyroOS.Paging.FailedMap
import PyroOS.Paging.Promised
import PyroOS.Paging.Origin
import PyroOS.Paging.Retries
import PyroOS.Library.Coalescing
import PyroOS.Heap.KernelCalls
import PyroOS.Heap.UserCalls
import PyroOS.Launch.Bounds
import PyroOS.Launch.Protect
import PyroOS.Launch.Line
import PyroOS.FileSystem.Names
import PyroOS.FileSystem.Failures
import PyroOS.Machine.Ata
import PyroOS.Machine.AtaProtocol
import PyroOS.Paging.Permissions
import PyroOS.Process.FailedFork
import PyroOS.Syscall.Sbrk
import PyroOS.Syscall.Sleep
import PyroOS.Syscall.Random
import PyroOS.Machine.Scancodes
import PyroOS.Program.Note
import PyroOS.Library.TextBuffer
import PyroOS.Library.TextLayout
import PyroOS.Machine.Cells
import PyroOS.Machine.Terminal
import PyroOS.Shell.Editor
import PyroOS.Shell.Session
import PyroOS.Library.Blocks
import PyroOS.Library.Congruential
import PyroOS.Heap.SharedBreak
