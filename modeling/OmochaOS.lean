import OmochaOS.Ipc.Preservation
import OmochaOS.Ipc.Rendezvous
import OmochaOS.Ipc.Outcome
import OmochaOS.Ipc.Delivery
import OmochaOS.Ipc.Deadlock
import OmochaOS.Kernel.Pending
import OmochaOS.Ipc.Notice
import OmochaOS.Ipc.Interrupts
import OmochaOS.Ipc.Exceptions
import OmochaOS.Kernel.Dispatch
import OmochaOS.Ipc.Fault
import OmochaOS.Ipc.Locality
import OmochaOS.Kernel.Systask
import OmochaOS.Fork.Safety
import OmochaOS.Kernel.ProcTable
import OmochaOS.Lib.DoublyLinkedList
import OmochaOS.Lib.DyadicBlocks
import OmochaOS.Memory.Buddy
import OmochaOS.Memory.Layout
import OmochaOS.Memory.BuddyInvariant
import OmochaOS.Memory.BuddyAllocate
import OmochaOS.Memory.BuddyRuns
import OmochaOS.Rbtree.Shape
import OmochaOS.Rbtree.Rotation
import OmochaOS.Rbtree.Insert
import OmochaOS.Rbtree.WellFormed
import OmochaOS.Rbtree.Remove
import OmochaOS.Memory.KmemRuns
import OmochaOS.Device.Lists
import OmochaOS.Device.Deferred
import OmochaOS.Systask.Privilege
import OmochaOS.Systask.Subscriptions
import OmochaOS.Core.Paging
import OmochaOS.Systask.QueryEnv
import OmochaOS.Memory.UnmapPages
import OmochaOS.Memory.CopyOnWrite
import OmochaOS.Memory.PageFault
import OmochaOS.Ipc.DeadlockExact
import OmochaOS.Kernel.SchedulerChoice
import OmochaOS.Memory.BuddyOverlap
import OmochaOS.Memory.BuddyRecords
import OmochaOS.Memory.BuddyRelease
import OmochaOS.Rbtree.InOrder
import OmochaOS.Memory.KmemSearch
import OmochaOS.Memory.KmemPools
import OmochaOS.Fs.FileBytes
import OmochaOS.Fs.EndOfFile
import OmochaOS.Rbtree.Footprint
import OmochaOS.Memory.KmemBlocks
import OmochaOS.Systask.Names
import OmochaOS.Driver.Ahci
import OmochaOS.Lib.PointerWalk
import OmochaOS.Driver.Madt
import OmochaOS.Core.InitMemory
import OmochaOS.Core.MemoryMap
import OmochaOS.Fs.BootSector
import OmochaOS.Fs.ShortName
import OmochaOS.Fs.Lookup
import OmochaOS.Core.DriverOrder
import OmochaOS.Hd.Drive
import OmochaOS.Hd.Transfer
import OmochaOS.Hd.Partitions
import OmochaOS.Memory.ExitProc
import OmochaOS.Kernel.Bitset
import OmochaOS.Klib.Memcpy
import OmochaOS.Lib.RingQueue
import OmochaOS.Tty.CircularBuffer
import OmochaOS.Klib.Itoa
import OmochaOS.Klib.Vsprintf
import OmochaOS.Tty.Modifiers
import OmochaOS.Memory.Execve
import OmochaOS.Memory.Sbrk
import OmochaOS.Memory.ForkProc
import OmochaOS.Ipc.MessageBytes
import OmochaOS.Ipc.ByteSystem
import OmochaOS.Ipc.PhysicalSteps
import OmochaOS.Ipc.PhysicalRuns
import OmochaOS.Ipc.Fairness
import OmochaOS.Memory.BuddyHistory
import OmochaOS.Memory.ExitFamily
import OmochaOS.Memory.ExitLedger
import OmochaOS.Fs.PathLookup
import OmochaOS.Memory.ElfLoader
import OmochaOS.Memory.ForkShare
import OmochaOS.Memory.ForkCopy
import OmochaOS.Memory.CopyOnWriteRuns
import OmochaOS.Memory.ForkChild
