import Minima.Runs
import Minima.Chains
import Minima.Ilist
import Minima.ListTable
import Minima.Spans
import Minima.Holders
import Minima.SlabSpace
import Minima.SlabPolicy
import Minima.PageFrames
import Minima.Memory
import Minima.Slab
import Minima.SlabRuns
import Minima.Vma
import Minima.VmaRuns
import Minima.PageTables
import Minima.Paging
import Minima.Kmalloc
import Minima.Exhaustion
import Minima.ZeroFill
import Minima.Exec
import Minima.Blocks
import Minima.Ext2Blocks
import Minima.Ext2
import Minima.Ext2Dir
import Minima.Ext2Dirents
import Minima.Semaphore
import Minima.Census
import Minima.Ringbuf
import Minima.Keyboard
import Minima.Tasks
import Minima.Purge
import Minima.PurgeProtocol
import Minima.Deadlock
import Minima.PurgeLocks
import Minima.Pressure
import Minima.Floppy
import Minima.Traced
import Minima.Vfs
import Minima.VfsInv
import Minima.VfsChanges
import Minima.VfsDispatch
import Minima.VfsPaths
import Minima.Utils
import Minima.Sched
import Minima.Timer
import Minima.Interrupts
import Minima.Sections
import Minima.Balance
import Minima.Reaper
import Minima.Stage0
import Minima.Syscalls
import Minima.Drivers
import Minima.FloppyIrq
import Minima.Protect
import Minima.PfaInit
import Minima.Reserved
import Minima.Lru
import Minima.CylCache
import Minima.Dialogue
import Minima.FloppyBlocks
import Minima.FloppyPurge
import Minima.Elf
import Minima.ExecCall
import Minima.UserSpace
import Minima.ElfImage
import Minima.Ext2Map
import Minima.Ext2Mount
import Minima.MemfsFiles
import Minima.VfsReaddir
import Minima.MemfsTree
import Minima.VfsListing
import Minima.VfsUnmount
import Minima.MemfsFree
