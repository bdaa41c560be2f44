import OrangeOs.Library.Bytes
import OrangeOs.Library.Exchange
import OrangeOs.Library.Runs
import OrangeOs.Library.Memory
import OrangeOs.Library.Radix
import OrangeOs.Library.LinkedList
import OrangeOs.Library.Outcome
import OrangeOs.Library.Pool
import OrangeOs.Library.Ring
import OrangeOs.Library.Blocks
import OrangeOs.Library.Overlay
import OrangeOs.Lib.VectorStore
import OrangeOs.Lib.StringStore
import OrangeOs.Filesystem.InodeDef
import OrangeOs.Filesystem.Common
import OrangeOs.Filesystem.Disk
import OrangeOs.Filesystem.Mapping
import OrangeOs.Filesystem.Write
import OrangeOs.Filesystem.Ownership
import OrangeOs.Filesystem.FileStream
import OrangeOs.Filesystem.Directory
import OrangeOs.Filesystem.Entry
import OrangeOs.Filesystem.Namespace
import OrangeOs.Filesystem.Create
import OrangeOs.Filesystem.Path
import OrangeOs.Filesystem.PathShape
import OrangeOs.Filesystem.ParsePath
import OrangeOs.Filesystem.WriteLimit
import OrangeOs.Filesystem.WriteShort
import OrangeOs.Filesystem.CreateSpec
import OrangeOs.Filesystem.Copies
import OrangeOs.Filesystem.Ledger
import OrangeOs.Filesystem.LedgerWrite
import OrangeOs.Filesystem.LedgerCreate
import OrangeOs.Filesystem.Mkfs
import OrangeOs.Filesystem.MkfsRegions
import OrangeOs.Filesystem.MkfsCopy
import OrangeOs.Filesystem.MkfsLayout
import OrangeOs.Filesystem.InodeTable
import OrangeOs.Filesystem.Exchanges
import OrangeOs.Filesystem.Interleaving
import OrangeOs.Kernel.Chdir
import OrangeOs.Kernel.Scheduler
import OrangeOs.Kernel.Wait
import OrangeOs.Kernel.ParentLink
import OrangeOs.Kernel.SleepLock
import OrangeOs.Kernel.Console
import OrangeOs.Kernel.ForkPath
import OrangeOs.Kernel.VirtualMemory
import OrangeOs.Kernel.ChunkList
import OrangeOs.Kernel.MemoryList
import OrangeOs.Kernel.ChunkDeque
import OrangeOs.Kernel.PageSearch
import OrangeOs.Kernel.PageAllocator
import OrangeOs.Kernel.ContinuousPages
import OrangeOs.Kernel.PageTable
import OrangeOs.Kernel.PageTree
import OrangeOs.Kernel.Tables
import OrangeOs.Kernel.Teardown
import OrangeOs.Kernel.MapMemory
import OrangeOs.Kernel.NullAlloc
import OrangeOs.Kernel.MapPage
import OrangeOs.Kernel.MapRollback
import OrangeOs.Kernel.CopyMemory
import OrangeOs.Kernel.ForkMemory
import OrangeOs.Kernel.Loader
import OrangeOs.Kernel.FailedFork
import OrangeOs.Kernel.Confined
import OrangeOs.Kernel.ConfinedTask
import OrangeOs.Kernel.RegionTable
import OrangeOs.Kernel.Exec
import OrangeOs.Kernel.FailedExec
import OrangeOs.Kernel.ExecArgs
import OrangeOs.Kernel.ExecBounds
import OrangeOs.Kernel.ExecResult
import OrangeOs.Kernel.SysWrite
import OrangeOs.Library.Cursor
import OrangeOs.Kernel.Streams
import OrangeOs.Kernel.CopyChunks
import OrangeOs.Kernel.GetLine
import OrangeOs.Kernel.SysRead
import OrangeOs.Kernel.OpenFiles
import OrangeOs.Kernel.DirectoryCalls
import OrangeOs.Kernel.UserSpace
import OrangeOs.Kernel.LoadSegment
import OrangeOs.Kernel.MapRange
import OrangeOs.Kernel.LoadImage
import OrangeOs.Kernel.LoadProgram
import OrangeOs.Driver.Rings
import OrangeOs.Driver.Virtqueue
import OrangeOs.Driver.Transport
import OrangeOs.Driver.Requests
import OrangeOs.Driver.Block
import OrangeOs.Driver.Gpu
import OrangeOs.Driver.UsedRing
import OrangeOs.Driver.Receive
import OrangeOs.Driver.Transmit
import OrangeOs.Driver.Descriptors
import OrangeOs.Kernel.Exhaustion
import OrangeOs.Driver.Operate
import OrangeOs.Driver.Backing
import OrangeOs.Driver.Attach
import OrangeOs.Lib.HeapList
import OrangeOs.Lib.HeapSearch
import OrangeOs.Lib.HeapSound
import OrangeOs.Lib.HeapRun
import OrangeOs.Lib.HeapUnits
import OrangeOs.Lib.Memmove
import OrangeOs.Lib.MathUtils
import OrangeOs.Lib.Common
import OrangeOs.Lib.Vsprintf
import OrangeOs.User.ImageViewer
import OrangeOs.Kernel.GetStrArg
import OrangeOs.Kernel.DynamicLoader
import OrangeOs.Kernel.Relocation
import OrangeOs.Kernel.RelocationValues
import OrangeOs.Library.Holdings
import OrangeOs.Kernel.Growth
import OrangeOs.Kernel.Housed
import OrangeOs.Kernel.HousedFork
import OrangeOs.Kernel.HousedExec
import OrangeOs.Kernel.Isolation
import OrangeOs.Library.Riscv
import OrangeOs.Kernel.ContextSwitch
import OrangeOs.Kernel.Traps
import OrangeOs.Kernel.KernelTraps
import OrangeOs.Kernel.SwitchContext
import OrangeOs.Kernel.Programs
import OrangeOs.Library.NameTree
import OrangeOs.Filesystem.Names
import OrangeOs.Kernel.NameCalls
import OrangeOs.Library.Sweep
import OrangeOs.Kernel.RoundRobin
import OrangeOs.Library.Dialogue
import OrangeOs.Driver.Negotiation
