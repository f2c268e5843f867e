import Buenos.Foundation.Run
import Buenos.Foundation.Refinement
import Buenos.Foundation.Fifo
import Buenos.Foundation.Ring
import Buenos.Foundation.Lcg
import Buenos.Foundation.Int32
import Buenos.Foundation.Tiling
import Buenos.Foundation.Threads
import Buenos.Foundation.Counter
import Buenos.Foundation.Chain
import Buenos.Foundation.Count
import Buenos.Foundation.Bytes
import Buenos.Foundation.ByteOrder
import Buenos.Foundation.Ledger
import Buenos.Lib.Bitmap
import Buenos.Lib.Libc
import Buenos.Lib.Stringcopy
import Buenos.Lib.Memcopy
import Buenos.Lib.Rand
import Buenos.Lib.Xprintf
import Buenos.Lib.XprintfPieces
import Buenos.Lib.XprintfBounds
import Buenos.Lib.XprintfNumbers
import Buenos.Lib.XprintfUint
import Buenos.Lib.XprintfWidth
import Buenos.Fs.Vfs
import Buenos.Fs.VfsPathname
import Buenos.Fs.VfsDeinit
import Buenos.Fs.VfsUnmount
import Buenos.Fs.VfsHandles
import Buenos.Fs.VfsOrder
import Buenos.Fs.VfsProgress
import Buenos.Fs.VfsMount
import Buenos.Fs.Tfs
import Buenos.Fs.TfsVolume
import Buenos.Fs.TfsCreate
import Buenos.Fs.TfsRemove
import Buenos.Fs.TfsTransfer
import Buenos.Fs.TfsRun
import Buenos.Fs.TfsAccess
import Buenos.Fs.TfsExact
import Buenos.Fs.Tfstool
import Buenos.Fs.TfstoolDelete
import Buenos.Fs.TfstoolWrite
import Buenos.Fs.TfstoolBitmap
import Buenos.Fs.Listing
import Buenos.Fs.TfsStore
import Buenos.Fs.TfsOpen
import Buenos.Fs.TfsFailure
import Buenos.Fs.TfsHandles
import Buenos.Fs.TfsAtomic
import Buenos.Fs.VfsSeek
import Buenos.Net.Pop
import Buenos.Proc.Process
import Buenos.Proc.ProcessInvariant
import Buenos.Proc.ProcessFinish
import Buenos.Proc.ProcessSpawn
import Buenos.Proc.ProcessJoin
import Buenos.Proc.ProcessIndices
import Buenos.Proc.ProcessTree
import Buenos.Proc.ProcessReclaim
import Buenos.Vm.Tlb
import Buenos.Vm.PageMap
import Buenos.Proc.Loader
import Buenos.Proc.Elf
import Buenos.Proc.ElfSizes
import Buenos.Proc.LoaderAccess
import Buenos.Vm.TlbIsolation
import Buenos.Vm.Pagepool
import Buenos.Vm.AddressSpace
import Buenos.Proc.ProcessPages
import Buenos.Proc.Image
import Buenos.Proc.ImageExistence
import Buenos.Net.PopOwnership
import Buenos.Net.PopReceive
import Buenos.Net.PopDelivery
import Buenos.Net.PopWakeup
import Buenos.Net.SocketPorts
import Buenos.Net.Network
import Buenos.Net.PopTransfer
import Buenos.Net.PopSend
import Buenos.Net.PopQuiet
import Buenos.Net.PopJourney
import Buenos.Net.PopLoopback
import Buenos.Kernel.Kmalloc
import Buenos.Vm.KernelMemory
import Buenos.Kernel.Thread
import Buenos.Kernel.ThreadInvariant
import Buenos.Kernel.ThreadRun
import Buenos.Kernel.RoundRobin
import Buenos.Kernel.SleepOrder
import Buenos.Kernel.Spinlock
import Buenos.Kernel.Interrupt
import Buenos.Kernel.Cswitch
import Buenos.Kernel.Semaphore
import Buenos.Kernel.SleepQueue
import Buenos.Kernel.SemaphoreCount
import Buenos.Kernel.SemaphoreRun
import Buenos.Kernel.SemaphoreOrder
import Buenos.Kernel.SemaphoreCounter
import Buenos.Fs.VfsMountFs
import Buenos.Drivers.Tty
import Buenos.Drivers.TtyInput
import Buenos.Drivers.TtyOutput
import Buenos.Drivers.Disk
import Buenos.Drivers.DiskQueue
import Buenos.Drivers.Bootargs
import Buenos.Proc.UserSemaphore
import Buenos.Userland.Heap
import Buenos.Userland.HeapLayout
import Buenos.Userland.HeapRun
import Buenos.Userland.HeapCalls
import Buenos.Userland.HeapSizes
import Buenos.Userland.HeapRealloc
import Buenos.Userland.Files
import Buenos.Userland.Cmp
import Buenos.Userland.Cp
import Buenos.Userland.LineInput
import Buenos.Userland.Strings
import Buenos.Userland.Calc
import Buenos.Userland.Shell
import Buenos.Userland.Show
import Buenos.Userland.Read
