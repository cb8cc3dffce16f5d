import Manticore.Arch.Acpi
import Manticore.Arch.Exception
import Manticore.Arch.Ioremap
import Manticore.Arch.Irq
import Manticore.Arch.Mmu
import Manticore.Arch.PageTable
import Manticore.Arch.Platform
import Manticore.Arch.Setup
import Manticore.Arch.SyscallEntry
import Manticore.Arch.TagWalk
import Manticore.Base.Bytes
import Manticore.Base.ChainSearch
import Manticore.Base.Circular
import Manticore.Base.DoublyLinked
import Manticore.Base.Linked
import Manticore.Base.Memory
import Manticore.Base.Numeral
import Manticore.Base.OnesComplement
import Manticore.Base.OrderedTree
import Manticore.Base.ProbedTable
import Manticore.Base.RadixTree
import Manticore.Base.Run
import Manticore.Base.SlotRing
import Manticore.Base.Span
import Manticore.Base.TreeWalk
import Manticore.Base.Word
import Manticore.Drivers.Pci
import Manticore.Drivers.PciBar
import Manticore.Drivers.PciCapability
import Manticore.Drivers.PciMsix
import Manticore.Drivers.VirtioNet
import Manticore.Drivers.VirtioNetOwners
import Manticore.Drivers.VirtioNetTx
import Manticore.Drivers.Virtqueue
import Manticore.Drivers.VirtqueueMemory
import Manticore.Drivers.VirtqueueUsed
import Manticore.Kernel.AtomicRingBuffer
import Manticore.Kernel.DeviceSpace
import Manticore.Kernel.Errno
import Manticore.Kernel.IoPort
import Manticore.Kernel.IoQueue
import Manticore.Kernel.Memory
import Manticore.Kernel.MemoryCanonical
import Manticore.Kernel.PageAllocator
import Manticore.Kernel.Printf
import Manticore.Kernel.PrintfConversion
import Manticore.Kernel.PrintfCursor
import Manticore.Kernel.PrintfNumber
import Manticore.Kernel.PrintfText
import Manticore.Kernel.Process
import Manticore.Kernel.RingBufferShared
import Manticore.Kernel.RingBufferSpsc
import Manticore.Kernel.RoundRobin
import Manticore.Kernel.Sched
import Manticore.Kernel.Syscall
import Manticore.Kernel.Vm
import Manticore.Kernel.VmAllocate
import Manticore.Kernel.VmFresh
import Manticore.Kernel.VmLoad
import Manticore.Kernel.VmOwnership
import Manticore.Kernel.VmTranslation
import Manticore.Kernel.VmspaceAlloc
import Manticore.Mm.KAllocator
import Manticore.Mm.Kmalloc
import Manticore.Mm.Kmem
import Manticore.Mm.KmemCache
import Manticore.Mm.KmemCreate
import Manticore.Mm.KmemDestroy
import Manticore.Mm.KmemLayout
import Manticore.Mm.KmemRun
import Manticore.Mm.KmemSlabs
import Manticore.Mm.Mmu
import Manticore.Mm.MmuFrame
import Manticore.Mm.MmuGrow
import Manticore.Mm.Slab
import Manticore.Mm.SlabRun
import Manticore.Usr.ArpCache
import Manticore.Usr.ArpReply
import Manticore.Usr.Epoll
import Manticore.Usr.InetAddr
import Manticore.Usr.Malloc
import Manticore.Usr.MallocAlloc
import Manticore.Usr.MallocHeap
import Manticore.Usr.MallocPage
import Manticore.Usr.MallocRecycle
import Manticore.Usr.MallocReuse
import Manticore.Usr.MallocRun
import Manticore.Usr.MallocSegment
import Manticore.Usr.Net
import Manticore.Usr.NetChecksum
import Manticore.Usr.NetInput
import Manticore.Usr.NetProgress
import Manticore.Usr.NetReceive
import Manticore.Usr.NetRefine
import Manticore.Usr.NetTables
import Manticore.Usr.NetTransmit
import Manticore.Usr.NetUdp
import Manticore.Usr.PacketBuf
import Manticore.Usr.SegmentQueue
import Manticore.Usr.SocketTable
