import DonutOS.Foundation.Path
import DonutOS.Foundation.Loop
import DonutOS.Foundation.Memory
import DonutOS.Foundation.Chunks
import DonutOS.Foundation.FirstFit
import DonutOS.Libc.Malloc
import DonutOS.Libc.HeapRuns
import DonutOS.Foundation.Bitmap
import DonutOS.Kernel.Paging
import DonutOS.Kernel.PagingSpec
import DonutOS.Kernel.PagingRuns
import DonutOS.Kernel.PageOwnership
import DonutOS.Kernel.PhysicalMemory
import DonutOS.Foundation.Ring
import DonutOS.Kernel.Ctx
import DonutOS.Kernel.CtxSpec
import DonutOS.Kernel.CtxRuns
import DonutOS.Kernel.CtxFrames
import DonutOS.Kernel.BootRuns
import DonutOS.Foundation.Stack
import DonutOS.Kernel.Isr
import DonutOS.Kernel.IsrSpec
import DonutOS.Kernel.ContextSwitch
import DonutOS.Foundation.NestLock
import DonutOS.Kernel.CriticalSection
import DonutOS.Kernel.Tty
import DonutOS.Kernel.TtyPage
import DonutOS.Foundation.Store
import DonutOS.Libc.Str
import DonutOS.Libc.StrSpec
import DonutOS.Libc.MemSpec
import DonutOS.Foundation.Digits
import DonutOS.Libc.Itoa
import DonutOS.Kernel.TtyPuts
import DonutOS.Kernel.Kb
import DonutOS.Kernel.TtyInput
import DonutOS.Foundation.LineEditor
import DonutOS.Kernel.TtyEdit
import DonutOS.Kernel.TtySession
import DonutOS.Kernel.TtyRead
import DonutOS.Kernel.TtyBounds
import DonutOS.Kernel.KbSpec
import DonutOS.Kernel.TtyTyping
import DonutOS.Foundation.RingBuffer
import DonutOS.Kernel.TtyHistory
import DonutOS.Kernel.Rtl8139
import DonutOS.Kernel.HeaderRing
import DonutOS.Kernel.HeaderHeap
import DonutOS.Kernel.Rtl8139Irq
import DonutOS.Foundation.Mailbox
import DonutOS.Kernel.TtyLoop
import DonutOS.Kernel.TtyShown
import DonutOS.Libc.MallocExact
import DonutOS.Libc.Calloc
import DonutOS.Libc.RequestSizes
import DonutOS.Libc.MemoryUsed
import DonutOS.Foundation.Parse
import DonutOS.Kernel.PacketParse
import DonutOS.Kernel.RxPointer
import DonutOS.Kernel.Pci
import DonutOS.Kernel.PciScan
import DonutOS.Kernel.Virtio
import DonutOS.Kernel.VirtioQueue
import DonutOS.Kernel.FrameHeap
import DonutOS.Foundation.Machine
import DonutOS.Libc.MallocSteps
import DonutOS.Foundation.ChainCut
import DonutOS.Libc.MallocPreempt
import DonutOS.Libc.MallocResume
import DonutOS.Libc.CallocNull
import DonutOS.Kernel.PageSearch
import DonutOS.Kernel.PagingSetup
import DonutOS.Kernel.SchedulerClock
import DonutOS.Kernel.SpawnProcess
import DonutOS.Kernel.Reaping
import DonutOS.Foundation.Rotation
import DonutOS.Kernel.RoundRobin
import DonutOS.Foundation.Fields
import DonutOS.Foundation.Wire
import DonutOS.Kernel.NetHeaders
import DonutOS.Kernel.HeaderParse
import DonutOS.Kernel.TcpRoundTrip
import DonutOS.Kernel.FrameParse
import DonutOS.Kernel.FrameRoundTrip
import DonutOS.Kernel.PacketPrint
import DonutOS.Kernel.PrintedMembers
import DonutOS.Kernel.TransportOffset
import DonutOS.Kernel.ByteOrder
import DonutOS.Kernel.RxCopy
import DonutOS.Kernel.HeaderReaders
import DonutOS.Kernel.TtyAccess
import DonutOS.Kernel.TtyEscape
import DonutOS.Kernel.TtyCells
import DonutOS.Kernel.HistoryWalk
import DonutOS.Libc.Printf
import DonutOS.Libc.PrintfFormat
import DonutOS.Libc.PrintfText
import DonutOS.Libc.PrintfBuild
import DonutOS.Libc.PrintfExpansion
import DonutOS.Libc.PrintfBounds
import DonutOS.Foundation.Align
import DonutOS.Kernel.VirtioFeatures
import DonutOS.Kernel.VirtioRings
import DonutOS.Kernel.VirtioChain
import DonutOS.Foundation.InterruptController
import DonutOS.Foundation.InterruptLines
import DonutOS.Foundation.Descriptors
import DonutOS.Kernel.Pic
import DonutOS.Kernel.PicRuns
import DonutOS.Kernel.Idt
import DonutOS.Kernel.IsrEntries
import DonutOS.Foundation.CheckedInt
import DonutOS.Foundation.FixedRotation
import DonutOS.Foundation.DepthBuffer
import DonutOS.Kernel.Donut
import DonutOS.Kernel.DonutSpec
import DonutOS.Kernel.DonutPicture
import DonutOS.Kernel.DonutScreen
import DonutOS.Kernel.PromptRuns
import DonutOS.Kernel.PacketRow
import DonutOS.Foundation.ListCursor
import DonutOS.Kernel.PacketViewer
import DonutOS.Kernel.ViewerRuns
import DonutOS.Kernel.ViewerKeys
import DonutOS.Kernel.ViewerStale
import DonutOS.Foundation.PulseTimer
import DonutOS.Foundation.IntervalTimer
import DonutOS.Kernel.Pit
import DonutOS.Kernel.SleepRuns
import DonutOS.Libc.Rand
import DonutOS.Kernel.Commands
import DonutOS.Libc.AtoiText
import DonutOS.Kernel.ColorCommand
