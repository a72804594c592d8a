import VoidOS.Transition
import VoidOS.SlotTable
import VoidOS.RingBuffer
import VoidOS.ByteMem
import VoidOS.LinkedList
import VoidOS.ElfImage
import VoidOS.ElfValidate
import VoidOS.ElfLayout
import VoidOS.Ipc
import VoidOS.Svc
import VoidOS.IpcEffects
import VoidOS.IpcFresh
import VoidOS.IpcFidelity
import VoidOS.Kheap
import VoidOS.KheapList
import VoidOS.KheapSafety
import VoidOS.KheapAlloc
import VoidOS.KheapRuns
import VoidOS.Malloc
import VoidOS.MallocTiles
import VoidOS.MallocHole
import VoidOS.MallocOps
import VoidOS.MallocAlloc
import VoidOS.MallocArena
import VoidOS.MallocInv
import VoidOS.MallocRuns
import VoidOS.MallocSafety
import VoidOS.MallocHeapOk
import VoidOS.KheapConserve
import VoidOS.IpcLifetime
import VoidOS.PageTree
import VoidOS.Vmm
import VoidOS.UserCopy
import VoidOS.IpcQueue
import VoidOS.CString
import VoidOS.SvcTable
import VoidOS.Ring
import VoidOS.Sched
import VoidOS.ElfLoad
import VoidOS.Process
import VoidOS.Lifecycle
import VoidOS.LifecycleInv
import VoidOS.LifecycleSim
import VoidOS.LifecycleRuns
import VoidOS.Bitmap
import VoidOS.Pmm
import VoidOS.Sbrk
import VoidOS.Frames
import VoidOS.KernelRegions
import VoidOS.Ownership
import VoidOS.TableTree
import VoidOS.AddressSpaces
import VoidOS.SpaceInv
import VoidOS.SpaceOps
import VoidOS.SpaceLoad
import VoidOS.SpaceDestroy
import VoidOS.KernelMem
import VoidOS.OpenFiles
import VoidOS.KernelFrames
import VoidOS.Supply
import VoidOS.BootMachine
import VoidOS.Isolation
import VoidOS.WrapAround
import VoidOS.CopyLaws
import VoidOS.MmapReserve
import VoidOS.PageGrowth
import VoidOS.FirstProcess
import VoidOS.ProcessLaws
import VoidOS.Calc
import VoidOS.Device
import VoidOS.EmbeddedImages
import VoidOS.PathFetch
import VoidOS.PathWalk
import VoidOS.RecvLoss
import VoidOS.SvcNames
import VoidOS.WaitStatus
import VoidOS.DoubleFree
import VoidOS.ElfReads
import VoidOS.ReallocBytes
import VoidOS.Memmove
import VoidOS.Tty
import VoidOS.ConsoleRead
import VoidOS.FileSteps
import VoidOS.FileStream
import VoidOS.TtyEcho
import VoidOS.Rtld
import VoidOS.Relocation
import VoidOS.Acpi
import VoidOS.AcpiMadt
import VoidOS.CwdPath
import VoidOS.TableLaws
import VoidOS.HugeLeaves
import VoidOS.WorkingDir
