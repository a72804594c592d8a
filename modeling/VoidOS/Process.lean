import VoidOS.ElfLoad
import VoidOS.Ipc
import VoidOS.Sched
import VoidOS.Voidfs

namespace VoidOS.Proc

open ByteMem PageTree Mm Elf Sched

def maxProcesses : ℕ := 64
def maxFds : ℕ := 16
def kthreadStackPages : ℕ := 16

inductive ProcState
  | unused
  | embryo
  | ready
  | running
  | blocked
  | zombie
deriving DecidableEq, Repr

inductive FdType
  | none
  | serial
  | tty
  | vfs
deriving DecidableEq, Repr

/-- `fd_entry_t`; an object is a file of the kernel VFS. -/
structure Fd where
  type : FdType
  object : Option ℕ
  offset : ℕ
deriving DecidableEq, Repr

/-- `process_t`. `cwd` is what stands before the terminator. `waitPid` is ghost: the argument of
the wait the process is blocked in. -/
structure Process where
  pid : ℤ
  ppid : ℤ
  state : ProcState
  exitStatus : ℤ
  thread : Option ℕ
  space : Space
  fds : List Fd
  ipcHandles : Option Ipc.HandleTable
  waitPid : ℤ
  cwd : List UInt8

/-- A child that has been reaped: by whom, which, and with which status. -/
structure Reaped where
  parent : ℤ
  pid : ℤ
  status : ℤ
deriving DecidableEq, Repr

/-- The kernel. The lists of frames given to the kernel heap and to kernel stacks and the logs
of exits and of reaped children are ghost. -/
structure Kernel where
  phys : Phys
  kernelPml4 : ℕ
  nxOk : Bool
  blobs : Blobs
  trampoline : ℕ
  nextStackVaddr : ℕ
  heapTop : ℕ
  procs : ℕ → Process
  nextPid : ℤ
  sched : Scheduler
  files : Vfs.Files
  root : Vfs.Node
  heapFrames : List ℕ
  stackFrames : List ℕ
  exits : List (ℤ × ℤ)
  reaps : List Reaped

/-- A signed result as the register that carries it. -/
def toU64 (v : ℤ) : ℕ := (v % 2 ^ 64).toNat

namespace Kernel

def setProc (k : Kernel) (i : ℕ) (p : Process) : Kernel :=
  { k with procs := Function.update k.procs i p }

/-- The outcome of a memory operation on the address space of a slot. -/
def setSpace (k : Kernel) (i : ℕ) (ph : Phys) (sp : Space) : Kernel :=
  { k.setProc i { k.procs i with space := sp } with phys := ph }

def processCurrent (k : Kernel) : Option ℕ := (k.sched.threads k.sched.current).proc

def processGet (k : Kernel) (pid : ℤ) : Option ℕ :=
  (List.range maxProcesses).find? fun i => (k.procs i).state ≠ .unused && (k.procs i).pid = pid

def frame (k : Kernel) : Frame := (k.sched.threads k.sched.current).frame

def setFrame (k : Kernel) (f : Frame) : Kernel :=
  let th := k.sched.threads k.sched.current
  { k with sched := k.sched.setThread k.sched.current { th with frame := f } }

/-- A system call that returns `v` to the running thread. -/
def ret (k : Kernel) (v : ℤ) : Kernel := k.setFrame (Function.update k.frame .rax (toU64 v))

/-- The loop of `alloc_kstack`, which ignores whether a page could be mapped. -/
def kstackLoop (kernelPml4 base : ℕ) : ℕ → ℕ → Phys → List ℕ → Phys × List ℕ × Bool
  | 0, _, ph, frames => (ph, frames, true)
  | n + 1, i, ph, frames =>
    let (ph, frame) := pmmAllocFrame ph
    if frame = 0 then (ph, frames, false)
    else
      let (ph, _) := vmmMapPage ph kernelPml4 (add64 base (i * pageSize)) frame
        (vmmPresent ||| vmmWrite)
      kstackLoop kernelPml4 base n (i + 1) ph (frames ++ [frame])

/-- `alloc_kstack`: the stack top, unless the frames run out. The address range is used up in
any case. -/
def allocKstack (k : Kernel) : Kernel × Option ℕ :=
  let base := k.nextStackVaddr
  let (ph, frames, ok) :=
    kstackLoop k.kernelPml4 base kthreadStackPages 0 k.phys k.stackFrames
  let k := { k with
    phys := ph
    stackFrames := frames
    nextStackVaddr := add64 base ((kthreadStackPages + 1) * pageSize) }
  (k, if ok then some (add64 base (kthreadStackPages * pageSize)) else none)

/-- One page of `heap_grow`; `false` when it gives up. -/
def heapGrowPage (k : Kernel) : Kernel × Bool :=
  let (ph, frame) := pmmAllocFrame k.phys
  if frame = 0 then ({ k with phys := ph }, false)
  else
    match vmmMapPage ph k.kernelPml4 k.heapTop frame (vmmPresent ||| vmmWrite) with
    | (ph, false) => ({ k with phys := pmmFreeFrame ph frame }, false)
    | (ph, true) => ({ k with
        phys := ph
        heapTop := add64 k.heapTop pageSize
        heapFrames := k.heapFrames ++ [frame] }, true)

/-- What an allocation from the kernel heap may do to the frames: it grows the heap by up to
`n` pages. -/
def heapGrow : ℕ → Kernel → Kernel
  | 0, k => k
  | n + 1, k =>
    match k.heapGrowPage with
    | (k, false) => k
    | (k, true) => heapGrow n k

def kthreadFrame (trampoline stackTop func arg : ℕ) : Frame
  | .ss => 0x10
  | .rsp => stackTop
  | .rflags => 0x202
  | .cs => 0x08
  | .rip => trampoline
  | .r12 => func
  | .r13 => arg
  | _ => 0

def userFrame (rip rsp : ℕ) : Frame
  | .ss => 0x1B
  | .rsp => rsp
  | .rflags => 0x202
  | .cs => 0x23
  | .rip => rip
  | _ => 0

def createKthread (k : Kernel) (func arg : ℕ) : Kernel × ℕ :=
  if maxThreads ≤ k.sched.nextTid then (k, 0)
  else
    let (k, top) := k.allocKstack
    let (s, t) := schedCreateKthread k.sched k.kernelPml4
      (kthreadFrame k.trampoline (top.getD 0) func arg) top.isSome
    ({ k with sched := s }, t)

def schedInit (k : Kernel) (idleFunc : ℕ) : Kernel :=
  let (k, idleTid) := { k with sched := bootThreads k.kernelPml4 }.createKthread idleFunc 0
  { k with sched := { k.sched with idleThread := idleTid } }

/-- `process_init`. The kernel process keeps the boot page tables. -/
def processInit (k : Kernel) : Kernel :=
  let noFds := List.replicate maxFds (⟨.none, none, 0⟩ : Fd)
  let kernel : Process :=
    ⟨0, -1, .running, 0, some k.sched.current, ⟨k.kernelPml4, [], 0, 0, 0⟩, noFds, none, 0,
      [Vfs.slash]⟩
  { k with
    procs := fun i => if i = 0 then kernel else { k.procs i with state := .unused, pid := -1 }
    nextPid := 1
    sched := k.sched.setThread k.sched.current
      { k.sched.threads k.sched.current with proc := some 0 } }

def initialFds : List Fd :=
  List.replicate 3 ⟨.tty, none, 0⟩ ++ List.replicate (maxFds - 3) ⟨.none, none, 0⟩

/-- `process_alloc`: the slot, unless the table is full or there is no frame. -/
def processAlloc (k : Kernel) (parent : ℤ) : Kernel × Option ℕ :=
  match (List.range maxProcesses).find? fun i => (k.procs i).state = .unused with
  | none => (k, none)
  | some i =>
    let (ph, cr3) := addressSpaceCreate k.phys k.kernelPml4
    if cr3 = 0 then ({ k with phys := ph }, none)
    else
      ({ k.setProc i ⟨k.nextPid, parent, .embryo, 0, none, ⟨cr3, [], 0, 0, 0⟩, initialFds, none, 0,
          [Vfs.slash]⟩
        with phys := ph, nextPid := k.nextPid + 1 }, some i)

def vfsRefs (fds : List Fd) (o : ℕ) : ℕ :=
  fds.countP fun fd => fd.type = .vfs && fd.object = some o

def noFd : Fd := ⟨.none, none, 0⟩

/-- `vfs_close_process_fds`: the open files and the descriptors. -/
def vfsCloseProcessFds (files : Vfs.Files) : List Fd → Vfs.Files × List Fd
  | [] => (files, [])
  | fd :: fds =>
    if fd.type = .vfs then
      let files := match fd.object with
        | none => files
        | some o => Vfs.refDec files o
      let (files, fds) := vfsCloseProcessFds files fds
      (files, noFd :: fds)
    else
      let (files, fds) := vfsCloseProcessFds files fds
      (files, fd :: fds)

/-- The references that the loop of `process_fork_current` over the descriptors takes. -/
def dupFds (files : Vfs.Files) : List Fd → Vfs.Files
  | [] => files
  | fd :: fds =>
    match fd.type, fd.object with
    | .vfs, some o => dupFds (Vfs.refInc files o) fds
    | _, _ => dupFds files fds

/-- `process_destroy`; the endpoints and names of the process are not part of this state. -/
def processDestroy (k : Kernel) (i : ℕ) : Kernel :=
  let p := k.procs i
  if p.state = .unused then k
  else
    let (ph, sp) := processDestroyUserSpace k.phys p.space
    let (files, fds) := vfsCloseProcessFds k.files p.fds
    { k.setProc i { p with
        space := sp, fds := fds, ipcHandles := none, state := .unused, pid := -1 } with
      phys := ph
      files := files }

/-- The end of a spawn or a fork: a kernel stack, the thread and the ready state. A failure
destroys the process. -/
def processStart (k : Kernel) (i : ℕ) (f : Frame) : Kernel × Bool :=
  match k.allocKstack with
  | (k, none) => (k.processDestroy i, false)
  | (k, some _) =>
    match schedAdoptThread k.sched f (k.procs i).space.cr3 i with
    | none => (k.processDestroy i, false)
    | some (s, t) =>
      ({ k.setProc i { k.procs i with thread := some t, state := .ready } with sched := s }, true)

def processSpawnUser (k : Kernel) (code : List UInt8) (parent : ℤ) : Kernel × ℤ :=
  if code.length = 0 then (k, -1)
  else
    match k.processAlloc parent with
    | (k, none) => (k, -1)
    | (k, some i) =>
      match loadCode code (pagesTo 0 code.length) 0 k.phys (k.procs i).space with
      | (ph, sp, false) => ((k.setSpace i ph sp).processDestroy i, -1)
      | (ph, sp, true) =>
        match allocPages vmmWrite (userStackSize / pageSize) (userStackTop - userStackSize) ph sp
          with
        | (ph, sp, false) => ((k.setSpace i ph sp).processDestroy i, -1)
        | (ph, sp, true) =>
          let k := k.setSpace i ph (brkInit k.nxOk sp (add64 userCodeBase code.length))
          match k.processStart i (userFrame userCodeBase (userStackTop - 16)) with
          | (k, false) => (k, -1)
          | (k, true) => (k, (k.procs i).pid)

def processSpawnElf (k : Kernel) (image : Image) (parent : ℤ) : Kernel × ℤ :=
  if image.size = 0 then (k, -1)
  else
    match elfValidate image with
    | .error e => (k, e.code)
    | .ok ctx =>
      match k.processAlloc parent with
      | (k, none) => (k, -1)
      | (k, some i) =>
        match elfLoadAll k.nxOk k.blobs ctx k.phys (k.procs i).space with
        | (ph, sp, .error e) => ((k.setSpace i ph sp).processDestroy i, e.code)
        | (ph, sp, .ok (entry, rsp)) =>
          match (k.setSpace i ph sp).processStart i (userFrame entry rsp) with
          | (k, false) => (k, ElfStatus.errNomem.code)
          | (k, true) => (k, (k.procs i).pid)

/-- The copy of the parent's handles; `none` if there is no room for the table. `grow` and
`heap` say what the kernel heap does. -/
def forkHandles (k : Kernel) (p : Process) (grow : ℕ) (heap : Bool) :
    Kernel × Option (Option Ipc.HandleTable) :=
  match p.ipcHandles with
  | none => (k, some none)
  | some t => (k.heapGrow grow, if heap then some (some t) else none)

def processForkCurrent (k : Kernel) (grow : ℕ) (heap : Bool) : Kernel :=
  match k.processCurrent with
  | none => k.ret vePerm
  | some i =>
    let p := k.procs i
    if p.pid = 0 then k.ret vePerm
    else if p.state = .zombie ∨ p.state = .blocked then k.ret vePerm
    else
      match k.processAlloc p.pid with
      | (k, none) => k.ret veNomem
      | (k, some c) =>
        match forkPages p.space.cr3 p.space.umap k.phys (k.procs c).space with
        | (ph, sp, false) => ((k.setSpace c ph sp).processDestroy c).ret veNomem
        | (ph, sp, true) =>
          let k := k.setSpace c ph { sp with
            heapStart := p.space.heapStart
            brkCurrent := p.space.brkCurrent
            brkPerm := p.space.brkPerm }
          match k.forkHandles p grow heap with
          | (k, none) => (k.processDestroy c).ret veNomem
          | (k, some handles) =>
            let k := { k.setProc c { k.procs c with ipcHandles := handles, fds := p.fds } with
              files := dupFds k.files p.fds }
            match k.processStart c (Function.update k.frame .rax 0) with
            | (k, false) => k.ret veNomem
            | (k, true) => k.ret (k.procs c).pid

/-- The end of `process_execve_current`: the process moves into the address space `sp`. -/
def execSwap (k : Kernel) (i : ℕ) (ph : Phys) (sp : Space) (entry rsp : ℕ) : Kernel :=
  let p := k.procs i
  let ph := (processDestroyUserSpace ph p.space).1
  let k := k.setSpace i ph sp
  let k := match p.thread with
    | none => k
    | some t =>
      { k with sched := k.sched.setThread t { k.sched.threads t with cr3 := sp.cr3 } }
  k.setFrame (Function.update (Function.update (Function.update k.frame .rip entry) .rsp rsp)
    .rax 0)

def processExecveCurrent (k : Kernel) (upath : ℕ) : Kernel :=
  match k.processCurrent with
  | none => k.ret vePerm
  | some i =>
    let p := k.procs i
    if p.pid = 0 then k.ret vePerm
    else if p.state = .zombie then k.ret vePerm
    else
      match copyFromUser k.phys.ram p.space.cr3 upath 31 with
      | none => k.ret veFault
      | some name =>
        match elfFindEmbedded k.blobs (cString name) with
        | .error e => k.ret e.code
        | .ok image =>
          match elfValidate image with
          | .error e => k.ret e.code
          | .ok ctx =>
            match addressSpaceCreate k.phys k.kernelPml4 with
            | (ph, cr3) =>
              if cr3 = 0 then { k with phys := ph }.ret veNomem
              else
                match elfLoadAll k.nxOk k.blobs ctx ph ⟨cr3, [], 0, 0, 0⟩ with
                | (ph, sp, .error e) =>
                  { k with phys := (processDestroyUserSpace ph sp).1 }.ret e.code
                | (ph, sp, .ok (entry, rsp)) => k.execSwap i ph sp entry rsp

def reparent (procs : ℕ → Process) (pid ppid : ℤ) : ℕ → Process :=
  fun j => if j < maxProcesses ∧ (procs j).state ≠ .unused ∧ (procs j).ppid = pid then
    { procs j with ppid := ppid } else procs j

def wakeParent (k : Kernel) (ppid : ℤ) : Kernel :=
  match k.processGet ppid with
  | none => k
  | some j =>
    let q := k.procs j
    if q.state = .blocked then
      let k := k.setProc j { q with state := .ready }
      match q.thread with
      | none => k
      | some t => { k with sched := k.sched.setState t .ready }
    else k

/-- `process_exit_current` for slot `i` up to the change of the thread state. -/
def exitProcess (k : Kernel) (i : ℕ) (status : ℤ) : Kernel :=
  let p := { k.procs i with exitStatus := status, state := .zombie }
  let k := { k.setProc i p with exits := k.exits ++ [(p.pid, status)] }
  let k := { k with procs := reparent k.procs p.pid p.ppid }
  let ph := releasePages k.phys p.space.cr3 p.space.umap
  let (files, fds) := vfsCloseProcessFds k.files p.fds
  let k := { k.setProc i
      { k.procs i with space := { p.space with umap := [] }, fds := fds } with
    phys := ph
    files := files }
  k.wakeParent (k.procs i).ppid

def tick (k : Kernel) : Option (Kernel × Bool) :=
  (schedTick k.sched).map fun r => ({ k with sched := r.1 }, r.2)

def stop (k : Kernel) (st : ThreadState) : Kernel :=
  { k with sched := k.sched.setState k.sched.current st }

def processExitCurrent (k : Kernel) (status : ℤ) : Option Kernel :=
  match k.processCurrent with
  | none => some (k.ret (-1))
  | some i =>
    if (k.procs i).pid = 0 then some (k.ret (-1))
    else ((k.exitProcess i status).stop .exited).tick.map Prod.fst

def isChild (k : Kernel) (parent pid : ℤ) (i : ℕ) : Bool :=
  (k.procs i).state ≠ .unused && (k.procs i).ppid = parent && (pid = -1 || (k.procs i).pid = pid)

/-- `process_try_reap`; the pid of the reaped child, 0 or an error, and the status. -/
def processTryReap (k : Kernel) (parent pid : ℤ) : Kernel × ℤ × ℤ :=
  match (List.range maxProcesses).find? fun i =>
    k.isChild parent pid i && (k.procs i).state = .zombie with
  | some i =>
    let c := k.procs i
    ({ k.processDestroy i with reaps := k.reaps ++ [⟨parent, c.pid, c.exitStatus⟩] },
      c.pid, c.exitStatus)
  | none =>
    if (List.range maxProcesses).any (k.isChild parent pid) then (k, 0, 0) else (k, veChild, 0)

/-- The store of the status by `process_wait_current`: the page of the pointer is checked, and
four bytes are stored. -/
def storeStatus (ph : Phys) (cr3 ustatus : ℕ) (status : ℤ) : Phys :=
  if ustatus = 0 then ph
  else if !pageOk (vmmGetPte ph.ram cr3 ustatus) true then ph
  else
    let phys := vmmVirtToPhys ph.ram cr3 ustatus
    if phys = 0 then ph
    else { ph with ram := store ph.ram phys (toU64 status) 4 }

def processWaitCurrent (k : Kernel) (pid : ℤ) (ustatus : ℕ) : Option Kernel :=
  match k.processCurrent with
  | none => some (k.ret vePerm)
  | some i =>
    let p := k.procs i
    match k.processTryReap p.pid pid with
    | (k, r, status) =>
      if 0 < r then
        some ({ k with phys := storeStatus k.phys p.space.cr3 ustatus status }.ret r)
      else if r < 0 then some (k.ret r)
      else
        let k := (k.setProc i { k.procs i with state := .blocked, waitPid := pid }).ret 0
        match (k.stop .blocked).tick with
        | none => none
        | some (k', true) => some k'
        | some (k', false) =>
          some { k'.setProc i { k'.procs i with state := .running } with
            sched := k'.sched.setState k.sched.current .running }

/-- A memory call on the address space of the running process; `err` without one. -/
def onSpace (k : Kernel) (err : ℤ) (f : Phys → Space → Phys × Space × ℤ) : Kernel :=
  match k.processCurrent with
  | none => k.ret err
  | some i =>
    let (ph, sp, r) := f k.phys (k.procs i).space
    (k.setSpace i ph sp).ret r

/-- A byte store by the running process, if its page tables allow it. -/
def userStore (k : Kernel) (v : ℕ) (b : UInt8) : Option Kernel :=
  match k.processCurrent with
  | none => none
  | some i =>
    let cr3 := (k.procs i).space.cr3
    if v < userLimit ∧ pageOk (vmmGetPte k.phys.ram cr3 v) true then
      some { k with phys := { k.phys with
        ram := Function.update k.phys.ram (vmmVirtToPhys k.phys.ram cr3 v) b } }
    else none

/-- The descriptor and the open file behind a VFS descriptor. -/
def vfsFd (k : Kernel) (i : ℕ) (fd : ℤ) : Option (ℕ × Vfs.VfsFile) :=
  if fd < 0 ∨ maxFds ≤ fd then none
  else
    match ((k.procs i).fds.getD fd.toNat noFd).type, ((k.procs i).fds.getD fd.toNat noFd).object with
    | .vfs, some o => (k.files o).map fun f => (o, f)
    | _, _ => none

def setFd (k : Kernel) (i fd : ℕ) (e : Fd) : Kernel :=
  k.setProc i { k.procs i with fds := (k.procs i).fds.set fd e }

def freeFd (fds : List Fd) : Option ℕ :=
  (List.range maxFds).find? fun fd => 3 ≤ fd && (fds.getD fd noFd).type = .none

/-- `sys_vfs_open`; `grow` and `object` say what `kmalloc` does and returns. -/
def sysVfsOpen (k : Kernel) (i upath flags grow : ℕ) (object : Option ℕ) : Kernel × ℤ :=
  let p := k.procs i
  match Vfs.lookup k.phys.ram p.space.cr3 k.root p.cwd upath with
  | .error e => (k, e)
  | .ok (node, _) =>
    if flags % 4 ≠ 0 then (k, Vfs.veAcces)
    else
      let k := k.heapGrow grow
      match object with
      | none => (k, veNomem)
      | some o =>
        match freeFd p.fds with
        | none => (k, veNomem)
        | some fd => ({ k.setFd i fd ⟨.vfs, some o, 0⟩ with
            files := Function.update k.files o (some ⟨node, 0, 1⟩) }, fd)

def sysVfsClose (k : Kernel) (i : ℕ) (fd : ℤ) : Kernel × ℤ :=
  match k.vfsFd i fd with
  | none => (k, Vfs.veBadf)
  | some (o, _) => ({ k.setFd i fd.toNat noFd with files := Vfs.refDec k.files o }, 0)

def sysVfsRead (k : Kernel) (i : ℕ) (fd : ℤ) (ubuf count : ℕ) : Kernel × ℤ :=
  if count = 0 then (k, if fd < 0 ∨ maxFds ≤ fd then Vfs.veBadf else 0)
  else
    match k.vfsFd i fd with
    | none => (k, Vfs.veBadf)
    | some (o, f) =>
      if f.node.kind ≠ .reg then (k, Vfs.veIsdir)
      else if f.node.data.length ≤ f.pos then (k, 0)
      else
        let bytes := Vfs.readBytes f count
        match copyToUser k.phys.ram (k.procs i).space.cr3 ubuf bytes with
        | (ram, false) => ({ k with phys := { k.phys with ram := ram } }, veFault)
        | (ram, true) => ({ k with
            phys := { k.phys with ram := ram }
            files := Function.update k.files o (some { f with pos := f.pos + bytes.length }) },
            bytes.length)

def sysVfsLseek (k : Kernel) (i : ℕ) (fd offset whence : ℤ) : Kernel × ℤ :=
  match k.vfsFd i fd with
  | none => (k, Vfs.veBadf)
  | some (o, f) =>
    if f.node.kind ≠ .reg then (k, Vfs.veIsdir)
    else
      match Vfs.seek f offset whence with
      | .error e => (k, e)
      | .ok npos =>
        ({ k with files := Function.update k.files o (some { f with pos := npos }) }, npos)

def sysVfsChdir (k : Kernel) (i upath : ℕ) : Kernel × ℤ :=
  let p := k.procs i
  match Vfs.lookup k.phys.ram p.space.cr3 k.root p.cwd upath with
  | .error e => (k, e)
  | .ok cur =>
    if cur.1.kind ≠ .dir then (k, Vfs.veNotdir)
    else
      match Vfs.cwdOf cur with
      | .error e => (k, e)
      | .ok cwd => (k.setProc i { p with cwd := cwd }, 0)

def sysVfsGetcwd (k : Kernel) (i ubuf size : ℕ) : Kernel × ℤ :=
  let p := k.procs i
  if size < p.cwd.length + 1 then (k, Vfs.veNametoolong)
  else
    match copyToUser k.phys.ram p.space.cr3 ubuf (p.cwd ++ [0]) with
    | (ram, false) => ({ k with phys := { k.phys with ram := ram } }, veFault)
    | (ram, true) => ({ k with phys := { k.phys with ram := ram } }, p.cwd.length)

/-- A call by the running process that returns a value. -/
def onProcess (k : Kernel) (f : ℕ → Kernel × ℤ) : Kernel :=
  match k.processCurrent with
  | none => k.ret vePerm
  | some i => (f i).1.ret (f i).2

/-- What the IPC calls do to the process that makes them: its handles change, and the kernel heap
may grow. -/
def setHandles (k : Kernel) (i : ℕ) (handles : Option Ipc.HandleTable) (grow : ℕ) : Kernel :=
  (k.heapGrow grow).setProc i { k.procs i with ipcHandles := handles }

end Kernel

/-- What can happen to the kernel. `registers` is user code changing its registers, `store` a
store by user code, `reap` the loop of pid 0, `handles` a call of the IPC layer. -/
inductive Op
  | spawnUser (code : List UInt8) (parent : ℤ)
  | spawnElf (image : Image) (parent : ℤ)
  | fork (grow : ℕ) (heap : Bool)
  | execve (upath : ℕ)
  | brk (addr : ℕ)
  | mmap (addr length prot flags : ℕ) (fd : ℤ) (offset : ℕ)
  | munmap (addr length : ℕ)
  | exit (status : ℤ)
  | fault (vector : ℕ)
  | wait (pid : ℤ) (ustatus : ℕ)
  | reap (pid : ℤ)
  | yield
  | tick
  | createKthread (func arg : ℕ)
  | schedExit
  | schedStart
  | heapGrow (n : ℕ)
  | registers (f : Frame)
  | store (v : ℕ) (b : UInt8)
  | vfsOpen (upath flags grow : ℕ) (object : Option ℕ)
  | vfsClose (fd : ℤ)
  | vfsRead (fd : ℤ) (ubuf count : ℕ)
  | vfsLseek (fd offset whence : ℤ)
  | vfsChdir (upath : ℕ)
  | vfsGetcwd (ubuf size : ℕ)
  | handles (handles : Option Ipc.HandleTable) (grow : ℕ) (r : ℤ)

/-- `none` means that the step does not return or is not possible. The object that `kmalloc`
returns for an open file is not in use. Every call is one step: system calls run with interrupts
off, and it is assumed that no timer tick falls into a spawn or a reap of `init_thread` and of the
loop of `kernel_main`, which run with interrupts on. -/
def step (k : Kernel) : Op → Option Kernel
  | .spawnUser code parent => some (k.processSpawnUser code parent).1
  | .spawnElf image parent => some (k.processSpawnElf image parent).1
  | .fork grow heap => some (k.processForkCurrent grow heap)
  | .execve upath => some (k.processExecveCurrent upath)
  | .brk addr => some (k.onSpace veInval fun ph sp => sysBrk ph sp addr)
  | .mmap addr length prot flags fd offset => some (k.onSpace vePerm fun ph sp =>
      sysMmap k.nxOk ph sp addr length prot flags fd offset)
  | .munmap addr length => some (k.onSpace vePerm fun ph sp => sysMunmap ph sp addr length)
  | .exit status => k.processExitCurrent status
  | .fault vector => k.processExitCurrent (if vector = 14 then 11 else 7)
  | .wait pid ustatus => k.processWaitCurrent pid ustatus
  | .reap pid => some (k.processTryReap 0 pid).1
  | .yield => (k.ret 0).tick.map Prod.fst
  | .tick => k.tick.map Prod.fst
  | .createKthread func arg => some (k.createKthread func arg).1
  | .schedExit => (Sched.schedExit k.sched).map fun s => { k with sched := s }
  | .schedStart => some { k with sched := Sched.schedStart k.sched }
  | .heapGrow n => some (k.heapGrow n)
  | .registers f => some (k.setFrame f)
  | .store v b => k.userStore v b
  | .vfsOpen upath flags grow object =>
    if object.all fun o => (k.files o).isNone then
      some (k.onProcess fun i => k.sysVfsOpen i upath flags grow object)
    else none
  | .vfsClose fd => some (k.onProcess fun i => k.sysVfsClose i fd)
  | .vfsRead fd ubuf count => some (k.onProcess fun i => k.sysVfsRead i fd ubuf count)
  | .vfsLseek fd offset whence => some (k.onProcess fun i => k.sysVfsLseek i fd offset whence)
  | .vfsChdir upath => some (k.onProcess fun i => k.sysVfsChdir i upath)
  | .vfsGetcwd ubuf size => some (k.onProcess fun i => k.sysVfsGetcwd i ubuf size)
  | .handles handles grow r => some (k.onProcess fun i => (k.setHandles i handles grow, r))

end VoidOS.Proc
