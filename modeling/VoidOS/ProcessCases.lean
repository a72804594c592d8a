import VoidOS.Process

namespace VoidOS.Proc

open Mm Elf Sched ByteMem

/-- Nothing but frames, kernel addresses and their lists has changed. -/
structure SameTable (k k' : Kernel) : Prop where
  procs : k'.procs = k.procs
  nextPid : k'.nextPid = k.nextPid
  sched : k'.sched = k.sched
  files : k'.files = k.files
  root : k'.root = k.root
  exits : k'.exits = k.exits
  reaps : k'.reaps = k.reaps

section Table

variable {k k' k'' : Kernel}

theorem SameTable.refl (k : Kernel) : SameTable k k := ⟨rfl, rfl, rfl, rfl, rfl, rfl, rfl⟩

theorem SameTable.trans (h : SameTable k k') (h' : SameTable k' k'') : SameTable k k'' :=
  ⟨h'.procs.trans h.procs, h'.nextPid.trans h.nextPid, h'.sched.trans h.sched,
    h'.files.trans h.files, h'.root.trans h.root, h'.exits.trans h.exits, h'.reaps.trans h.reaps⟩

theorem allocKstack_same (k : Kernel) : SameTable k k.allocKstack.1 :=
  ⟨rfl, rfl, rfl, rfl, rfl, rfl, rfl⟩

theorem heapGrowPage_same (k : Kernel) : SameTable k k.heapGrowPage.1 := by
  unfold Kernel.heapGrowPage
  dsimp only
  split_ifs
  · exact ⟨rfl, rfl, rfl, rfl, rfl, rfl, rfl⟩
  · split <;> exact ⟨rfl, rfl, rfl, rfl, rfl, rfl, rfl⟩

theorem heapGrow_same (n : ℕ) (k : Kernel) : SameTable k (k.heapGrow n) := by
  induction n generalizing k with
  | zero => exact .refl k
  | succ n ih =>
    have hp := heapGrowPage_same k
    rw [Kernel.heapGrow]
    split
    · rename_i hg
      rwa [hg] at hp
    · rename_i k₁ hg
      rw [hg] at hp
      exact hp.trans (ih k₁)

theorem forkHandles_same {p : Process} {grow : ℕ} {heap : Bool}
    {r : Option (Option Ipc.HandleTable)} (hh : k.forkHandles p grow heap = (k', r)) :
    SameTable k k' := by
  unfold Kernel.forkHandles at hh
  split at hh
  · cases hh
    exact .refl k
  · cases hh
    exact heapGrow_same grow k

theorem tick_eq_some {b : Bool} (h : k.tick = some (k', b)) :
    ∃ sc, schedTick k.sched = some (sc, b) ∧ k' = { k with sched := sc } := by
  unfold Kernel.tick at h
  obtain ⟨⟨sc, b'⟩, ht, heq⟩ := Option.map_eq_some_iff.mp h
  obtain ⟨rfl, rfl⟩ := Prod.mk.inj heq
  exact ⟨sc, ht, rfl⟩

/-- The operations on threads and the kernel heap, and what user code does by itself. -/
def Op.Aside : Op → Prop
  | .yield | .tick | .createKthread .. | .schedExit | .schedStart | .heapGrow _ | .registers _
  | .store .. => True
  | _ => False

theorem step_aside {op : Op} (hop : op.Aside) (hs : step k op = some k') :
    k'.procs = k.procs ∧ k'.files = k.files ∧ k'.root = k.root := by
  cases op with
  | yield =>
    obtain ⟨⟨k₁, b⟩, ht, rfl⟩ := Option.map_eq_some_iff.mp hs
    obtain ⟨sc, -, rfl⟩ := tick_eq_some ht
    exact ⟨rfl, rfl, rfl⟩
  | tick =>
    obtain ⟨⟨k₁, b⟩, ht, rfl⟩ := Option.map_eq_some_iff.mp hs
    obtain ⟨sc, -, rfl⟩ := tick_eq_some ht
    exact ⟨rfl, rfl, rfl⟩
  | createKthread func arg =>
    cases hs
    unfold Kernel.createKthread
    split <;> exact ⟨rfl, rfl, rfl⟩
  | schedExit =>
    obtain ⟨sc, -, rfl⟩ := Option.map_eq_some_iff.mp hs
    exact ⟨rfl, rfl, rfl⟩
  | schedStart | registers f =>
    cases hs
    exact ⟨rfl, rfl, rfl⟩
  | heapGrow n =>
    cases hs
    exact ⟨(heapGrow_same n k).procs, (heapGrow_same n k).files, (heapGrow_same n k).root⟩
  | store v b =>
    replace hs : k.userStore v b = some k' := hs
    unfold Kernel.userStore at hs
    split at hs
    · cases hs
    · dsimp only at hs
      split_ifs at hs
      cases hs
      exact ⟨rfl, rfl, rfl⟩
  | _ => exact hop.elim

end Table

inductive Slotted (k : Kernel) (parent : ℤ) : Kernel → Option ℕ → Prop
  | full : Slotted k parent k none
  | noSpace {ph : Phys} : addressSpaceCreate k.phys k.kernelPml4 = (ph, 0) →
      Slotted k parent { k with phys := ph } none
  | embryo {ph : Phys} {cr3 c : ℕ} : c < maxProcesses → (k.procs c).state = .unused →
      addressSpaceCreate k.phys k.kernelPml4 = (ph, cr3) → cr3 ≠ 0 →
      Slotted k parent { k.setProc c ⟨k.nextPid, parent, .embryo, 0, none, ⟨cr3, [], 0, 0, 0⟩,
        Kernel.initialFds, none, 0, [Vfs.slash]⟩ with
          phys := ph, nextPid := k.nextPid + 1 } (some c)

theorem slotted {k k' : Kernel} {parent : ℤ} {oc : Option ℕ}
    (ha : k.processAlloc parent = (k', oc)) : Slotted k parent k' oc := by
  unfold Kernel.processAlloc at ha
  split at ha
  · cases ha
    exact .full
  rename_i c hfind
  have hlt := List.mem_range.mp (List.mem_of_find?_eq_some hfind)
  have hun : (k.procs c).state = .unused := by simpa using List.find?_some hfind
  cases hc : addressSpaceCreate k.phys k.kernelPml4 with
  | mk ph cr3 =>
    rw [hc] at ha
    dsimp only at ha
    split at ha
    · rename_i hz
      cases ha
      exact .noSpace (hz ▸ hc)
    · rename_i hne
      cases ha
      exact .embryo hlt hun hc hne

inductive Started (k : Kernel) (c : ℕ) (f : Frame) : Kernel → Prop
  | failed : Started k c f (k.allocKstack.1.processDestroy c)
  | started {sc : Scheduler} {t : ℕ} :
      schedAdoptThread k.sched f (k.procs c).space.cr3 c = some (sc, t) →
      Started k c f { k.allocKstack.1.setProc c
        { k.procs c with thread := some t, state := .ready } with sched := sc }

theorem processStarted (k : Kernel) (c : ℕ) (f : Frame) : Started k c f (k.processStart c f).1 := by
  have hfst : ∀ {k₁ top}, k.allocKstack = (k₁, top) → k₁ = k.allocKstack.1 := fun h => by rw [h]
  unfold Kernel.processStart
  split
  · rename_i hk
    obtain rfl := hfst hk
    exact .failed
  · rename_i hk
    obtain rfl := hfst hk
    split
    · exact .failed
    · rename_i ha
      exact .started ha

inductive Wakes (k : Kernel) : Kernel → Prop
  | nothing : Wakes k k
  | woken {j : ℕ} (sc : Scheduler) : (k.procs j).state = .blocked →
      Wakes k { k.setProc j { k.procs j with state := .ready } with sched := sc }

theorem wakes (k : Kernel) (ppid : ℤ) : Wakes k (k.wakeParent ppid) := by
  unfold Kernel.wakeParent
  split
  · exact .nothing
  dsimp only
  split
  · rename_i hb
    split
    · exact .woken k.sched hb
    · exact .woken _ hb
  · exact .nothing

/-- What a spawn can do. The two spawns differ in the memory of the new process. -/
inductive Spawns (k : Kernel) (parent : ℤ) : Kernel → Prop
  | refused : Spawns k parent k
  | full {k₁ : Kernel} : k.processAlloc parent = (k₁, none) → Spawns k parent k₁
  | failed {c : ℕ} {k₁ : Kernel} (ph : Phys) (sp : Space) :
      k.processAlloc parent = (k₁, some c) →
      Spawns k parent ((k₁.setSpace c ph sp).processDestroy c)
  | started {c : ℕ} {k₁ : Kernel} (ph : Phys) (sp : Space) (f : Frame) :
      k.processAlloc parent = (k₁, some c) →
      Spawns k parent ((k₁.setSpace c ph sp).processStart c f).1

theorem spawnedUser (k : Kernel) (code : List UInt8) (parent : ℤ) :
    Spawns k parent (k.processSpawnUser code parent).1 := by
  unfold Kernel.processSpawnUser
  split
  · exact .refused
  split
  · rename_i ha
    exact .full ha
  rename_i k₁ c ha
  split
  · exact .failed _ _ ha
  split
  · exact .failed _ _ ha
  rename_i ph sp _
  have hstart := Spawns.started ph (brkInit k₁.nxOk sp (add64 userCodeBase code.length))
    (Kernel.userFrame userCodeBase (userStackTop - 16)) ha
  dsimp only
  split <;> rename_i hr <;> rw [hr] at hstart <;> exact hstart

theorem spawnedElf (k : Kernel) (image : Image) (parent : ℤ) :
    Spawns k parent (k.processSpawnElf image parent).1 := by
  unfold Kernel.processSpawnElf
  split
  · exact .refused
  split
  · exact .refused
  split
  · rename_i ha
    exact .full ha
  rename_i k₁ c ha
  split
  · exact .failed _ _ ha
  rename_i ph sp entry rsp _
  have hstart := Spawns.started ph sp (Kernel.userFrame entry rsp) ha
  split <;> rename_i hr <;> rw [hr] at hstart <;> exact hstart

def inheritBreak (sp parent : Space) : Space :=
  { sp with
    heapStart := parent.heapStart
    brkCurrent := parent.brkCurrent
    brkPerm := parent.brkPerm }

def Kernel.inherit (k : Kernel) (c : ℕ) (p : Process) (handles : Option Ipc.HandleTable) : Kernel :=
  { k.setProc c { k.procs c with ipcHandles := handles, fds := p.fds } with
    files := Kernel.dupFds k.files p.fds }

def Kernel.Forks (k : Kernel) (i : ℕ) : Prop :=
  k.processCurrent = some i ∧ (k.procs i).pid ≠ 0 ∧
    ¬ ((k.procs i).state = .zombie ∨ (k.procs i).state = .blocked)

inductive Forked (k : Kernel) (grow : ℕ) (heap : Bool) : Kernel → Prop
  | refused : (∀ i, ¬ k.Forks i) → Forked k grow heap (k.ret vePerm)
  | full {i : ℕ} {k₁ : Kernel} : k.Forks i → k.processAlloc (k.procs i).pid = (k₁, none) →
      Forked k grow heap (k₁.ret veNomem)
  | noPages {i c : ℕ} {k₁ : Kernel} {ph : Phys} {sp : Space} : k.Forks i →
      k.processAlloc (k.procs i).pid = (k₁, some c) →
      forkPages (k.procs i).space.cr3 (k.procs i).space.umap k₁.phys (k₁.procs c).space =
        (ph, sp, false) →
      Forked k grow heap (((k₁.setSpace c ph sp).processDestroy c).ret veNomem)
  | noTable {i c : ℕ} {k₁ k₂ : Kernel} {ph : Phys} {sp : Space} : k.Forks i →
      k.processAlloc (k.procs i).pid = (k₁, some c) →
      forkPages (k.procs i).space.cr3 (k.procs i).space.umap k₁.phys (k₁.procs c).space =
        (ph, sp, true) →
      (k₁.setSpace c ph (inheritBreak sp (k.procs i).space)).forkHandles (k.procs i) grow heap =
        (k₂, none) →
      Forked k grow heap ((k₂.processDestroy c).ret veNomem)
  | started {i c : ℕ} {k₁ k₂ k₃ : Kernel} {ph : Phys} {sp : Space}
      {handles : Option Ipc.HandleTable} {b : Bool} : k.Forks i →
      k.processAlloc (k.procs i).pid = (k₁, some c) →
      forkPages (k.procs i).space.cr3 (k.procs i).space.umap k₁.phys (k₁.procs c).space =
        (ph, sp, true) →
      (k₁.setSpace c ph (inheritBreak sp (k.procs i).space)).forkHandles (k.procs i) grow heap =
        (k₂, some handles) →
      (k₂.inherit c (k.procs i) handles).processStart c (Function.update k₂.frame .rax 0) =
        (k₃, b) →
      Forked k grow heap (k₃.ret (if b then (k₃.procs c).pid else veNomem))

theorem forked (k : Kernel) (grow : ℕ) (heap : Bool) :
    Forked k grow heap (k.processForkCurrent grow heap) := by
  unfold Kernel.processForkCurrent
  split
  · rename_i hc
    apply Forked.refused
    rintro i ⟨hi, -⟩
    rw [hc] at hi
    cases hi
  · rename_i i hi
    have hone : ∀ j, k.processCurrent = some j → j = i := fun j hj =>
      Option.some.inj (hj.symm.trans hi)
    dsimp only
    split
    · rename_i hpid
      apply Forked.refused
      rintro j ⟨hj, hp, -⟩
      exact hp (hone j hj ▸ hpid)
    · rename_i hpid
      split
      · rename_i hst
        apply Forked.refused
        rintro j ⟨hj, -, hs⟩
        exact hs (hone j hj ▸ hst)
      · rename_i hst
        have hf : k.Forks i := ⟨hi, hpid, hst⟩
        split
        · rename_i ha
          exact .full hf ha
        · rename_i k₁ c ha
          split
          · rename_i hp
            exact .noPages hf ha hp
          · rename_i ph sp hp
            split
            · rename_i hh
              exact .noTable hf ha hp hh
            · rename_i k₂ handles hh
              have hs := @Forked.started k grow heap i c k₁ k₂ _ ph sp handles _ hf ha hp hh
                Prod.mk.eta.symm
              split
              · rename_i k₃ hr
                rw [show (k₂.inherit c (k.procs i) handles).processStart c
                  (Function.update k₂.frame .rax 0) = (k₃, false) from hr] at hs
                exact hs
              · rename_i k₃ hr
                rw [show (k₂.inherit c (k.procs i) handles).processStart c
                  (Function.update k₂.frame .rax 0) = (k₃, true) from hr] at hs
                exact hs

def Kernel.Executes (k : Kernel) (upath i : ℕ) (ctx : ElfLoader) : Prop :=
  k.processCurrent = some i ∧ (k.procs i).pid ≠ 0 ∧ (k.procs i).state ≠ .zombie ∧
    ∃ name image, copyFromUser k.phys.ram (k.procs i).space.cr3 upath 31 = some name ∧
      elfFindEmbedded k.blobs (cString name) = .ok image ∧ elfValidate image = .ok ctx

inductive Execed (k : Kernel) (upath : ℕ) : Kernel → Prop
  | refused (v : ℤ) : Execed k upath (k.ret v)
  | noSpace {i : ℕ} {ctx : ElfLoader} {ph : Phys} : k.Executes upath i ctx →
      addressSpaceCreate k.phys k.kernelPml4 = (ph, 0) →
      Execed k upath ({ k with phys := ph }.ret veNomem)
  | failed {i cr3 : ℕ} {ctx : ElfLoader} {ph ph' : Phys} {sp : Space} {e : ElfStatus} :
      k.Executes upath i ctx → addressSpaceCreate k.phys k.kernelPml4 = (ph, cr3) → cr3 ≠ 0 →
      elfLoadAll k.nxOk k.blobs ctx ph ⟨cr3, [], 0, 0, 0⟩ = (ph', sp, .error e) →
      Execed k upath ({ k with phys := (processDestroyUserSpace ph' sp).1 }.ret e.code)
  | swapped {i cr3 entry rsp : ℕ} {ctx : ElfLoader} {ph ph' : Phys} {sp : Space} :
      k.Executes upath i ctx → addressSpaceCreate k.phys k.kernelPml4 = (ph, cr3) → cr3 ≠ 0 →
      elfLoadAll k.nxOk k.blobs ctx ph ⟨cr3, [], 0, 0, 0⟩ = (ph', sp, .ok (entry, rsp)) →
      Execed k upath (k.execSwap i ph' sp entry rsp)

theorem execed (k : Kernel) (upath : ℕ) : Execed k upath (k.processExecveCurrent upath) := by
  unfold Kernel.processExecveCurrent
  split
  · exact .refused _
  · rename_i i hi
    dsimp only
    split
    · exact .refused _
    · rename_i hpid
      split
      · exact .refused _
      · rename_i hz
        split
        · exact .refused _
        · rename_i name hname
          split
          · exact .refused _
          · rename_i image himage
            split
            · exact .refused _
            · rename_i ctx hctx
              have he : k.Executes upath i ctx :=
                ⟨hi, hpid, hz, name, image, hname, himage, hctx⟩
              cases hc : addressSpaceCreate k.phys k.kernelPml4 with
              | mk ph cr3 =>
                dsimp only
                split
                · rename_i hzero
                  rw [hzero] at hc
                  exact .noSpace he hc
                · rename_i hne
                  split
                  · rename_i hl
                    exact .failed he hc hne hl
                  · rename_i hl
                    exact .swapped he hc hne hl

/-- The slot of a process that exits is marked, and its children move to its parent. -/
def Kernel.marked (k : Kernel) (i : ℕ) (status : ℤ) : Kernel :=
  { k with
    procs := Kernel.reparent (Function.update k.procs i
      { k.procs i with exitStatus := status, state := .zombie }) (k.procs i).pid (k.procs i).ppid
    exits := k.exits ++ [((k.procs i).pid, status)] }

def Kernel.released (k : Kernel) (i : ℕ) : Kernel :=
  { k.setProc i { k.procs i with
      space := { (k.procs i).space with umap := [] }
      fds := (Kernel.vfsCloseProcessFds k.files (k.procs i).fds).2 } with
    phys := releasePages k.phys (k.procs i).space.cr3 (k.procs i).space.umap
    files := (Kernel.vfsCloseProcessFds k.files (k.procs i).fds).1 }

theorem marked_self (k : Kernel) (i : ℕ) (status : ℤ) :
    ((k.marked i status).procs i).state = .zombie ∧
      ((k.marked i status).procs i).space = (k.procs i).space ∧
      ((k.marked i status).procs i).fds = (k.procs i).fds := by
  unfold Kernel.marked Kernel.reparent
  dsimp only
  rw [Function.update_self]
  split <;> exact ⟨rfl, rfl, rfl⟩

theorem marked_other (k : Kernel) {i j : ℕ} (status : ℤ) (hj : j ≠ i) :
    ((k.marked i status).procs j).state = (k.procs j).state ∧
      ((k.marked i status).procs j).space = (k.procs j).space ∧
      ((k.marked i status).procs j).fds = (k.procs j).fds := by
  unfold Kernel.marked Kernel.reparent
  dsimp only
  rw [Function.update_of_ne hj]
  split <;> exact ⟨rfl, rfl, rfl⟩

theorem exitProcess_eq (k : Kernel) (i : ℕ) (status : ℤ) : k.exitProcess i status =
    ((k.marked i status).released i).wakeParent
      (((k.marked i status).released i).procs i).ppid := by
  obtain ⟨-, hspace, hfds⟩ := marked_self k i status
  unfold Kernel.released
  rw [hspace, hfds]
  rfl

inductive Exited (k : Kernel) (status : ℤ) : Kernel → Prop
  | refused : Exited k status (k.ret (-1))
  | exited {i : ℕ} {sc : Scheduler} {b : Bool} : k.processCurrent = some i → (k.procs i).pid ≠ 0 →
      schedTick ((k.exitProcess i status).stop .exited).sched = some (sc, b) →
      Exited k status { k.exitProcess i status with sched := sc }

theorem exited {k k' : Kernel} {status : ℤ} (h : k.processExitCurrent status = some k') :
    Exited k status k' := by
  unfold Kernel.processExitCurrent at h
  split at h
  · cases h
    exact .refused
  rename_i hi
  split at h
  · cases h
    exact .refused
  · rename_i hpid
    obtain ⟨⟨k₁, b⟩, ht, rfl⟩ := Option.map_eq_some_iff.mp h
    obtain ⟨sc, hsc, rfl⟩ := tick_eq_some ht
    exact .exited hi hpid hsc

/-- What a call on files or handles does for the process in slot `i`. -/
inductive FileCall (k : Kernel) (i : ℕ) : Op → Kernel → Prop
  | nothing {op : Op} : FileCall k i op k
  | unopened {upath flags grow : ℕ} {object : Option ℕ} :
      FileCall k i (.vfsOpen upath flags grow object) (k.heapGrow grow)
  | opened {upath flags grow o fd : ℕ} {cur : Vfs.Place} : k.files o = none →
      Vfs.lookup k.phys.ram (k.procs i).space.cr3 k.root (k.procs i).cwd upath = .ok cur →
      Kernel.freeFd (k.procs i).fds = some fd →
      FileCall k i (.vfsOpen upath flags grow (some o))
        { (k.heapGrow grow).setFd i fd ⟨.vfs, some o, 0⟩ with
          files := Function.update (k.heapGrow grow).files o (some ⟨cur.1, 0, 1⟩) }
  | closed {fd : ℤ} {o : ℕ} {f : Vfs.VfsFile} : k.vfsFd i fd = some (o, f) →
      FileCall k i (.vfsClose fd)
        { k.setFd i fd.toNat Kernel.noFd with files := Vfs.refDec k.files o }
  | unread {fd : ℤ} {ubuf count : ℕ} {bytes : List UInt8} {ram : Mem} :
      copyToUser k.phys.ram (k.procs i).space.cr3 ubuf bytes = (ram, false) →
      FileCall k i (.vfsRead fd ubuf count) { k with phys := { k.phys with ram := ram } }
  | read {fd : ℤ} {ubuf count o : ℕ} {f : Vfs.VfsFile} {ram : Mem} :
      k.vfsFd i fd = some (o, f) →
      copyToUser k.phys.ram (k.procs i).space.cr3 ubuf (Vfs.readBytes f count) = (ram, true) →
      FileCall k i (.vfsRead fd ubuf count) { k with
        phys := { k.phys with ram := ram }
        files := Function.update k.files o
          (some { f with pos := f.pos + (Vfs.readBytes f count).length }) }
  | sought {fd offset whence : ℤ} {o npos : ℕ} {f : Vfs.VfsFile} : k.vfsFd i fd = some (o, f) →
      Vfs.seek f offset whence = .ok npos →
      FileCall k i (.vfsLseek fd offset whence)
        { k with files := Function.update k.files o (some { f with pos := npos }) }
  | entered {upath : ℕ} {cur : Vfs.Place} {cwd : List UInt8} :
      Vfs.lookup k.phys.ram (k.procs i).space.cr3 k.root (k.procs i).cwd upath = .ok cur →
      cur.1.kind = .dir → Vfs.cwdOf cur = .ok cwd →
      FileCall k i (.vfsChdir upath) (k.setProc i { k.procs i with cwd := cwd })
  | told {ubuf size : ℕ} {ram : Mem} {b : Bool} :
      copyToUser k.phys.ram (k.procs i).space.cr3 ubuf ((k.procs i).cwd ++ [0]) = (ram, b) →
      FileCall k i (.vfsGetcwd ubuf size) { k with phys := { k.phys with ram := ram } }
  | handled {handles : Option Ipc.HandleTable} {grow : ℕ} {r : ℤ} :
      FileCall k i (.handles handles grow r) (k.setHandles i handles grow)

section Calls

variable {k k' : Kernel}

theorem openCall {object : Option ℕ} (hnew : ∀ o, object = some o → k.files o = none)
    (i upath flags grow : ℕ) : FileCall k i (.vfsOpen upath flags grow object)
      (k.sysVfsOpen i upath flags grow object).1 := by
  unfold Kernel.sysVfsOpen
  dsimp only
  split
  · exact .nothing
  rename_i node above hl
  split
  · exact .nothing
  split
  · exact .unopened
  rename_i o
  split
  · exact .unopened
  · rename_i hfd
    exact .opened (hnew o rfl) hl hfd

theorem closeCall (k : Kernel) (i : ℕ) (fd : ℤ) :
    FileCall k i (.vfsClose fd) (k.sysVfsClose i fd).1 := by
  unfold Kernel.sysVfsClose
  split
  · exact .nothing
  · rename_i hf
    exact .closed hf

theorem readCall (k : Kernel) (i : ℕ) (fd : ℤ) (ubuf count : ℕ) :
    FileCall k i (.vfsRead fd ubuf count) (k.sysVfsRead i fd ubuf count).1 := by
  unfold Kernel.sysVfsRead
  split
  · exact .nothing
  split
  · exact .nothing
  rename_i hf
  split
  · exact .nothing
  split
  · exact .nothing
  dsimp only
  split
  · rename_i hc
    exact .unread hc
  · rename_i hc
    exact .read hf hc

theorem lseekCall (k : Kernel) (i : ℕ) (fd offset whence : ℤ) :
    FileCall k i (.vfsLseek fd offset whence) (k.sysVfsLseek i fd offset whence).1 := by
  unfold Kernel.sysVfsLseek
  split
  · exact .nothing
  rename_i hf
  split
  · exact .nothing
  split
  · exact .nothing
  · rename_i hs
    exact .sought hf hs

theorem chdirCall (k : Kernel) (i upath : ℕ) :
    FileCall k i (.vfsChdir upath) (k.sysVfsChdir i upath).1 := by
  unfold Kernel.sysVfsChdir
  dsimp only
  split
  · exact .nothing
  rename_i hl
  split
  · exact .nothing
  rename_i hdir
  split
  · exact .nothing
  · rename_i hc
    exact .entered hl (not_not.mp hdir) hc

theorem getcwdCall (k : Kernel) (i ubuf size : ℕ) :
    FileCall k i (.vfsGetcwd ubuf size) (k.sysVfsGetcwd i ubuf size).1 := by
  unfold Kernel.sysVfsGetcwd
  dsimp only
  split
  · exact .nothing
  split <;> rename_i hc <;> exact .told hc

def Op.OnProcess : Op → Prop
  | .vfsOpen .. | .vfsClose _ | .vfsRead .. | .vfsLseek .. | .vfsChdir _ | .vfsGetcwd ..
  | .handles .. => True
  | _ => False

theorem onProcess_cases (k : Kernel) (f : ℕ → Kernel × ℤ) :
    (k.processCurrent = none ∧ k.onProcess f = k.ret vePerm) ∨
      ∃ i, k.processCurrent = some i ∧ k.onProcess f = (f i).1.ret (f i).2 := by
  unfold Kernel.onProcess
  cases hc : k.processCurrent with
  | none => exact Or.inl ⟨rfl, rfl⟩
  | some i => exact Or.inr ⟨i, rfl, rfl⟩

theorem fileCalled {op : Op} (hop : op.OnProcess) (hs : step k op = some k') :
    k' = k.ret vePerm ∨
      ∃ i k₁ r, k.processCurrent = some i ∧ FileCall k i op k₁ ∧ k' = k₁.ret r := by
  have hon : ∀ {f : ℕ → Kernel × ℤ}, (∀ i, FileCall k i op (f i).1) →
      some (k.onProcess f) = some k' → k' = k.ret vePerm ∨
        ∃ i k₁ r, k.processCurrent = some i ∧ FileCall k i op k₁ ∧ k' = k₁.ret r := by
    intro f hf he
    cases he
    rcases onProcess_cases k f with ⟨-, he⟩ | ⟨i, hi, he⟩
    · exact Or.inl he
    · exact Or.inr ⟨i, _, _, hi, hf i, he⟩
  cases op with
  | vfsOpen upath flags grow object =>
    dsimp only [step] at hs
    split_ifs at hs with hnew
    refine hon (fun i => openCall ?_ i upath flags grow) hs
    rintro o rfl
    simpa using hnew
  | vfsClose fd => exact hon (fun i => closeCall k i fd) hs
  | vfsRead fd ubuf count => exact hon (fun i => readCall k i fd ubuf count) hs
  | vfsLseek fd offset whence => exact hon (fun i => lseekCall k i fd offset whence) hs
  | vfsChdir upath => exact hon (fun i => chdirCall k i upath) hs
  | vfsGetcwd ubuf size => exact hon (fun i => getcwdCall k i ubuf size) hs
  | handles handles grow r => exact hon (fun _ => .handled) hs
  | _ => exact hop.elim

end Calls

end VoidOS.Proc
