import VoidOS.KernelMem
import VoidOS.SpaceStore
import VoidOS.LifecycleRuns
import VoidOS.ProcessCases

namespace VoidOS.Proc

open Transition ByteMem PageTree Ownership Mm Elf

namespace Kernel

/-- The address space of a slot that holds a process other than the kernel. -/
def spaceAt (k : Kernel) (i : ℕ) : Option Space :=
  if i ≠ 0 ∧ i < maxProcesses ∧ (k.procs i).state ≠ .unused then some (k.procs i).space else none

def memory (k : Kernel) : Memory := ⟨k.phys, k.kernelPml4, k.heapFrames, k.stackFrames, k.spaceAt⟩

/-- The stack addresses have not wrapped and do not wrap with the next stack. -/
def StackRoom (k : Kernel) : Prop :=
  kstackStart ≤ k.nextStackVaddr ∧
    k.nextStackVaddr + (kthreadStackPages + 1) * pageSize < 2 ^ 64

/-- With `n` pages more the heap still ends below the first kernel stack. `heap_grow` itself
would let it grow on to `kheapMax`. -/
def HeapRoom (k : Kernel) (n : ℕ) : Prop := k.heapTop + n * pageSize ≤ kstackStart

def UserCall (k : Kernel) : Prop := k.processCurrent ≠ some 0

/-- No segment of an embedded image that is accepted wraps. -/
def BlobsFit (k : Kernel) : Prop := ∀ b ∈ k.blobs, b.2.Fits

end Kernel

/-- The steps under which the memory of the kernel stays in order. -/
def Fits (k : Kernel) : Op → Prop
  | .spawnUser _ _ => k.StackRoom
  | .spawnElf image _ => k.StackRoom ∧ image.Fits ∧ k.BlobsFit
  | .fork grow _ => k.StackRoom ∧ k.HeapRoom grow
  | .execve _ => k.BlobsFit
  | .wait _ ustatus => k.UserCall ∧ ustatus % pageSize + 4 ≤ pageSize
  | .createKthread _ _ => k.StackRoom
  | .heapGrow n => k.HeapRoom n
  | .vfsOpen _ _ grow _ => k.HeapRoom grow
  | .handles _ grow _ => k.HeapRoom grow
  | .brk _ => k.UserCall
  | .mmap _ _ _ _ _ _ => k.UserCall
  | .munmap _ _ => k.UserCall
  | .vfsRead _ _ _ => k.UserCall
  | .vfsGetcwd _ _ => k.UserCall
  | _ => True

def Admissible (k : Kernel) (op : Op) : Prop := Legal k op ∧ Fits k op

/-- The kernel process has the boot page tables and no pages. -/
def KernelSlot (k : Kernel) (p : Process) : Prop :=
  p.state ≠ .unused ∧ p.space.cr3 = k.kernelPml4 ∧ p.space.umap = []

structure FramesInv (boot : Set ℕ) (top : UpperHalf) (k : Kernel) : Prop where
  mem : MemOk boot top k.memory
  heapTop : kheapStart ≤ k.heapTop
  nextStack : kheapStart ≤ k.nextStackVaddr
  kernel : KernelSlot k (k.procs 0)

/-- The frames have their owners, and since the memory was `M` nothing has happened to the
processes that are not in `S`. -/
structure Since (boot : Set ℕ) (top : UpperHalf) (M : Memory) (S : Set ℕ) (k : Kernel) : Prop where
  inv : FramesInv boot top k
  spares : M.Spares S k.memory

section Slots

variable {boot : Set ℕ} {top : UpperHalf} {M : Memory} {S : Set ℕ} {k k' : Kernel} {i c : ℕ}
  {ph : Phys} {sp : Space} {p : Process}

theorem FramesInv.since (h : FramesInv boot top k) (S : Set ℕ) : Since boot top k.memory S k :=
  ⟨h, .refl S _⟩

theorem spaceOk_at (h : FramesInv boot top k) (hsp : k.spaceAt i = some sp) : SpaceOk k.phys sp :=
  h.mem.spaceOk hsp

theorem spaceAt_some (h0 : i ≠ 0) (hi : i < maxProcesses) (hu : (k.procs i).state ≠ .unused) :
    k.spaceAt i = some (k.procs i).space := if_pos ⟨h0, hi, hu⟩

theorem spaceAt_outside (hi : maxProcesses ≤ i) : k.spaceAt i = none :=
  if_neg fun h => absurd h.2.1 (not_lt.mpr hi)

theorem spaceAt_unused (hu : (k.procs i).state = .unused) : k.spaceAt i = none :=
  if_neg fun h => h.2.2 hu

theorem spaceAt_update (hrest : ∀ j, j ≠ i → k'.procs j = k.procs j) :
    k'.spaceAt = Function.update k.spaceAt i (k'.spaceAt i) := by
  funext j
  by_cases hj : j = i
  · rw [hj, Function.update_self]
  · rw [Function.update_of_ne hj]
    unfold Kernel.spaceAt
    rw [hrest j hj]

theorem spaceAt_congr (hsame : ∀ j, ((k'.procs j).state = .unused ↔ (k.procs j).state = .unused) ∧
    (k'.procs j).space = (k.procs j).space) : k'.spaceAt = k.spaceAt := by
  funext j
  unfold Kernel.spaceAt
  rw [(hsame j).2]
  simp only [Ne, (hsame j).1]

theorem Since.of_eq (h : Since boot top M S k) (hmem : k'.memory = k.memory)
    (hheap : k'.heapTop = k.heapTop) (hstack : k'.nextStackVaddr = k.nextStackVaddr)
    (hkernel : (k'.procs 0).space = (k.procs 0).space ∧
      ((k'.procs 0).state = .unused → (k.procs 0).state = .unused)) : Since boot top M S k' := by
  obtain ⟨hst, hcr3, humap⟩ := h.inv.kernel
  have hpml4 : k'.kernelPml4 = k.kernelPml4 := congrArg Memory.pml4 hmem
  refine ⟨⟨hmem ▸ h.inv.mem, hheap ▸ h.inv.heapTop, hstack ▸ h.inv.nextStack,
    fun hc => hst (hkernel.2 hc), ?_, ?_⟩, hmem ▸ h.spares⟩
  · rw [hkernel.1, hpml4, hcr3]
  · rw [hkernel.1, humap]

theorem Since.of_rfl (h : Since boot top M S k) (hphys : k'.phys = k.phys)
    (hpml4 : k'.kernelPml4 = k.kernelPml4) (hheap : k'.heapFrames = k.heapFrames)
    (hstacks : k'.stackFrames = k.stackFrames) (htop : k'.heapTop = k.heapTop)
    (hnext : k'.nextStackVaddr = k.nextStackVaddr)
    (hsame : ∀ j, ((k'.procs j).state = .unused ↔ (k.procs j).state = .unused) ∧
      (k'.procs j).space = (k.procs j).space) : Since boot top M S k' := by
  refine h.of_eq ?_ htop hnext ⟨(hsame 0).2, (hsame 0).1.mp⟩
  unfold Kernel.memory
  rw [hphys, hpml4, hheap, hstacks, spaceAt_congr hsame]

theorem Since.of_procs (h : Since boot top M S k) (hmem : k'.memory = k.memory)
    (hheap : k'.heapTop = k.heapTop) (hstack : k'.nextStackVaddr = k.nextStackVaddr)
    (hprocs : k'.procs = k.procs) : Since boot top M S k' := by
  apply h.of_eq hmem hheap hstack
  rw [hprocs]
  exact ⟨rfl, id⟩

theorem Since.ret (h : Since boot top M S k) (v : ℤ) : Since boot top M S (k.ret v) :=
  h.of_procs rfl rfl rfl rfl

theorem Since.setProc (h : Since boot top M S k) (hspace : p.space = (k.procs i).space)
    (hst : p.state = .unused ↔ (k.procs i).state = .unused) :
    Since boot top M S (k.setProc i p) := by
  apply @Since.of_rfl boot top M S k (k.setProc i p) h rfl rfl rfl rfl rfl rfl
  intro j
  unfold Kernel.setProc
  dsimp only
  by_cases hj : j = i
  · rw [hj, Function.update_self]
    exact ⟨hst, hspace⟩
  · rw [Function.update_of_ne hj]
    exact ⟨Iff.rfl, rfl⟩

theorem Since.change {osp : Option Space} (h : Since boot top M S k) (h0 : i ≠ 0) (hS : i ∈ S)
    (hm : MemOk boot top { k.memory with
      phys := k'.phys, space := Function.update k.spaceAt i osp })
    (hrest : ∀ j, j ≠ i → ∀ sp, k.spaceAt j = some sp → Untouched k.phys k'.phys sp)
    (hsp : k'.spaceAt i = osp) (hprocs : ∀ j, j ≠ i → k'.procs j = k.procs j)
    (hpml4 : k'.kernelPml4 = k.kernelPml4) (hheap : k'.heapFrames = k.heapFrames)
    (hstacks : k'.stackFrames = k.stackFrames) (htop : k'.heapTop = k.heapTop)
    (hnext : k'.nextStackVaddr = k.nextStackVaddr) : Since boot top M S k' := by
  have hspace := spaceAt_update hprocs
  rw [hsp] at hspace
  refine ⟨⟨?_, htop ▸ h.inv.heapTop, hnext ▸ h.inv.nextStack, ?_⟩, h.spares.trans ?_⟩
  · unfold Kernel.memory
    rw [hspace, hpml4, hheap, hstacks]
    exact hm
  · unfold KernelSlot
    rw [hprocs 0 (Ne.symm h0), hpml4]
    exact h.inv.kernel
  · intro j hj
    have hji : j ≠ i := fun hc => hj (hc ▸ hS)
    refine ⟨?_, hrest j hji⟩
    show k'.spaceAt j = k.spaceAt j
    rw [hspace, Function.update_of_ne hji]

theorem Since.setSpace (h : Since boot top M S k) (h0 : i ≠ 0) (hS : i ∈ S) (hi : i < maxProcesses)
    (hu : (k.procs i).state ≠ .unused) (ha : Acts k.phys (k.procs i).space ph sp) :
    Since boot top M S (k.setSpace i ph sp) := by
  have hself : (k.setSpace i ph sp).procs i = { k.procs i with space := sp } :=
    Function.update_self ..
  have hsp := spaceAt_some h0 hi hu
  refine h.change h0 hS (h.inv.mem.acts hsp ha) ?_ ?_ ?_ rfl rfl rfl rfl rfl
  · exact fun j hj sp₀ hsp₀ => h.inv.mem.acts_untouched hsp₀ hj hsp ha
  · rw [spaceAt_some h0 hi (by rw [hself]; exact hu), hself]
  · exact fun j hj => Function.update_of_ne hj _ _

theorem Since.processDestroy (h : Since boot top M S k) (h0 : i ≠ 0) (hS : i ∈ S)
    (hi : i < maxProcesses) : Since boot top M S (k.processDestroy i) := by
  unfold Kernel.processDestroy
  dsimp only
  split
  · exact h
  · rename_i hu
    have hsp := spaceAt_some h0 hi hu
    refine h.change h0 hS (h.inv.mem.destroy hsp) ?_ ?_ ?_ rfl rfl rfl rfl rfl
    · exact fun j hj sp₀ hsp₀ => h.inv.mem.destroy_untouched hsp₀ hj hsp
    · apply spaceAt_unused
      unfold Kernel.setProc
      dsimp only
      rw [Function.update_self]
    · exact fun j hj => Function.update_of_ne hj _ _

theorem Since.processAlloc (h : Since boot top M S k) {parent : ℤ} {oc : Option ℕ}
    (hS : ∀ c, (k.procs c).state = .unused → c ∈ S)
    (ha : k.processAlloc parent = (k', oc)) : Since boot top M S k' ∧
      ∀ c, oc = some c → c ≠ 0 ∧ c ∈ S ∧ c < maxProcesses ∧ (k'.procs c).state ≠ .unused ∧
        k'.spaceAt c = some (k'.procs c).space := by
  cases slotted ha with
  | full => exact ⟨h, fun c hc => nomatch hc⟩
  | @noSpace ph hc =>
    have hout : k.memory.space maxProcesses = none := @spaceAt_outside k maxProcesses le_rfl
    rcases h.inv.mem.create hout hc with ⟨-, hph⟩ | ⟨hne, -⟩
    · exact ⟨h.of_procs (by rw [hph]; rfl) rfl rfl rfl, fun c hc => nomatch hc⟩
    · exact absurd rfl hne
  | @embryo ph cr3 c hlt hun hc hne =>
    have h0 : c ≠ 0 := by
      rintro rfl
      exact h.inv.kernel.1 hun
    rcases h.inv.mem.create (spaceAt_unused hun) hc with ⟨hz, -⟩ | ⟨-, hm⟩
    · exact absurd hz hne
    have hself : ∀ p, (k.setProc c p).procs c = p := fun p => Function.update_self ..
    have hst : ((k.setProc c ⟨k.nextPid, parent, .embryo, 0, none, ⟨cr3, [], 0, 0, 0⟩,
        Kernel.initialFds, none, 0, [Vfs.slash]⟩).procs c).state ≠ .unused := by
      rw [hself]
      exact fun hc => nomatch hc
    refine ⟨h.change h0 (hS c hun) hm ?_ ?_ ?_ rfl rfl rfl rfl rfl, fun c' hc' => ?_⟩
    · exact fun j _ sp₀ hsp₀ => h.inv.mem.create_untouched hsp₀ hc
    · refine (spaceAt_some h0 hlt hst).trans ?_
      rw [hself]
    · exact fun j hj => Function.update_of_ne hj _ _
    · cases hc'
      exact ⟨h0, hS c hun, hlt, hst, spaceAt_some h0 hlt hst⟩

end Slots

section Pages

variable {boot : Set ℕ} {top : UpperHalf} {M : Memory} {S : Set ℕ} {k k' : Kernel} {i c n base : ℕ}
  {ph : Phys} {frames : List ℕ} {b : Bool}

theorem kstackLoop_mem (h : MemOk boot top M) (hl : kheapStart ≤ base)
    (hr : base + (i + n) * pageSize < 2 ^ 64)
    (hk : Kernel.kstackLoop M.pml4 base n i M.phys M.kstack = (ph, frames, b)) :
    MemOk boot top { M with phys := ph, kstack := frames } ∧
      ∀ j sp, M.space j = some sp → Untouched M.phys ph sp := by
  induction n generalizing M i with
  | zero =>
    cases hk
    exact ⟨h, fun _ _ _ => .of_ram rfl⟩
  | succ n ih =>
    have hmul : i * pageSize < (i + (n + 1)) * pageSize :=
      Nat.mul_lt_mul_of_pos_right (by omega) (by decide)
    have hva : add64 base (i * pageSize) = base + i * pageSize := add64_of_lt (by omega)
    rw [Kernel.kstackLoop] at hk
    rcases pmmAllocFrame_cases M.phys with ⟨-, he⟩ | ⟨f, hf, he⟩
    · rw [he] at hk
      cases hk
      exact ⟨h, fun _ _ _ => .of_ram rfl⟩
    · have hne : f * pageSize ≠ 0 := h.phys.ne_zero hf
      rw [he] at hk
      dsimp only at hk
      rw [if_neg hne, hva] at hk
      cases hm : vmmMapPage (M.phys.take f) M.pml4 (base + i * pageSize) (f * pageSize)
          (vmmPresent ||| vmmWrite) with
      | mk ph₁ b₁ =>
        rw [hm] at hk
        have hmap := @MemOk.map boot top { M with
          phys := M.phys.take f, kstack := M.kstack ++ [f * pageSize] } ph₁ (base + i * pageSize) b₁
          (f * pageSize) (h.takeKstack hf) (by omega) (by omega) hm
        obtain ⟨hmem, hrest⟩ := @ih { M with phys := ph₁, kstack := M.kstack ++ [f * pageSize] }
          (i + 1) hmap (by rw [show i + 1 + n = i + (n + 1) by omega]; exact hr) hk
        refine ⟨hmem, fun j sp hj => .trans ?_ (hrest j sp hj)⟩
        have htake : Untouched M.phys (M.phys.take f) sp := .of_ram rfl
        exact htake.trans ((h.takeKstack hf).map_untouched (by omega) (by omega) hm hj)

theorem Since.allocKstack (h : Since boot top M S k) (hroom : k.StackRoom) :
    Since boot top M S k.allocKstack.1 := by
  obtain ⟨-, hroom⟩ := hroom
  have hnext := h.inv.nextStack
  have hadd : add64 k.nextStackVaddr ((kthreadStackPages + 1) * pageSize) =
      k.nextStackVaddr + (kthreadStackPages + 1) * pageSize := add64_of_lt hroom
  have hpages : (0 + kthreadStackPages) * pageSize < (kthreadStackPages + 1) * pageSize :=
    Nat.mul_lt_mul_of_pos_right (by omega) (by decide)
  obtain ⟨hmem, hrest⟩ := @kstackLoop_mem boot top k.memory 0 kthreadStackPages k.nextStackVaddr
    _ _ _ h.inv.mem hnext (by omega) rfl
  refine ⟨⟨hmem, h.inv.heapTop, ?_, h.inv.kernel⟩, h.spares.trans fun j _ => ⟨rfl, hrest j⟩⟩
  show kheapStart ≤ add64 k.nextStackVaddr ((kthreadStackPages + 1) * pageSize)
  rw [hadd]
  omega

theorem FramesInv.heapGrowPage (h : FramesInv boot top k) (hroom : k.heapTop + pageSize < 2 ^ 64)
    (hg : k.heapGrowPage = (k', b)) : FramesInv boot top k' ∧ (b = true →
      k'.heapTop = k.heapTop + pageSize) ∧
      ∀ j sp, k.spaceAt j = some sp → Untouched k.phys k'.phys sp := by
  have htop := h.heapTop
  unfold Kernel.heapGrowPage at hg
  rcases pmmAllocFrame_cases k.phys with ⟨-, he⟩ | ⟨f, hf, he⟩
  · rw [he] at hg
    cases hg
    exact ⟨h, fun hc => (nomatch hc), fun _ _ _ => .of_ram rfl⟩
  · have hne : f * pageSize ≠ 0 := h.mem.phys.ne_zero hf
    rw [he] at hg
    dsimp only at hg
    rw [if_neg hne] at hg
    have htake := h.mem.takeHeap hf
    cases hm : vmmMapPage (k.phys.take f) k.kernelPml4 k.heapTop (f * pageSize)
        (vmmPresent ||| vmmWrite) with
    | mk ph₁ b₁ =>
      have hmap := @MemOk.map boot top { k.memory with
        phys := k.phys.take f, heap := k.heapFrames ++ [f * pageSize] } ph₁ k.heapTop b₁
        (f * pageSize) htake htop (by omega) hm
      have hrest : ∀ j sp, k.spaceAt j = some sp → Untouched k.phys ph₁ sp := by
        intro j sp hj
        have hfirst : Untouched k.phys (k.phys.take f) sp := .of_ram rfl
        exact hfirst.trans (htake.map_untouched htop (by omega) hm hj)
      rw [hm] at hg
      cases b₁ with
      | false =>
        cases hg
        refine ⟨⟨?_, htop, h.nextStack, h.kernel⟩, fun hc => (nomatch hc), fun j sp hj => ?_⟩
        · exact hmap.giveHeap rfl
        · exact (hrest j sp hj).trans (.of_ram (pmmFreeFrame_ram _ _))
      | true =>
        cases hg
        have hadd : add64 k.heapTop pageSize = k.heapTop + pageSize := add64_of_lt hroom
        refine ⟨⟨hmap, ?_, h.nextStack, h.kernel⟩, fun _ => hadd, hrest⟩
        dsimp only
        omega

theorem Since.heapGrow (h : Since boot top M S k) (hroom : k.HeapRoom n) :
    Since boot top M S (k.heapGrow n) := by
  induction n generalizing k with
  | zero => exact h
  | succ n ih =>
    unfold Kernel.HeapRoom at hroom
    have hmax : kstackStart < 2 ^ 64 := by decide
    have hsucc : (n + 1) * pageSize = n * pageSize + pageSize := Nat.succ_mul n pageSize
    have hpage : k.heapTop + pageSize < 2 ^ 64 := by omega
    have hprocs := (heapGrowPage_same k).procs
    rw [Kernel.heapGrow]
    cases hg : k.heapGrowPage with
    | mk k₁ b =>
    rw [hg] at hprocs
    obtain ⟨h₁, htop, hrest⟩ := h.inv.heapGrowPage hpage hg
    have hsince : Since boot top M S k₁ := by
      refine ⟨h₁, h.spares.trans fun j _ => ⟨?_, hrest j⟩⟩
      show k₁.spaceAt j = k.spaceAt j
      unfold Kernel.spaceAt
      rw [hprocs]
    cases b with
    | false => exact hsince
    | true =>
      apply ih hsince
      unfold Kernel.HeapRoom
      rw [htop rfl]
      omega

theorem Since.start {f : Sched.Frame} (h : Since boot top M S k) (h0 : c ≠ 0) (hS : c ∈ S)
    (hc : c < maxProcesses) (hu : (k.procs c).state ≠ .unused) (hroom : k.StackRoom)
    (hs : Started k c f k') : Since boot top M S k' := by
  have hk := h.allocKstack hroom
  cases hs with
  | failed => exact hk.processDestroy h0 hS hc
  | @started _ t _ =>
    have := @Since.setProc boot _ M S _ c { k.procs c with thread := some t, state := .ready } hk
      rfl ⟨fun hs => (nomatch hs), fun hs => absurd hs hu⟩
    exact this.of_procs rfl rfl rfl rfl

end Pages

section Operations

variable {boot : Set ℕ} {top : UpperHalf} {M : Memory} {S : Set ℕ} {k k' : Kernel} {i c : ℕ}
  {l : List ℕ} {ph : Phys} {sp : Space}

theorem Since.setNew (h : Since boot top M S k) (h0 : c ≠ 0) (hS : c ∈ S) (hc : c < maxProcesses)
    (hu : (k.procs c).state ≠ .unused) (ha : Acts k.phys (k.procs c).space ph sp) :
    Since boot top M S (k.setSpace c ph sp) ∧
      Since boot top M S ((k.setSpace c ph sp).processDestroy c) ∧
      ((k.setSpace c ph sp).procs c).state ≠ .unused := by
  have hset := h.setSpace h0 hS hc hu ha
  refine ⟨hset, hset.processDestroy h0 hS hc, ?_⟩
  unfold Kernel.setSpace Kernel.setProc
  dsimp only
  rw [Function.update_self]
  exact hu

/-- The regions of the kernel and its images stay as they are. -/
structure SameRegions (k k' : Kernel) : Prop where
  next : k'.nextStackVaddr = k.nextStackVaddr
  heapTop : k'.heapTop = k.heapTop
  blobs : k'.blobs = k.blobs

theorem SameRegions.stackRoom (h : SameRegions k k') (hroom : k.StackRoom) : k'.StackRoom := by
  unfold Kernel.StackRoom
  rw [h.next]
  exact hroom

theorem SameRegions.heapRoom {n : ℕ} (h : SameRegions k k') (hroom : k.HeapRoom n) :
    k'.HeapRoom n := by
  unfold Kernel.HeapRoom
  rw [h.heapTop]
  exact hroom

theorem processAlloc_regions {parent : ℤ} {oc : Option ℕ} (ha : k.processAlloc parent = (k', oc)) :
    SameRegions k k' := by
  cases slotted ha with
  | _ => exact ⟨rfl, rfl, rfl⟩

theorem Since.spawnUser (h : Since boot top M S k) (hS : ∀ c, (k.procs c).state = .unused → c ∈ S)
    (hroom : k.StackRoom) (code : List UInt8) (parent : ℤ) :
    Since boot top M S (k.processSpawnUser code parent).1 := by
  unfold Kernel.processSpawnUser
  split
  · exact h
  · split
    · rename_i ha
      exact (h.processAlloc hS ha).1
    · rename_i k₁ c ha
      obtain ⟨h₁, hc⟩ := h.processAlloc hS ha
      obtain ⟨h0, hcS, hlt, hu, hsp⟩ := hc c rfl
      have hok := spaceOk_at h₁.inv hsp
      have hroom₁ := (processAlloc_regions ha).stackRoom hroom
      split
      · rename_i hl
        exact (h₁.setNew h0 hcS hlt hu (loadCode_acts hok hl)).2.1
      · rename_i ph sp hl
        have hcode := loadCode_acts hok hl
        split
        · rename_i hs
          exact (h₁.setNew h0 hcS hlt hu
            (hcode.trans (allocPages_acts hcode.ok pageFlags_write hs))).2.1
        · rename_i ph₂ sp₂ hs
          have hstack := hcode.trans (allocPages_acts hcode.ok pageFlags_write hs)
          obtain ⟨hset, -, hst⟩ := h₁.setNew h0 hcS hlt hu
            (hstack.trans (brkInit_acts hstack.ok k₁.nxOk (add64 userCodeBase code.length)))
          have hstart := hset.start h0 hcS hlt hst hroom₁
            (processStarted _ c (Kernel.userFrame userCodeBase (userStackTop - 16)))
          dsimp only
          split <;> rename_i hr <;> rw [hr] at hstart <;> exact hstart

theorem Since.spawnElf (h : Since boot top M S k) (hS : ∀ c, (k.procs c).state = .unused → c ∈ S)
    (hroom : k.StackRoom) {image : Image} (hwrap : image.Fits) (hblobs : k.BlobsFit) (parent : ℤ) :
    Since boot top M S (k.processSpawnElf image parent).1 := by
  unfold Kernel.processSpawnElf
  split
  · exact h
  · split
    · exact h
    · rename_i ctx hv
      split
      · rename_i ha
        exact (h.processAlloc hS ha).1
      · rename_i k₁ c ha
        obtain ⟨h₁, hc⟩ := h.processAlloc hS ha
        obtain ⟨h0, hcS, hlt, hu, hsp⟩ := hc c rfl
        have hregions := processAlloc_regions ha
        have hroom₁ := hregions.stackRoom hroom
        have hload : ∀ {ph sp r}, elfLoadAll k₁.nxOk k₁.blobs ctx k₁.phys (k₁.procs c).space =
            (ph, sp, r) → Acts k₁.phys (k₁.procs c).space ph sp := fun hr =>
          elfLoadAll_acts (spaceOk_at h₁.inv hsp) (fun _ hseg => (hwrap ctx hv).inUser hv hseg)
            (hregions.blobs ▸ hblobs) hr
        split
        · rename_i hl
          exact (h₁.setNew h0 hcS hlt hu (hload hl)).2.1
        · rename_i ph sp entry rsp hl
          obtain ⟨hset, -, hst⟩ := h₁.setNew h0 hcS hlt hu (hload hl)
          have hstart := hset.start h0 hcS hlt hst hroom₁
            (processStarted _ c (Kernel.userFrame entry rsp))
          split <;> rename_i hr <;> rw [hr] at hstart <;> exact hstart

theorem slot_ne_zero (hs : Sys.Ok k.sys l) (hi : (k.procs i).pid ≠ 0) : i ≠ 0 := by
  rintro rfl
  obtain ⟨n, hn, hp, -⟩ := hs.tree.kernel
  obtain ⟨-, -, rfl⟩ := sys_eq_some hn
  exact hi hp

theorem heapGrow_next (n : ℕ) (k : Kernel) :
    (k.heapGrow n).nextStackVaddr = k.nextStackVaddr := by
  induction n generalizing k with
  | zero => rfl
  | succ n ih =>
    have hpage : k.heapGrowPage.1.nextStackVaddr = k.nextStackVaddr := by
      unfold Kernel.heapGrowPage
      dsimp only
      split
      · rfl
      · split <;> rfl
    rw [Kernel.heapGrow]
    split
    · rename_i hg
      rwa [hg] at hpage
    · rename_i k₁ hg
      rw [hg] at hpage
      exact (ih k₁).trans hpage

theorem Since.forkHandles {p : Process} {grow : ℕ} {heap : Bool}
    {r : Option (Option Ipc.HandleTable)} (h : Since boot top M S k) (hheap : k.HeapRoom grow)
    (hh : k.forkHandles p grow heap = (k', r)) : Since boot top M S k' ∧ k'.procs = k.procs ∧
      k'.nextStackVaddr = k.nextStackVaddr := by
  unfold Kernel.forkHandles at hh
  split at hh
  · cases hh
    exact ⟨h, rfl, rfl⟩
  · cases hh
    exact ⟨h.heapGrow hheap, (heapGrow_same grow k).procs, heapGrow_next grow k⟩

theorem Since.copied {k₁ k₂ : Kernel} {grow : ℕ} {heap : Bool}
    {r : Option (Option Ipc.HandleTable)} (h : Since boot top M S k) (hs : Sys.Ok k.sys l)
    (hS : ∀ c, (k.procs c).state = .unused → c ∈ S) (hroom : k.StackRoom)
    (hheap : k.HeapRoom grow) (hf : k.Forks i)
    (ha : k.processAlloc (k.procs i).pid = (k₁, some c))
    (hp : forkPages (k.procs i).space.cr3 (k.procs i).space.umap k₁.phys (k₁.procs c).space =
      (ph, sp, true))
    (hh : (k₁.setSpace c ph (inheritBreak sp (k.procs i).space)).forkHandles (k.procs i) grow heap =
      (k₂, r)) :
    Since boot top M S k₂ ∧ c ≠ 0 ∧ c ∈ S ∧ c < maxProcesses ∧ (k₂.procs c).state ≠ .unused ∧
      k₂.StackRoom := by
  obtain ⟨hi, hpid, -⟩ := hf
  obtain ⟨hlt, hu, -, -⟩ := running_live hs hi
  have hperm := (spaceOk_at h.inv (spaceAt_some (slot_ne_zero hs hpid) hlt hu)).perm
  obtain ⟨h₁, hc⟩ := h.processAlloc hS ha
  obtain ⟨h0, hcS, hclt, hcu, hsp⟩ := hc _ rfl
  have hregions := processAlloc_regions ha
  have hacts : Acts k₁.phys (k₁.procs c).space ph (inheritBreak sp (k.procs i).space) :=
    (forkPages_acts (spaceOk_at h₁.inv hsp) hp).of_eq rfl rfl hperm
  obtain ⟨hset, -, hst⟩ := h₁.setNew h0 hcS hclt hcu hacts
  obtain ⟨h₂, hprocs, hnext⟩ := hset.forkHandles (hregions.heapRoom hheap) hh
  refine ⟨h₂, h0, hcS, hclt, by rw [hprocs]; exact hst, ?_⟩
  unfold Kernel.StackRoom
  rw [hnext]
  exact hregions.stackRoom hroom

theorem Since.fork {grow : ℕ} {heap : Bool} (h : Since boot top M S k) (hs : Sys.Ok k.sys l)
    (hS : ∀ c, (k.procs c).state = .unused → c ∈ S) (hroom : k.StackRoom) (hheap : k.HeapRoom grow)
    (hf : Forked k grow heap k') : Since boot top M S k' := by
  cases hf with
  | refused hf => exact h.ret _
  | full hf ha => exact (h.processAlloc hS ha).1.ret _
  | noPages hf ha hp =>
    obtain ⟨h₁, hc⟩ := h.processAlloc hS ha
    obtain ⟨h0, hcS, hlt, hu, hsp⟩ := hc _ rfl
    exact (h₁.setNew h0 hcS hlt hu (forkPages_acts (spaceOk_at h₁.inv hsp) hp)).2.1.ret _
  | noTable hf ha hp hh =>
    obtain ⟨h₂, h0, hcS, hlt, -, -⟩ := h.copied hs hS hroom hheap hf ha hp hh
    exact (h₂.processDestroy h0 hcS hlt).ret _
  | @started i c k₁ k₂ k₃ ph sp handles b hf ha hp hh hst =>
    obtain ⟨h₂, h0, hcS, hlt, hu, hroom₂⟩ := h.copied hs hS hroom hheap hf ha hp hh
    have hset : Since boot top M S (k₂.inherit c (k.procs i) handles) :=
      (@Since.setProc boot top M S k₂ c
        { k₂.procs c with ipcHandles := handles, fds := (k.procs i).fds } h₂ rfl Iff.rfl).of_procs
        rfl rfl rfl rfl
    have hu₂ : ((k₂.inherit c (k.procs i) handles).procs c).state ≠ .unused := by
      unfold Kernel.inherit Kernel.setProc
      dsimp only
      rw [Function.update_self]
      exact hu
    have hstart := hset.start h0 hcS hlt hu₂ hroom₂
      (processStarted _ c (Function.update k₂.frame .rax 0))
    rw [hst] at hstart
    exact hstart.ret _

theorem Since.exec {upath : ℕ} (h : Since boot top M S k) (hs : Sys.Ok k.sys l)
    (hS : ∀ i, k.processCurrent = some i → i ∈ S) (hblobs : k.BlobsFit) (he : Execed k upath k') :
    Since boot top M S k' := by
  have hload : ∀ {i ctx ph cr3 ph' sp r}, k.Executes upath i ctx →
      elfLoadAll k.nxOk k.blobs ctx ph ⟨cr3, [], 0, 0, 0⟩ = (ph', sp, r) →
      SpaceOk ph ⟨cr3, [], 0, 0, 0⟩ → Acts ph ⟨cr3, [], 0, 0, 0⟩ ph' sp := by
    rintro i ctx ph cr3 ph' sp r ⟨-, -, -, name, image, -, himage, hv⟩ hl hok
    obtain ⟨b, hb, rfl⟩ := elfFindEmbedded_mem himage
    exact elfLoadAll_acts hok (fun seg hseg => (hblobs b hb ctx hv).inUser hv hseg) hblobs hl
  -- no slot has the index of the new address space
  have hout : k.memory.space maxProcesses = none := @spaceAt_outside k maxProcesses le_rfl
  cases he with
  | refused v => exact h.ret v
  | @noSpace i ctx ph hx hc =>
    rcases h.inv.mem.create hout hc with ⟨-, hph⟩ | ⟨hne, -⟩
    · have hmem : ({ k with phys := ph } : Kernel).memory = k.memory := by
        rw [hph]
        rfl
      exact (h.of_procs hmem rfl rfl rfl).ret _
    · exact absurd rfl hne
  | @failed i cr3 ctx ph ph' sp e hx hc hne hl =>
    have hmem := h.inv.mem.discard hout hc hne (hload hx hl)
    have hrest : ∀ j sp₀, k.spaceAt j = some sp₀ →
        Untouched k.phys (processDestroyUserSpace ph' sp).1 sp₀ := fun j sp₀ hj =>
      h.inv.mem.discard_untouched hout hc hne (hload hx hl) hj
    have h₁ : Since boot top M S { k with phys := (processDestroyUserSpace ph' sp).1 } :=
      ⟨⟨hmem, h.inv.heapTop, h.inv.nextStack, h.inv.kernel⟩,
        h.spares.trans fun j _ => ⟨rfl, hrest j⟩⟩
    exact h₁.ret _
  | @swapped i cr3 entry rsp ctx ph ph' sp hx hc hne hl =>
    obtain ⟨hlt, hu, -, -⟩ := running_live hs hx.1
    have h0 := slot_ne_zero hs hx.2.1
    have hsp := spaceAt_some h0 hlt hu
    have hmem := h.inv.mem.replace hout hc hne (hload hx hl) hsp
    have h₁ : Since boot top M S
        (k.setSpace i (processDestroyUserSpace ph' (k.procs i).space).1 sp) := by
      have hself : (k.setSpace i (processDestroyUserSpace ph' (k.procs i).space).1 sp).procs i =
          { k.procs i with space := sp } := Function.update_self ..
      refine h.change h0 (hS i hx.1) hmem ?_ ?_ ?_ rfl rfl rfl rfl rfl
      · exact fun j hj sp₀ hj₀ =>
          h.inv.mem.replace_untouched hout hc hne (hload hx hl) hsp hj₀ hj
      · rw [spaceAt_some h0 hlt (by rw [hself]; exact hu), hself]
      · exact fun j hj => Function.update_of_ne hj _ _
    unfold Kernel.execSwap
    dsimp only
    split <;> exact h₁.of_procs rfl rfl rfl rfl

theorem Since.wake (h : Since boot top M S k) (hw : Wakes k k') : Since boot top M S k' := by
  cases hw with
  | nothing => exact h
  | @woken j _ hb =>
    have hset := @Since.setProc boot top M S k j { k.procs j with state := .ready } h rfl
      ⟨fun hs => (nomatch hs), fun hs => by rw [hb] at hs; cases hs⟩
    exact hset.of_procs rfl rfl rfl rfl

theorem Since.marked (h : Since boot top M S k) (hu : (k.procs i).state ≠ .unused)
    (status : ℤ) : Since boot top M S (k.marked i status) := by
  refine h.of_rfl rfl rfl rfl rfl rfl rfl fun j => ?_
  by_cases hj : j = i
  · obtain ⟨hst, hsp, -⟩ := marked_self k i status
    rw [hj, hst, hsp]
    exact ⟨⟨fun hc => (nomatch hc), fun hc => absurd hc hu⟩, rfl⟩
  · obtain ⟨hst, hsp, -⟩ := marked_other k status hj
    rw [hst, hsp]
    exact ⟨Iff.rfl, rfl⟩

theorem Since.released (h : Since boot top M S k) (h0 : i ≠ 0) (hS : i ∈ S) (hi : i < maxProcesses)
    (hu : (k.procs i).state ≠ .unused) : Since boot top M S (k.released i) := by
  have hsp := spaceAt_some h0 hi hu
  have hok := spaceOk_at h.inv hsp
  have hacts := @releasePages_acts k.phys (k.procs i).space
    { (k.procs i).space with umap := [] } hok rfl rfl hok.perm
  have hself : (k.released i).procs i = { k.procs i with
      space := { (k.procs i).space with umap := [] }
      fds := (Kernel.vfsCloseProcessFds k.files (k.procs i).fds).2 } := Function.update_self ..
  refine h.change h0 hS (h.inv.mem.acts hsp hacts) ?_ ?_ ?_ rfl rfl rfl rfl rfl
  · exact fun j hj sp₀ hj₀ => h.inv.mem.acts_untouched hj₀ hj hsp hacts
  · rw [spaceAt_some h0 hi (by rw [hself]; exact hu), hself]
  · exact fun j hj => Function.update_of_ne hj _ _

theorem Since.exitProcess (h : Since boot top M S k) (h0 : i ≠ 0) (hS : i ∈ S)
    (hi : i < maxProcesses)
    (hu : (k.procs i).state ≠ .unused) (status : ℤ) :
    Since boot top M S (k.exitProcess i status) := by
  rw [exitProcess_eq]
  refine Since.wake ((h.marked hu status).released h0 hS hi ?_) (wakes _ _)
  rw [(marked_self k i status).1]
  exact fun hc => nomatch hc

theorem Since.exit {status : ℤ} (h : Since boot top M S k) (hs : Sys.Ok k.sys l)
    (hS : ∀ i, k.processCurrent = some i → i ∈ S) (he : Exited k status k') :
    Since boot top M S k' := by
  cases he with
  | refused => exact h.ret _
  | exited hi hpid _ =>
    obtain ⟨hlt, hu, -, -⟩ := running_live hs hi
    exact (h.exitProcess (slot_ne_zero hs hpid) (hS _ hi) hlt hu status).of_procs rfl rfl rfl rfl

theorem storeStatus_acts {ustatus : ℕ} {status : ℤ} (hok : SpaceOk ph sp)
    (hidden : ∀ v, 256 ≤ pml4Idx v → user (vmmGetPte ph.ram sp.cr3 v) = false)
    (hfit : ustatus % pageSize + 4 ≤ pageSize) :
    Acts ph sp (Kernel.storeStatus ph sp.cr3 ustatus status) sp := by
  unfold Kernel.storeStatus
  split
  · exact .refl hok
  · split
    · exact .refl hok
    · rename_i hpage
      dsimp only
      split
      · exact .refl hok
      · simp only [pageOk, Bool.not_eq_true', Bool.not_eq_false, Bool.and_eq_true] at hpage
        have hlow : pml4Idx ustatus < 256 := by
          by_contra hc
          rw [hidden ustatus (by omega)] at hpage
          exact absurd hpage.1.2 Bool.false_ne_true
        obtain ⟨f, hf, he⟩ := virtToPhys_alias hok hlow hpage.1.1
        apply hok.writePage hf hfit
        intro x hx
        unfold store
        rw [he, if_neg (by omega)]

theorem FramesInv.hidden (h : FramesInv boot top k) (hsp : k.spaceAt i = some sp) (v : ℕ)
    (hv : 256 ≤ pml4Idx v) : user (vmmGetPte k.phys.ram sp.cr3 v) = false := by
  have hk : KernelOk k.phys k.kernelPml4 top := h.mem.part .tables
  have hlt : pml4Idx v < 512 := Nat.mod_lt _ (by decide)
  have hshare : entry k.phys.ram sp.cr3 (pml4Idx v) = entry k.phys.ram k.kernelPml4 (pml4Idx v) :=
    ((h.mem.part (.space i) sp hsp).2 _ hv hlt).trans (hk.top _ hv hlt).symm
  have := congrArg Prod.snd (translation_share hshare)
  rw [show vmmGetPte k.phys.ram sp.cr3 v = vmmGetPte k.phys.ram k.kernelPml4 v from this]
  exact hk.hidden v hv

theorem Since.tryReap (h : Since boot top M S k) (hs : Sys.Ok k.sys l)
    (hS : ∀ i, (k.procs i).state = .zombie → i ∈ S) (parent pid : ℤ) :
    Since boot top M S (k.processTryReap parent pid).1 := by
  rcases tryReap_cases hs parent pid with ⟨i, k₁, hr, hi, hz, -, -, hpos, -, rfl⟩ | ⟨hr, -⟩ | hr
  · rw [hr]
    have h0 := slot_ne_zero hs (ne_of_gt hpos)
    exact (h.processDestroy h0 (hS i hz) hi).of_procs rfl rfl rfl rfl
  · rw [hr]
    exact h
  · rw [hr]
    exact h

theorem Since.write {m : Mem} (h : Since boot top M S k) (hS : i ∈ S) (hsp : k.spaceAt i = some sp)
    (ha : Acts k.phys sp { k.phys with ram := m } sp) :
    Since boot top M S { k with phys := { k.phys with ram := m } } := by
  have hmem := h.inv.mem.acts hsp ha
  refine ⟨⟨?_, h.inv.heapTop, h.inv.nextStack, h.inv.kernel⟩, h.spares.trans fun j hj => ⟨rfl, ?_⟩⟩
  swap
  · exact fun sp₀ hj₀ => h.inv.mem.acts_untouched hj₀ (fun hc => hj (hc ▸ hS)) hsp ha
  have hself : Function.update k.spaceAt i (some sp) = k.spaceAt := by
    rw [← hsp]
    exact Function.update_eq_self ..
  rw [show k.memory.space = k.spaceAt from rfl, hself] at hmem
  exact hmem

theorem storeStatus_ram (ph : Phys) (cr3 ustatus : ℕ) (status : ℤ) :
    Kernel.storeStatus ph cr3 ustatus status =
      { ph with ram := (Kernel.storeStatus ph cr3 ustatus status).ram } := by
  unfold Kernel.storeStatus
  split
  · rfl
  · split
    · rfl
    · dsimp only
      split <;> rfl

theorem Since.wait {pid : ℤ} {ustatus : ℕ} (h : Since boot top M S k) (hs : Sys.Ok k.sys l)
    (hS : ∀ i, k.processCurrent = some i ∨ (k.procs i).state = .zombie → i ∈ S)
    (huser : k.UserCall) (hfit : ustatus % pageSize + 4 ≤ pageSize)
    (hw : Waited k pid ustatus k') : Since boot top M S k' := by
  have hset : ∀ {i st}, k.processCurrent = some i → st ≠ .unused →
      Since boot top M S (k.setProc i { k.procs i with state := st, waitPid := pid }) :=
    fun hi hst =>
      h.setProc rfl ⟨fun hc => absurd hc hst, fun hc => absurd hc (running_live hs hi).2.1⟩
  cases hw with
  | refused r => exact h.ret r
  | @reaped i c k₁ hi hr hcz hothers _ =>
    obtain ⟨hlt, hu, hz, -⟩ := running_live hs hi
    have hreap := h.tryReap hs (fun i hi => hS i (Or.inr hi)) (k.procs i).pid pid
    rw [hr] at hreap
    have hproc : k₁.procs i = k.procs i := hothers i fun hc => hz (hc ▸ hcz)
    have hsp := @spaceAt_some k₁ i (fun hc => huser (hc ▸ hi)) hlt (by rw [hproc]; exact hu)
    have hacts := @storeStatus_acts k₁.phys _ ustatus (k.procs c).exitStatus
      (spaceOk_at hreap.inv hsp) (hreap.inv.hidden hsp) hfit
    rw [storeStatus_ram, hproc] at hacts
    have := (hreap.write (hS i (Or.inl hi)) (hproc ▸ hsp) hacts).ret (k.procs c).pid
    rw [← storeStatus_ram] at this
    exact this
  | blocked hi _ _ => exact (hset hi (by decide)).of_procs rfl rfl rfl rfl
  | declined hi _ => exact (hset hi (by decide)).of_procs rfl rfl rfl rfl

theorem Since.onSpace {err : ℤ} {f : Phys → Space → Phys × Space × ℤ}
    (h : Since boot top M S k) (hs : Sys.Ok k.sys l)
    (hS : ∀ i, k.processCurrent = some i → i ∈ S) (huser : k.UserCall)
    (hf : ∀ {ph sp ph' sp' r}, SpaceOk ph sp → f ph sp = (ph', sp', r) → Acts ph sp ph' sp') :
    Since boot top M S (k.onSpace err f) := by
  unfold Kernel.onSpace
  split
  · exact h.ret _
  · rename_i i hi
    obtain ⟨hlt, hu, -, -⟩ := running_live hs hi
    have h0 : i ≠ 0 := fun hc => huser (hc ▸ hi)
    have hsp := spaceAt_some h0 hlt hu
    exact (h.setSpace h0 (hS i hi) hlt hu (hf (spaceOk_at h.inv hsp) rfl)).ret _

theorem Since.createKthread (h : Since boot top M S k) (hroom : k.StackRoom) (func arg : ℕ) :
    Since boot top M S (k.createKthread func arg).1 := by
  unfold Kernel.createKthread
  split
  · exact h
  · exact (h.allocKstack hroom).of_procs rfl rfl rfl rfl

theorem KernelOk.vmmGetPte_low {pml4 v : ℕ} (h : KernelOk ph pml4 top) (hv : pml4Idx v < 256) :
    vmmGetPte ph.ram pml4 v = 0 := by
  unfold vmmGetPte
  dsimp only
  rw [h.low _ hv]
  rfl

theorem Since.userStore {v : ℕ} {b : UInt8} (h : Since boot top M S k) (hs : Sys.Ok k.sys l)
    (hS : ∀ i, k.processCurrent = some i → i ∈ S) (hst : k.userStore v b = some k') :
    Since boot top M S k' := by
  unfold Kernel.userStore at hst
  split at hst
  · cases hst
  · rename_i i hi
    obtain ⟨hlt, hu, -, -⟩ := running_live hs hi
    dsimp only at hst
    split at hst
    · rename_i hok
      cases hst
      by_cases h0 : i = 0
      · -- the kernel process has no pages
        have hk : KernelOk k.phys k.kernelPml4 top := h.inv.mem.part .tables
        have hlow : pml4Idx v < 256 := by
          unfold pml4Idx
          have := hok.1
          unfold userLimit at this
          omega
        have hpte := hok.2
        rw [h0, h.inv.kernel.2.1, hk.vmmGetPte_low hlow] at hpte
        exact absurd hpte (by decide)
      · have hsp := spaceAt_some h0 hlt hu
        exact h.write (hS i hi) hsp (userStore_acts (spaceOk_at h.inv hsp) hok.1 hok.2)
    · cases hst

def touched (k : Kernel) : Op → Set ℕ
  | .spawnUser _ _ | .spawnElf _ _ | .fork _ _ => {j | (k.procs j).state = .unused}
  | .execve _ | .brk _ | .mmap _ _ _ _ _ _ | .munmap _ _ | .exit _ | .fault _ | .store _ _
  | .vfsRead _ _ _ | .vfsGetcwd _ _ => {j | k.processCurrent = some j}
  | .wait _ _ => {j | k.processCurrent = some j ∨ (k.procs j).state = .zombie}
  | .reap _ => {j | (k.procs j).state = .zombie}
  | _ => ∅

theorem Since.setFd (h : Since boot top M S k) (i fd : ℕ) (e : Fd) (files : Vfs.Files) :
    Since boot top M S { k.setFd i fd e with files := files } :=
  (@Since.setProc boot top M S k i { k.procs i with fds := (k.procs i).fds.set fd e } h rfl
    Iff.rfl).of_procs rfl rfl rfl rfl

theorem Since.fileCall {op : Op} (h : Since boot top M S k) (hS : touched k op ⊆ S)
    (hf : Fits k op) (hi : k.processCurrent = some i)
    (hsp : k.UserCall → k.spaceAt i = some (k.procs i).space) (hc : FileCall k i op k') :
    Since boot top M S k' := by
  cases hc with
  | nothing => exact h
  | unopened => exact h.heapGrow hf
  | opened _ _ _ => exact (h.heapGrow hf).setFd _ _ _ _
  | closed _ => exact h.setFd _ _ _ _
  | unread hc => exact h.write (hS hi) (hsp hf) (copyToUser_acts (spaceOk_at h.inv (hsp hf)) hc)
  | read _ hc =>
    exact (h.write (hS hi) (hsp hf) (copyToUser_acts (spaceOk_at h.inv (hsp hf)) hc)).of_procs
      rfl rfl rfl rfl
  | sought _ _ => exact h.of_procs rfl rfl rfl rfl
  | entered _ _ _ => exact h.setProc rfl Iff.rfl
  | told hc => exact h.write (hS hi) (hsp hf) (copyToUser_acts (spaceOk_at h.inv (hsp hf)) hc)
  | @handled _ grow _ =>
    have hproc : (k.heapGrow grow).procs i = k.procs i := congrFun (heapGrow_same grow k).procs i
    apply (h.heapGrow hf).setProc
    · rw [hproc]
    · rw [hproc]

theorem Since.step {op : Op} (h : Since boot top M S k) (hs : Sys.Ok k.sys l)
    (hS : touched k op ⊆ S) (hf : Fits k op) (hstep : step k op = some k') :
    Since boot top M S k' := by
  by_cases hcall : op.OnProcess
  · rcases fileCalled hcall hstep with rfl | ⟨i, k₁, r, hi, hc, rfl⟩
    · exact h.ret _
    · obtain ⟨hlt, hu, -, -⟩ := running_live hs hi
      exact (h.fileCall hS hf hi (fun huser =>
        spaceAt_some (fun h0 => huser (h0 ▸ hi)) hlt hu) hc).ret r
  cases op with
  | spawnUser code parent =>
    cases hstep
    exact h.spawnUser (fun c hc => hS hc) hf code parent
  | spawnElf image parent =>
    cases hstep
    exact h.spawnElf (fun c hc => hS hc) hf.1 hf.2.1 hf.2.2 parent
  | fork grow heap =>
    cases hstep
    exact h.fork hs (fun c hc => hS hc) hf.1 hf.2 (forked k grow heap)
  | execve upath =>
    cases hstep
    exact h.exec hs (fun i hi => hS hi) hf (execed k upath)
  | brk addr =>
    cases hstep
    exact h.onSpace hs (fun i hi => hS hi) hf sysBrk_acts
  | mmap addr length prot flags fd offset =>
    cases hstep
    exact h.onSpace hs (fun i hi => hS hi) hf sysMmap_acts
  | munmap addr length =>
    cases hstep
    exact h.onSpace hs (fun i hi => hS hi) hf sysMunmap_acts
  | exit status => exact h.exit hs (fun i hi => hS hi) (exited hstep)
  | fault vector => exact h.exit hs (fun i hi => hS hi) (exited hstep)
  | wait pid ustatus => exact h.wait hs (fun i hi => hS hi) hf.1 hf.2 (waited hs hstep)
  | reap pid =>
    cases hstep
    exact h.tryReap hs (fun i hi => hS hi) 0 pid
  | yield =>
    obtain ⟨⟨k₁, b⟩, ht, rfl⟩ := Option.map_eq_some_iff.mp hstep
    obtain ⟨sc, -, rfl⟩ := tick_eq_some ht
    exact h.of_procs rfl rfl rfl rfl
  | tick =>
    obtain ⟨⟨k₁, b⟩, ht, rfl⟩ := Option.map_eq_some_iff.mp hstep
    obtain ⟨sc, -, rfl⟩ := tick_eq_some ht
    exact h.of_procs rfl rfl rfl rfl
  | createKthread func arg =>
    cases hstep
    exact h.createKthread hf func arg
  | schedExit =>
    obtain ⟨sc, -, rfl⟩ := Option.map_eq_some_iff.mp hstep
    exact h.of_procs rfl rfl rfl rfl
  | schedStart =>
    cases hstep
    exact h.of_procs rfl rfl rfl rfl
  | heapGrow n =>
    cases hstep
    exact h.heapGrow hf
  | registers f =>
    cases hstep
    exact h.of_procs rfl rfl rfl rfl
  | store v b => exact h.userStore hs (fun i hi => hS hi) hstep
  | _ => exact absurd trivial hcall

theorem FramesInv.step {op : Op} (h : FramesInv boot top k) (hs : Sys.Ok k.sys l)
    (hf : Fits k op) (hstep : step k op = some k') : FramesInv boot top k' :=
  ((h.since (touched k op)).step hs le_rfl hf hstep).inv

end Operations

section Runs

variable {boot : Set ℕ} {top : UpperHalf} {k k' : Kernel}

/-- The kernel at boot: the frames that are in use have their owners, and the idle thread has
been created. -/
def BootedFrames (boot : Set ℕ) (top : UpperHalf) (k : Kernel) : Prop :=
  ∃ (k₀ : Kernel) (idleFunc : ℕ), k₀.exits = [] ∧ k₀.reaps = [] ∧
    (k₀.schedInit idleFunc).sched.idleThread ≠ 0 ∧ k = (k₀.schedInit idleFunc).processInit ∧
    MemOk boot top ⟨k₀.phys, k₀.kernelPml4, k₀.heapFrames, k₀.stackFrames, fun _ => none⟩ ∧
    kheapStart ≤ k₀.heapTop ∧ kheapStart ≤ k₀.nextStackVaddr ∧ k₀.StackRoom

theorem BootedFrames.booted (h : BootedFrames boot top k) : Booted k := by
  obtain ⟨k₀, f, he, hr, hidle, hk, -⟩ := h
  exact ⟨k₀, f, he, hr, hidle, hk⟩

/-- The memory after `sched_init` and `process_init`: the idle thread has a stack. -/
theorem init_memory (k₀ : Kernel) (f : ℕ) :
    (k₀.schedInit f).processInit.memory = ⟨k₀.allocKstack.1.phys, k₀.kernelPml4, k₀.heapFrames,
      k₀.allocKstack.1.stackFrames, fun _ => none⟩ ∧
    (k₀.schedInit f).processInit.heapTop = k₀.heapTop ∧
    (k₀.schedInit f).processInit.nextStackVaddr =
      add64 k₀.nextStackVaddr ((kthreadStackPages + 1) * pageSize) ∧
    (k₀.schedInit f).processInit.kernelPml4 = k₀.kernelPml4 := by
  have hspace : (k₀.schedInit f).processInit.spaceAt = fun _ => none := by
    funext i
    by_cases h0 : i = 0
    · exact if_neg fun h => h.1 h0
    · apply spaceAt_unused
      unfold Kernel.processInit
      dsimp only
      rw [if_neg h0]
  have htid : ¬ Sched.maxThreads ≤ (Sched.bootThreads k₀.kernelPml4).nextTid := by
    show ¬ 64 ≤ 1
    omega
  unfold Kernel.memory
  rw [hspace]
  unfold Kernel.processInit Kernel.schedInit Kernel.createKthread
  rw [if_neg htid]
  exact ⟨rfl, rfl, rfl, rfl⟩

theorem BootedFrames.inv (h : BootedFrames boot top k) : FramesInv boot top k := by
  obtain ⟨k₀, f, -, -, -, rfl, hmem, htop, hnext, -, hroom⟩ := h
  obtain ⟨hinit, hheap, hstack, hpml4⟩ := init_memory k₀ f
  have hpages : (0 + kthreadStackPages) * pageSize < (kthreadStackPages + 1) * pageSize :=
    Nat.mul_lt_mul_of_pos_right (by omega) (by decide)
  refine ⟨?_, hheap ▸ htop, ?_, fun hc => (nomatch hc), rfl, rfl⟩
  · rw [hinit]
    exact (@kstackLoop_mem boot top _ 0 kthreadStackPages k₀.nextStackVaddr _ _ _ hmem hnext
      (by omega) rfl).1
  · rw [hstack, add64_of_lt hroom]
    omega

theorem reach_frames (h : Reach step Admissible (BootedFrames boot top) k) :
    (∃ l, Sys.Ok k.sys l) ∧ FramesInv boot top k := by
  apply h.invariant (P := fun k => (∃ l, Sys.Ok k.sys l) ∧ FramesInv boot top k)
  · exact fun k hk => ⟨booted_ok hk.booted, hk.inv⟩
  · rintro k op k' ⟨⟨l, hs⟩, hf⟩ ⟨hl, hfit⟩ hstep
    exact ⟨step_ok hs hl hstep, hf.step hs hfit hstep⟩

end Runs

end VoidOS.Proc
