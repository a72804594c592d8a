import VoidOS.Supply

namespace VoidOS.Proc

open Transition ByteMem PageTree Ownership Mm Elf

/-- The machine of `bootPhys` with 512 frames in use before the kernel starts. -/
def bootKernel (n : ℕ) (blobs : Blobs) : Kernel where
  phys := bootPhys 512 n
  kernelPml4 := 0x1000
  nxOk := true
  blobs := blobs
  trampoline := 0
  nextStackVaddr := kstackStart
  heapTop := kheapStart
  procs := fun _ => ⟨-1, -1, .unused, 0, none, ⟨0, [], 0, 0, 0⟩, [], none, 0, []⟩
  nextPid := 0
  sched := Sched.bootThreads 0
  files := fun _ => none
  root := Vfs.builtTree
  heapFrames := []
  stackFrames := []
  exits := []
  reaps := []

/-- The kernel once `sched_init` and `process_init` have run. -/
def booted (n : ℕ) (blobs : Blobs) : Kernel := ((bootKernel n blobs).schedInit 0).processInit

def bootUpper : UpperHalf := ⟨entry bootMem 0x1000, translation bootMem 0x1000⟩

def bootOwned : Set ℕ := {f | f < 512} \ tablesOf bootMem 0x1000 (KernelPlaces bootMem 0x1000)

section Boot

variable {n v : ℕ} {blobs : Blobs}

theorem bootMem_user {t i : ℕ} (hi : i < 512) (ht : t % 4096 = 0) :
    user (entry bootMem t i) = false := by
  rw [bootMem_entry hi ht]
  split_ifs <;> decide

theorem bootMem_hidden (v : ℕ) : user (vmmGetPte bootMem 0x1000 v) = false := by
  have hlt : ∀ n, n % 512 < 512 := fun n => Nat.mod_lt n (by decide)
  have hzero : user 0 = false := by decide
  unfold vmmGetPte
  dsimp only
  split_ifs
  · exact hzero
  · exact hzero
  · exact bootMem_user (hlt _) (addr_mod _)
  · exact hzero
  · exact bootMem_user (hlt _) (addr_mod _)
  · exact bootMem_user (hlt _) (addr_mod _)

theorem kheap_pml4Idx (hl : kheapStart ≤ v) (hr : v < 2 ^ 64) : pml4Idx v = 511 := by
  unfold kheapStart at hl
  unfold pml4Idx
  omega

theorem bootMem_region (hl : kheapStart ≤ v) (hr : v < 2 ^ 64) :
    KernelPlaces bootMem 0x1000 (indices v) := by
  have hlast := kheap_pml4Idx hl hr
  have hpres : present (entry bootMem 0x1000 511) = true := by
    rw [bootMem_entry (by decide) (by decide)]
    decide
  have hindex : ∀ i ∈ indices v, i < 512 := by
    intro i hmem
    simp only [indices, List.mem_cons, List.not_mem_nil, or_false] at hmem
    omega
  refine ⟨v, by omega, List.prefix_rfl, fun _ => hlast ▸ hpres, ?_⟩
  intro q i u hq hne hlen hw hp
  have hi : i < 512 := hindex i (hq.subset (by simp))
  have hu := walk_mod (show (0x1000 : ℕ) % 4096 = 0 by decide) hw
  rcases bootMem_present hi hu hp with ⟨rfl, -, he⟩ | ⟨-, -, he⟩ | ⟨-, -, he⟩ | ⟨-, -, he⟩
  · -- the way to the huge page starts at another entry
    cases q with
    | nil => exact absurd rfl hne
    | cons a q =>
      have ha : a = 511 := by
        rw [← hlast]
        exact (List.cons_prefix_cons.mp hq).1
      rw [ha, walk, if_pos hpres, show addr (entry bootMem 0x1000 511) = 0x4000 by
        rw [bootMem_entry (by decide) (by decide)]
        decide] at hw
      cases q with
      | nil => exact absurd (Option.some.inj hw) (by decide)
      | cons j q =>
        have hj : j < 512 := hindex j (hq.subset (by simp))
        rw [walk] at hw
        split at hw
        · rename_i hpj
          rcases bootMem_present hj (by decide) hpj with ⟨h, -⟩ | ⟨h, -⟩ | ⟨h, -⟩ | ⟨h, -⟩ <;>
            exact absurd h (by decide)
        · cases hw
  · exact (congrArg huge he).trans (by decide)
  · exact (congrArg huge he).trans (by decide)
  · exact (congrArg huge he).trans (by decide)

theorem bootPhys_kernel (hn : 512 ≤ n) : KernelOk (bootPhys 512 n) 0x1000 bootUpper := by
  refine ⟨bootPhys_tree (by decide) hn, fun v hl hr => bootMem_region hl hr, ?_, fun _ _ _ => rfl,
    fun _ _ _ => rfl, fun v _ => bootMem_hidden v⟩
  intro i hi
  show present (entry bootMem 0x1000 i) = false
  rw [bootMem_entry (by omega) (by decide), if_neg (fun h => absurd h.1 (by decide)),
    if_neg (fun h => absurd h.1 (by decide)), if_neg (by omega), if_neg (by omega)]
  rfl

theorem bootKernel_mem (hn : 512 ≤ n) (hb : n * pageSize ≤ 2 ^ 52) :
    MemOk bootOwned bootUpper ⟨bootPhys 512 n, 0x1000, [], [], fun _ => none⟩ := by
  have hk := bootPhys_kernel hn
  have hsub : tablesOf bootMem 0x1000 (KernelPlaces bootMem 0x1000) ⊆ {f | f < 512} := by
    intro f hf
    exact of_decide_eq_true (hk.tree.tables_subset hf)
  refine ⟨bootPhys_ok (by decide) hb, ⟨by decide, ?_⟩, ⟨?_, ?_⟩, ?_⟩
  · rintro ⟨p, hp, hlen, hw⟩
    rcases bootMem_walk hp hlen hw with ⟨-, h⟩ | ⟨-, h⟩ | ⟨-, h⟩ | ⟨-, h⟩ <;> omega
  · ext f
    rw [Set.mem_iUnion]
    constructor
    · intro hf
      by_cases ht : f ∈ tablesOf bootMem 0x1000 (KernelPlaces bootMem 0x1000)
      · exact ⟨.tables, ht⟩
      · exact ⟨.boot, of_decide_eq_true hf, ht⟩
    · rintro ⟨o, ho⟩
      cases o with
      | boot => exact decide_eq_true ho.1
      | tables => exact decide_eq_true (hsub ho)
      | heap => exact absurd ho List.not_mem_nil
      | kstack => exact absurd ho List.not_mem_nil
      | space i => exact absurd ho (Set.notMem_empty f)
  · intro o o' hne
    rw [Set.disjoint_left]
    intro f hf hf'
    cases o with
    | boot =>
      cases o' with
      | boot => exact hne rfl
      | tables => exact hf.2 hf'
      | heap => exact absurd hf' List.not_mem_nil
      | kstack => exact absurd hf' List.not_mem_nil
      | space i => exact hf'
    | tables =>
      cases o' with
      | boot => exact hf'.2 hf
      | tables => exact hne rfl
      | heap => exact absurd hf' List.not_mem_nil
      | kstack => exact absurd hf' List.not_mem_nil
      | space i => exact hf'
    | heap => exact absurd hf List.not_mem_nil
    | kstack => exact absurd hf List.not_mem_nil
    | space i => exact hf
  · intro o
    cases o with
    | boot => trivial
    | tables => exact hk
    | heap => exact ⟨List.nodup_nil, fun a ha => absurd ha List.not_mem_nil⟩
    | kstack => exact ⟨List.nodup_nil, fun a ha => absurd ha List.not_mem_nil⟩
    | space i => exact fun sp h => nomatch h

theorem card_bootPhys : (bootPhys 512 n).free.card = n - 512 := by
  have heq : (bootPhys 512 n).free = Finset.Ico 512 n := by
    ext f
    rw [Phys.mem_free, Finset.mem_Ico]
    simp only [bootPhys, decide_eq_false_iff_not]
    omega
  rw [heq, Nat.card_Ico]

theorem schedInit_idle {k₀ : Kernel} (hok : k₀.phys.Ok) (hfree : kstackCost ≤ k₀.phys.free.card)
    (f : ℕ) : (k₀.schedInit f).sched.idleThread = 1 := by
  generalize hk : ({ k₀ with sched := Sched.bootThreads k₀.kernelPml4 } : Kernel) = k₁
  have hs₁ : k₁.sched = Sched.bootThreads k₀.kernelPml4 ∧ k₁.phys = k₀.phys := by
    rw [← hk]
    exact ⟨rfl, rfl⟩
  have htid : ¬ Sched.maxThreads ≤ (Sched.bootThreads k₀.kernelPml4).nextTid := by
    show ¬ 64 ≤ 1
    omega
  obtain ⟨k₂, top, he, -, hsame⟩ := @allocKstack_costs k₁ (hs₁.2 ▸ hok) (hs₁.2 ▸ hfree)
  unfold Kernel.schedInit Kernel.createKthread
  rw [hk, if_neg (by rw [hs₁.1]; exact htid), he]
  dsimp only
  rw [hsame.sched, hs₁.1]
  unfold Sched.schedCreateKthread
  rw [if_neg htid]
  rfl

theorem booted_frames (hn : 512 + kstackCost ≤ n) (hb : n * pageSize ≤ 2 ^ 52) :
    BootedFrames bootOwned bootUpper (booted n blobs) := by
  have hstack : kheapStart ≤ kstackStart ∧
      kstackStart + (kthreadStackPages + 1) * pageSize < 2 ^ 64 := by decide
  refine ⟨bootKernel n blobs, 0, rfl, rfl, ?_, rfl, bootKernel_mem (by omega) hb, le_rfl, hstack.1,
    le_rfl, hstack.2⟩
  rw [schedInit_idle (bootPhys_ok (by decide) hb)]
  · decide
  · show kstackCost ≤ (bootPhys 512 n).free.card
    rw [card_bootPhys]
    omega

/-- The kernel after boot: the boot thread and the idle thread, and no process besides the
kernel. -/
theorem booted_start (hn : 512 + kstackCost ≤ n) (hb : n * pageSize ≤ 2 ^ 52) :
    Costs (bootPhys 512 n) (booted n blobs).phys kstackCost ∧ (booted n blobs).sched.nextTid = 2 ∧
      (booted n blobs).nextPid = 1 ∧ (∀ i, i ≠ 0 → ((booted n blobs).procs i).state = .unused) ∧
      (booted n blobs).Live 0 := by
  obtain ⟨k₁, top, he, hc, -⟩ := @allocKstack_costs (bootKernel n blobs)
    (bootPhys_ok (by decide) hb) (by
      show kstackCost ≤ (bootPhys 512 n).free.card
      rw [card_bootPhys]
      omega)
  have hst : ((booted n blobs).procs 0).state = .running := rfl
  refine ⟨?_, ?_, rfl, ?_, 0, by decide, rfl, by simp [hst], by simp [hst]⟩
  · have hphys := congrArg Memory.phys (init_memory (bootKernel n blobs) 0).1
    rw [show (booted n blobs).phys = _ from hphys, he]
    exact hc
  · unfold booted Kernel.processInit Kernel.schedInit Kernel.createKthread
    dsimp only
    split
    · rename_i htid
      exact absurd htid (show ¬ 64 ≤ 1 by omega)
    · unfold Sched.schedCreateKthread
      dsimp only
      split
      · rename_i htid
        exact absurd htid (show ¬ 64 ≤ 1 by omega)
      · split <;> rfl
  · intro i hi
    unfold booted Kernel.processInit
    dsimp only
    rw [if_neg hi]

theorem booted_below (hn : 512 + kstackCost ≤ n) (hb : n * pageSize ≤ 2 ^ 52) (f : ℕ)
    (hf : (booted n blobs).phys.used f = true) : f < 512 + kstackCost :=
  (booted_start hn hb).1.below 512 (fun _ hg => of_decide_eq_true hg) f hf

end Boot

/-- `process_spawn_user` has made the first process of a machine with `n` frames, from a page of
code. -/
structure FirstBorn (n : ℕ) (code : List UInt8) (k : Kernel) (c : ℕ) (sp : Space) : Prop where
  step : step (booted n []) (.spawnUser code 0) = some k
  reach : Reach Proc.step Admissible (· = booted n []) k
  born : Born (booted n []) k c ⟨1, 0, .ready, 0, some 2, sp, Kernel.initialFds, none, 0,
    [Vfs.slash]⟩ (Kernel.userFrame userCodeBase (userStackTop - 16))
  costs : Costs (booted n []).phys k.phys 133
  free : n ≤ (booted n []).phys.free.card + 576
  cr3 : sp.cr3 = (addressSpaceCreate (booted n []).phys (booted n []).kernelPml4).2
  umap : sp.umap.length = 17
  brk : sp = brkInit (booted n []).nxOk sp (add64 userCodeBase code.length)
  ne_zero : c ≠ 0
  other : ∀ j, j ≠ c → k.procs j = (booted n []).procs j
  slot : ∃ i < maxProcesses, (k.procs i).state = .unused
  files : k.files = (booted n []).files

theorem booted_born {n : ℕ} (hn : 1024 ≤ n) (hb : n * pageSize ≤ 2 ^ 52) (code : List UInt8)
    (hpos : 0 < code.length) (hlen : code.length ≤ 4096) :
    ∃ k c sp, FirstBorn n code k c sp := by
  have hstack : kstackCost = 64 := by decide
  have hn' : 512 + kstackCost ≤ n := by omega
  obtain ⟨hcost, htid, hpid, hun, hlive⟩ := @booted_start n [] hn' hb
  have hfree := hcost.free
  rw [card_bootPhys] at hfree
  have hpages : pagesTo 0 code.length = 1 := by
    unfold pagesTo pageSize
    omega
  have hcode : processCost (pagesTo 0 code.length + 16) = 133 := by
    rw [hpages]
    decide
  obtain ⟨k, c, sp, hspawn, hborn, hc, hcr3, humap, hbrk, hfiles⟩ := @spawnUser_succeeds (booted n []) 1
    code hcost.ok (by decide) (hun 1 (by decide)) hpos (by rw [hpages]; decide)
    (by omega) (by rw [htid]; decide) 0
  rw [hcode] at hc
  rw [hpages] at humap
  rw [htid, hpid] at hborn
  have hstep : step (booted n []) (.spawnUser code 0) = some k := by
    show some ((booted n []).processSpawnUser code 0).1 = some k
    rw [hspawn]
  have hroom : (booted n []).StackRoom := by
    unfold Kernel.StackRoom
    rw [show (booted n []).nextStackVaddr = _ from (init_memory (bootKernel n []) 0).2.2.1]
    show kstackStart ≤ add64 kstackStart ((kthreadStackPages + 1) * pageSize) ∧
      add64 kstackStart ((kthreadStackPages + 1) * pageSize) + _ < 2 ^ 64
    decide +kernel
  have h0 : c ≠ 0 := by
    rintro rfl
    exact (nomatch (show ProcState.running = .unused from hborn.unused))
  have hother : ∀ j, j ≠ c → k.procs j = (booted n []).procs j := by
    intro j hj
    rw [hborn.procs, Function.update_of_ne hj]
  have hadm : Admissible (booted n []) (.spawnUser code 0) := ⟨hlive, hroom⟩
  have hstart : Reach Proc.step Admissible (· = booted n []) (booted n []) := .init rfl
  refine ⟨k, c, sp, hstep, hstart.step hadm hstep, hborn, hc,
    by omega, hcr3, humap, hbrk, h0, hother, ?_, hfiles⟩
  by_cases h1 : c = 1
  · refine ⟨2, by decide, ?_⟩
    rw [hother 2 (by omega)]
    exact hun 2 (by decide)
  · refine ⟨1, by decide, ?_⟩
    rw [hother 1 (Ne.symm h1)]
    exact hun 1 (by decide)

/-- A process has been spawned on the machine, and its PML4 is in frame 530. -/
structure Spawned (k : Kernel) (c : ℕ) : Prop where
  step : step (booted 1024 []) (.spawnUser [0xEB, 0xFE] 0) = some k
  reach : Reach Proc.step Admissible (BootedFrames bootOwned bootUpper) k
  used : k.Used c
  ne_zero : c ≠ 0
  cr3 : (k.procs c).space.cr3 = 0x212000
  top : k.phys.used 1023 = false
  free : 0 < k.phys.free.card
  thread : (k.sched.threads 2).proc = some c
  state : k.sched.state 2 ≠ .exited
  live : k.Live 0
  slot : ∃ i < maxProcesses, (k.procs i).state = .unused

theorem booted_spawn : ∃ k c, Spawned k c := by
  have hn : 512 + kstackCost ≤ 1024 := by decide
  have hb : 1024 * pageSize ≤ 2 ^ 52 := by decide
  obtain ⟨k, c, sp, h⟩ := booted_born (le_refl 1024) hb [0xEB, 0xFE] (by decide) (by decide)
  have hself : k.procs c = ⟨1, 0, .ready, 0, some 2, sp, Kernel.initialFds, none, 0,
      [Vfs.slash]⟩ := by
    rw [h.born.procs, Function.update_self]
  obtain ⟨l, hs⟩ := booted_ok (booted_frames hn hb).booted
  obtain ⟨-, -, -, -, hproc, -, hstate⟩ := hs.sched.adopt h.born.sched
  rw [(@booted_start 1024 [] hn hb).2.1] at hproc hstate
  refine ⟨k, c, h.step, (Reach.init (booted_frames hn hb)).trans h.reach, ⟨h.born.lt, ?_⟩, h.ne_zero, ?_, ?_, ?_, ?_, ?_, ?_, h.slot⟩
  · rw [hself]
    exact fun hc => nomatch hc
  · rw [hself]
    exact h.cr3.trans (by decide +kernel)
  · refine Bool.eq_false_iff.mpr fun hu => ?_
    have hstack : kstackCost = 64 := by decide
    have := h.costs.below _ (booted_below hn hb) 1023 hu
    omega
  · have := h.costs.free
    have := h.free
    omega
  · rw [hproc, if_pos rfl]
  · rw [hstate, if_pos rfl]
    exact fun hc => nomatch hc
  · refine ⟨0, by decide, ?_⟩
    rw [h.other 0 h.ne_zero.symm]
    exact ⟨rfl, fun hc => (nomatch hc), fun hc => nomatch hc⟩

end VoidOS.Proc
