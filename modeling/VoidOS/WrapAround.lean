import VoidOS.Isolation

namespace VoidOS.Elf

open ByteMem PageTree Mm

@[simp]
theorem length_leBytes (n v : ℕ) : (leBytes n v).length = n := by
  induction n generalizing v with
  | zero => rfl
  | succ n ih => rw [leBytes, List.length_cons, ih]

theorem getD_leBytes {n i : ℕ} (hi : i < n) (v : ℕ) :
    (leBytes n v).getD i 0 = UInt8.ofNat (v / 256 ^ i) := by
  induction n generalizing i v with
  | zero => omega
  | succ n ih =>
    rw [leBytes]
    cases i with
    | zero =>
      rw [List.getD_cons_zero, pow_zero, Nat.div_one]
      apply UInt8.toNat_inj.mp
      simp
    | succ i =>
      rw [List.getD_cons_succ, ih (by omega), pow_succ', Nat.div_div_eq_div_mul]

theorem blit_leBytes (m : Mem) (a v : ℕ) : blit m a (leBytes 8 v) = setWord m a v := by
  funext x
  unfold blit setWord store
  rw [length_leBytes]
  split
  · rw [getD_leBytes (by omega)]
  · rfl

/-- The header and the program headers of an `ET_DYN` image with two segments of 8 bytes. The ends
of both are 1 once the load base is added, so that neither has a page of its own. -/
def pokeHeader (vaddr vaddr' : ℕ) : List UInt8 :=
  [0x7F, 0x45, 0x4C, 0x46, 2, 1, 1] ++ List.replicate 9 0 ++
  leBytes 2 etDyn ++ leBytes 2 62 ++ leBytes 4 1 ++ leBytes 8 vaddr ++ leBytes 8 ehdrSize ++
  leBytes 8 0 ++ leBytes 4 0 ++ leBytes 2 ehdrSize ++ leBytes 2 phdrSize ++ leBytes 2 2 ++
  leBytes 6 0 ++ leBytes 4 ptLoad ++ leBytes 4 5 ++ leBytes 8 176 ++ leBytes 8 vaddr ++
  leBytes 8 0 ++ leBytes 8 8 ++ leBytes 8 (2 ^ 64 + 1 - elfDynBase - vaddr) ++ leBytes 8 0 ++
  leBytes 4 ptLoad ++ leBytes 4 5 ++ leBytes 8 176 ++ leBytes 8 vaddr' ++
  leBytes 8 0 ++ leBytes 8 8 ++ leBytes 8 (2 ^ 64 + 1 - elfDynBase - vaddr') ++ leBytes 8 0

theorem length_pokeHeader (vaddr vaddr' : ℕ) : (pokeHeader vaddr vaddr').length = 176 := by
  unfold pokeHeader
  generalize 2 ^ 64 + 1 - elfDynBase - vaddr = size
  generalize 2 ^ 64 + 1 - elfDynBase - vaddr' = size'
  simp only [List.length_append, length_leBytes, List.length_replicate, List.length_cons,
    List.length_nil]

/-- The first segment starts at the entry with index 1 of the table in frame 530, by the direct map,
and holds `word`; nothing is mapped where the second one starts. -/
def pokeImage (word : ℕ) : Image :=
  ⟨pokeHeader (0xFFFF800000212008 - elfDynBase) (0xFFFF900000000000 - elfDynBase) ++ leBytes 8 word,
    by
      rw [List.length_append, length_pokeHeader, length_leBytes]
      norm_num⟩

def pokeSegment (vaddr : ℕ) : Phdr :=
  ⟨ptLoad, 5, 176, vaddr - elfDynBase, 8, 2 ^ 64 + 1 - vaddr, 0⟩

structure Pokes (word : ℕ) (ctx : ElfLoader) : Prop where
  accepted : elfValidate (pokeImage word) = .ok ctx
  image : ctx.image = pokeImage word
  base : ctx.base = elfDynBase
  loads : (pokeImage word).loads =
    [pokeSegment 0xFFFF800000212008, pokeSegment 0xFFFF900000000000]

set_option maxRecDepth 20000 in
theorem pokes_root : ∃ ctx, Pokes 0x212007 ctx := by
  obtain ⟨ctx, h⟩ := @accepted_of_isSome (pokeImage 0x212007) (by decide +kernel)
  obtain ⟨-, himg, -, hbase, -⟩ := elfValidate_spec h
  exact ⟨ctx, h, himg, hbase.trans (by decide +kernel), by decide +kernel⟩

set_option maxRecDepth 20000 in
theorem pokes_free : ∃ ctx, Pokes 0x3FF007 ctx := by
  obtain ⟨ctx, h⟩ := @accepted_of_isSome (pokeImage 0x3FF007) (by decide +kernel)
  obtain ⟨-, himg, -, hbase, -⟩ := elfValidate_spec h
  exact ⟨ctx, h, himg, hbase.trans (by decide +kernel), by decide +kernel⟩

section Load

variable {word : ℕ} {ctx : ElfLoader} {ph : Phys} {sp : Space} {nxOk : Bool} {blobs : Blobs}

theorem pokeImage_bytes (word : ℕ) : ((pokeImage word).bytes.drop 176).take 8 = leBytes 8 word := by
  unfold pokeImage
  dsimp only
  rw [List.drop_left' (length_pokeHeader _ _), List.take_of_length_le (by rw [length_leBytes])]

theorem pokeSegment_pages (nxOk : Bool) (ph : Phys) (sp : Space) {v : ℕ}
    (hv : v = 0xFFFF800000212008 ∨ v = 0xFFFF900000000000) :
    mapSegmentPages nxOk elfDynBase (pokeSegment v) ph sp = (ph, sp, .ok) := by
  have hn : ¬ pageDown ((pokeSegment v).vaddr elfDynBase) ≤
      pageDown (sub64 ((pokeSegment v).vend elfDynBase) 1) := by
    rcases hv with rfl | rfl <;> decide +kernel
  unfold mapSegmentPages
  dsimp only
  rw [if_neg hn]
  rfl

theorem poke_load (hp : Pokes word ctx)
    (hhit : vmmVirtToPhys ph.ram sp.cr3 0xFFFF800000212008 = 0x212008)
    (hmiss : vmmVirtToPhys (blit ph.ram 0x212008 (leBytes 8 word)) sp.cr3 0xFFFF900000000000 = 0) :
    elfLoadAll nxOk blobs ctx ph sp =
      ({ ph with ram := blit ph.ram 0x212008 (leBytes 8 word) }, sp, .error .errNomem) := by
  have hfirst : copySegmentData (pokeImage word) elfDynBase (pokeSegment 0xFFFF800000212008) ph sp =
      ({ ph with ram := blit ph.ram 0x212008 (leBytes 8 word) }, sp, .ok) := by
    have hva : add64 ((pokeSegment 0xFFFF800000212008).vaddr elfDynBase) 0 = 0xFFFF800000212008 := by
      decide +kernel
    have hround : copySegmentFrom (pokeImage word) elfDynBase (pokeSegment 0xFFFF800000212008)
        sp.cr3 8 0 ph.ram = (blit ph.ram 0x212008 (leBytes 8 word), .ok) := by
      rw [copySegmentFrom, if_neg (by decide)]
      dsimp only
      rw [hva, hhit, if_neg (by decide)]
      rw [show (List.drop ((pokeSegment 0xFFFF800000212008).pOffset + 0) (pokeImage word).bytes).take
        (min (pageSize - 0xFFFF800000212008 % pageSize)
          ((pokeSegment 0xFFFF800000212008).pFilesz - 0)) = leBytes 8 word from pokeImage_bytes word]
      rfl
    unfold copySegmentData
    rw [show (pokeSegment 0xFFFF800000212008).pFilesz = 8 from rfl, hround]
  have hsecond : ∀ ph' : Phys, vmmVirtToPhys ph'.ram sp.cr3 0xFFFF900000000000 = 0 →
      copySegmentData (pokeImage word) elfDynBase (pokeSegment 0xFFFF900000000000) ph' sp =
        (ph', sp, .errNomem) := by
    intro ph' hz
    have hva : add64 ((pokeSegment 0xFFFF900000000000).vaddr elfDynBase) 0 = 0xFFFF900000000000 := by
      decide +kernel
    have hround : copySegmentFrom (pokeImage word) elfDynBase (pokeSegment 0xFFFF900000000000)
        sp.cr3 8 0 ph'.ram = (ph'.ram, .errNomem) := by
      rw [copySegmentFrom, if_neg (by decide)]
      dsimp only
      rw [hva, hz, if_pos rfl]
    unfold copySegmentData
    rw [show (pokeSegment 0xFFFF900000000000).pFilesz = 8 from rfl, hround]
  have hsegs : elfLoadSegmentsOnly nxOk ctx ph sp =
      ({ ph with ram := blit ph.ram 0x212008 (leBytes 8 word) }, sp, .errNomem) := by
    unfold elfLoadSegmentsOnly
    rw [hp.image, hp.base, hp.loads]
    simp only [forSegments, pokeSegment_pages nxOk ph sp (Or.inl rfl),
      pokeSegment_pages nxOk ph sp (Or.inr rfl), hfirst]
    rw [hsecond _ hmiss]
  unfold elfLoadAll elfLoadIntoProcess
  rw [hsegs]

end Load

end VoidOS.Elf

namespace VoidOS.Proc

open Transition ByteMem PageTree Ownership Mm Elf

section Poke

variable {boot : Set ℕ} {k : Kernel} {word : ℕ} {ctx : ElfLoader} {ph ph' : Phys} {pml4 cr3 : ℕ}
  {sp : Space}

theorem poke_same {m : Mem} {F : Set ℕ} (hF : 530 ∉ F) :
    SameOn pageSize F m (blit m 0x212008 (leBytes 8 word)) := by
  intro x hx
  apply blit_apply
  rw [length_leBytes]
  by_contra hc
  have hx' : x / pageSize = 530 := by
    unfold pageSize
    omega
  exact hF (hx' ▸ hx)

/-- In an address space with the upper half of the boot loader the first segment hits frame 530
and the second nothing. -/
theorem poke_targets (hk : KernelOk ph pml4 bootUpper) (hsp : SpacePart ph bootUpper sp)
    (hne : 530 ∉ sp.frames ph) :
    vmmVirtToPhys ph.ram sp.cr3 0xFFFF800000212008 = 0x212008 ∧
      vmmVirtToPhys (blit ph.ram 0x212008 (leBytes 8 word)) sp.cr3 0xFFFF900000000000 = 0 := by
  obtain ⟨hok, htop⟩ := hsp
  constructor
  · have hidx : pml4Idx 0xFFFF800000212008 = 256 := by decide +kernel
    have hshare : translation ph.ram sp.cr3 0xFFFF800000212008 =
        translation bootMem 0x1000 0xFFFF800000212008 := by
      rw [← show _ = translation bootMem 0x1000 0xFFFF800000212008 from
        hk.direct 0xFFFF800000212008 (by decide +kernel) (by decide +kernel)]
      apply translation_share
      rw [hidx, htop 256 (by decide) (by decide), hk.top 256 (by decide) (by decide)]
    rw [show vmmVirtToPhys ph.ram sp.cr3 0xFFFF800000212008 = _ from congrArg Prod.fst hshare]
    decide +kernel
  · have hroot := hok.tree.upper (m := blit ph.ram 0x212008 (leBytes 8 word))
      (poke_same fun hc => hne (Or.inl hc)) 288 (by decide) (by decide)
    have hidx : pml4Idx 0xFFFF900000000000 = 288 := by decide +kernel
    have hzero : present (bootUpper.entry 288) = false := by decide +kernel
    unfold vmmVirtToPhys
    dsimp only
    rw [hidx, hroot, htop 288 (by decide) (by decide), hzero, Bool.not_false, if_pos rfl]

/-- The memory after the new address space is destroyed: the word is stored in frame 530. -/
theorem poke_destroy {M : Memory} (h : MemOk boot bootUpper M) (hi : M.space maxProcesses = none)
    (h530 : 530 ∈ M.phys.inUse) (hc : addressSpaceCreate M.phys M.pml4 = (ph, cr3)) (hne : cr3 ≠ 0)
    (hp : Pokes word ctx) (nxOk : Bool) (blobs : Blobs) :
    ∃ ph', elfLoadAll nxOk blobs ctx ph ⟨cr3, [], 0, 0, 0⟩ =
        (ph', ⟨cr3, [], 0, 0, 0⟩, .error .errNomem) ∧
      (processDestroyUserSpace ph' ⟨cr3, [], 0, 0, 0⟩).1.inUse = M.phys.inUse ∧
      SameOn pageSize M.phys.inUse (blit M.phys.ram 0x212008 (leBytes 8 word))
        (processDestroyUserSpace ph' ⟨cr3, [], 0, 0, 0⟩).1.ram := by
  have hk : KernelOk M.phys M.pml4 bootUpper := h.part .tables
  rcases hk.create h.phys hc with ⟨hz, -⟩ | ⟨-, -, hpart, hl⟩
  · exact absurd hz hne
  rcases h.create hi hc with ⟨hz, -⟩ | ⟨-, hmem⟩
  · exact absurd hz hne
  have hk' : KernelOk ph M.pml4 bootUpper := hmem.part .tables
  have hapart := hl.apart
  have hused := hl.used_eq
  rw [Set.sdiff_empty] at hapart hused
  have hnew : 530 ∉ (⟨cr3, [], 0, 0, 0⟩ : Space).frames ph :=
    fun hc => Set.disjoint_left.mp hapart hc h530
  obtain ⟨hhit, hmiss⟩ := @poke_targets word ph M.pml4 _ hk' hpart hnew
  refine ⟨_, poke_load hp hhit hmiss, ?_⟩
  generalize hph : ({ ph with ram := blit ph.ram 0x212008 (leBytes 8 word) } : Phys) = ph₁
  have hram : ph₁.ram = blit ph.ram 0x212008 (leBytes 8 word) := by rw [← hph]
  have hin : ph₁.inUse = ph.inUse := by
    rw [← hph]
    rfl
  have hok₁ : ph₁.Ok := by
    rw [← hph]
    exact ⟨hpart.1.phys.zero, hpart.1.phys.bound⟩
  obtain ⟨hsp, hframes⟩ := hpart.1.congr hok₁ (by rw [← hph]) (hin ▸ hpart.1.frames_subset)
    (by rw [hram]; exact poke_same hnew)
  have hd := (processDestroyUserSpace_local hsp).1
  have hrest : ph₁.inUse \ (⟨cr3, [], 0, 0, 0⟩ : Space).frames ph₁ = M.phys.inUse := by
    rw [hframes, hin, hused, Set.union_sdiff_left]
    exact hapart.symm.sdiff_eq_left
  constructor
  · rw [hd.used_eq, Set.empty_union, hrest]
  · intro x hx
    rw [hd.same x (hrest ▸ hx), hram]
    have hold : ph.ram x = M.phys.ram x := hl.same x (by rwa [Set.sdiff_empty])
    unfold blit
    rw [hold]

/-- `process_spawn_elf` of the image fails and leaves the word in frame 530. -/
theorem spawn_poke {i : ℕ} (h : FramesInv boot bootUpper k) (hp : Pokes word ctx)
    (h530 : 530 ∈ k.phys.inUse) (hfree : 0 < k.phys.free.card) (hi : i < maxProcesses)
    (hu : (k.procs i).state = .unused) (parent : ℤ) :
    ∃ k', k.processSpawnElf (pokeImage word) parent = (k', -12) ∧ k'.sched = k.sched ∧
      (∀ j, k.Used j → k'.procs j = k.procs j) ∧ k'.phys.inUse = k.phys.inUse ∧
      SameOn pageSize k.phys.inUse (blit k.phys.ram 0x212008 (leBytes 8 word)) k'.phys.ram := by
  obtain ⟨ph, cr3, c, ha, -, hlt, hun, hcr⟩ := processAlloc_costs h.mem.phys hi hu hfree parent
  have hne : cr3 ≠ 0 := by
    obtain ⟨ph', cr3', he, hne, -⟩ := addressSpaceCreate_costs h.mem.phys hfree k.kernelPml4
    cases hcr.symm.trans he
    exact hne
  obtain ⟨ph', hl, hin, hsame⟩ := poke_destroy h.mem (@spaceAt_outside k maxProcesses le_rfl) h530
    hcr hne hp k.nxOk k.blobs
  generalize hk₁ : ({ k.setProc c ⟨k.nextPid, parent, .embryo, 0, none, ⟨cr3, [], 0, 0, 0⟩,
    Kernel.initialFds, none, 0, [Vfs.slash]⟩ with
    phys := ph, nextPid := k.nextPid + 1 } : Kernel) = k₁ at ha
  have hself : (k₁.procs c).space = ⟨cr3, [], 0, 0, 0⟩ ∧ (k₁.procs c).state = .embryo := by
    rw [← hk₁]
    unfold Kernel.setProc
    dsimp only
    rw [Function.update_self]
    exact ⟨rfl, rfl⟩
  have hother : ∀ j, j ≠ c → k₁.procs j = k.procs j := by
    intro j hj
    rw [← hk₁]
    exact Function.update_of_ne hj _ _
  have hrest : k₁.phys = ph ∧ k₁.nxOk = k.nxOk ∧ k₁.blobs = k.blobs ∧ k₁.sched = k.sched := by
    rw [← hk₁]
    exact ⟨rfl, rfl, rfl, rfl⟩
  obtain ⟨hphys, hnx, hblobs, hsched⟩ := hrest
  have hspawn : k.processSpawnElf (pokeImage word) parent =
      ((k₁.setSpace c ph' ⟨cr3, [], 0, 0, 0⟩).processDestroy c, -12) := by
    unfold Kernel.processSpawnElf
    rw [if_neg (by unfold Image.size pokeImage; simp), hp.accepted]
    dsimp only
    rw [ha]
    dsimp only
    rw [hself.1, hphys, hnx, hblobs, hl]
    rfl
  have hset : (k₁.setSpace c ph' ⟨cr3, [], 0, 0, 0⟩).procs c =
      { k₁.procs c with space := ⟨cr3, [], 0, 0, 0⟩ } := Function.update_self ..
  have hdphys : ((k₁.setSpace c ph' ⟨cr3, [], 0, 0, 0⟩).processDestroy c).phys =
      (processDestroyUserSpace ph' ⟨cr3, [], 0, 0, 0⟩).1 := by
    unfold Kernel.processDestroy
    dsimp only
    rw [hset, if_neg (by rw [hself.2]; exact fun hc => nomatch hc)]
    rfl
  refine ⟨_, hspawn, ?_, ?_, ?_, ?_⟩
  · rw [← hsched]
    unfold Kernel.processDestroy
    dsimp only
    split <;> rfl
  · intro j hj
    have hjc : j ≠ c := by
      rintro rfl
      exact hj.2 hun
    rw [processDestroy_other _ hjc, ← hother j hjc]
    exact Function.update_of_ne hjc _ _
  · rw [hdphys, hin]
    rfl
  · rw [hdphys]
    exact hsame

theorem poke_entry {m m' : Mem} {F : Set ℕ} (h530 : 530 ∈ F) (hw : word < 2 ^ 64)
    (h : SameOn pageSize F (blit m 0x212008 (leBytes 8 word)) m') : entry m' 0x212000 1 = word := by
  have hpage : ∀ x, 0x212000 ≤ x → x < 0x212000 + 4096 →
      m' x = blit m 0x212008 (leBytes 8 word) x := by
    intro x hl hr
    apply h
    rwa [show x / pageSize = 530 by unfold pageSize; omega]
  rw [entry_congr (by decide) hpage, blit_leBytes]
  exact entry_setEntry_self (t := 0x212000) (i := 1) hw

end Poke

namespace Spawned

variable {k : Kernel} {c word : ℕ} {ctx : ElfLoader}

theorem spaceOk (h : Spawned k c) : SpaceOk k.phys (k.procs c).space :=
  spaceOk_at (reach_frames h.reach).2 (h.used.spaceAt h.ne_zero)

theorem mem_inUse (h : Spawned k c) : 530 ∈ k.phys.inUse := by
  obtain ⟨f, hmem, hf⟩ := h.spaceOk.cr3_mem
  rw [h.cr3] at hf
  rw [show 530 = f by unfold pageSize at hf; omega]
  exact h.spaceOk.frames_subset hmem

theorem poke (h : Spawned k c) (hp : Pokes word ctx) (hw : word < 2 ^ 64) :
    ∃ k', Proc.step k (.spawnElf (pokeImage word) 0) = some k' ∧
      Reach Proc.step Legal (BootedFrames bootOwned bootUpper) k' ∧ k'.sched = k.sched ∧
      k'.procs c = k.procs c ∧ k'.phys.inUse = k.phys.inUse ∧
      entry k'.phys.ram 0x212000 1 = word := by
  obtain ⟨i, hi, hu⟩ := h.slot
  obtain ⟨k', hspawn, hsched, hprocs, hin, hsame⟩ :=
    spawn_poke (reach_frames h.reach).2 hp h.mem_inUse h.free hi hu 0
  have hstep : Proc.step k (.spawnElf (pokeImage word) 0) = some k' := by
    show some (k.processSpawnElf (pokeImage word) 0).1 = some k'
    rw [hspawn]
  have hlegal : Legal k (.spawnElf (pokeImage word) 0) := h.live
  exact ⟨k', hstep, (h.reach.mono fun _ _ ha => ha.1).step hlegal hstep, hsched, hprocs c h.used,
    hin, poke_entry h.mem_inUse hw hsame⟩

end Spawned

/-- A spawn that fails, of an image whose segments wrap, enters the PML4 of another process in
itself: the process sees a page that it has not recorded. -/
theorem wrapped_segments_share : ∃ k k' c,
    step (booted 1024 []) (.spawnUser [0xEB, 0xFE] 0) = some k ∧
    step k (.spawnElf (pokeImage 0x212007) 0) = some k' ∧
    Reach step Legal (BootedFrames bootOwned bootUpper) k' ∧ k'.Maps c 0x8040201000 ∧
    ¬ ∃ e ∈ (k'.procs c).space.umap, e.phys = addr (k'.userPte c 0x8040201000) := by
  obtain ⟨k, c, h⟩ := booted_spawn
  obtain ⟨ctx, hp⟩ := pokes_root
  obtain ⟨k', hstep, hreach, -, hproc, -, hentry⟩ := h.poke hp (by decide)
  -- all four levels are the entry itself
  have hpte : k'.userPte c 0x8040201000 = 0x212007 := by
    have hidx : pml4Idx 0x8040201000 = 1 ∧ pdptIdx 0x8040201000 = 1 ∧ pdIdx 0x8040201000 = 1 ∧
        ptIdx 0x8040201000 = 1 := by decide
    have haddr : addr 0x212007 = 0x212000 ∧ present 0x212007 = true ∧ huge 0x212007 = false := by
      decide
    unfold Kernel.userPte vmmGetPte
    simp [hproc, h.cr3, hidx, hentry, haddr]
  refine ⟨k, k', c, h.step, hstep, hreach, ⟨⟨h.used.1, ?_⟩, by decide, ?_⟩, ?_⟩
  · rw [hproc]
    exact h.used.2
  · rw [hpte]
    decide
  · rintro ⟨e, he, hphys⟩
    rw [hproc] at he
    rw [hpte] at hphys
    obtain ⟨f, -, -, hf, hnot⟩ := h.spaceOk.frame e he
    -- the frame holds a table of the process
    apply hnot
    refine ⟨[], ⟨0, by decide, List.nil_prefix⟩, Nat.zero_le 3, ?_⟩
    rw [← hf, hphys, h.cr3, walk]
    decide

/-- A spawn that fails, of an image whose segments wrap, enters a free frame in the PML4 of another
process, whose thread has not exited. -/
theorem wrapped_segments_dangle : ∃ k k' c,
    step (booted 1024 []) (.spawnUser [0xEB, 0xFE] 0) = some k ∧
    step k (.spawnElf (pokeImage 0x3FF007) 0) = some k' ∧
    Reach step Legal (BootedFrames bootOwned bootUpper) k' ∧
    (k'.sched.threads 2).proc = some c ∧ k'.sched.state 2 ≠ .exited ∧
    walk k'.phys.ram (k'.procs c).space.cr3 [1] = some 0x3FF000 ∧ k'.phys.used 0x3FF = false := by
  obtain ⟨k, c, h⟩ := booted_spawn
  obtain ⟨ctx, hp⟩ := pokes_free
  obtain ⟨k', hstep, hreach, hsched, hproc, hin, hentry⟩ := h.poke hp (by decide)
  refine ⟨k, k', c, h.step, hstep, hreach, ?_, ?_, ?_, ?_⟩
  · rw [hsched, h.thread]
  · rw [hsched]
    exact h.state
  · rw [hproc, h.cr3, walk, hentry, if_pos (by decide), walk]
    decide
  · refine Bool.eq_false_iff.mpr fun hc => ?_
    have hmem : 1023 ∈ k'.phys.inUse := hc
    rw [hin] at hmem
    exact Bool.false_ne_true (h.top.symm.trans hmem)

end VoidOS.Proc
