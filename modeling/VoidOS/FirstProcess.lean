import VoidOS.BootMachine
import VoidOS.PageGrowth

namespace VoidOS.Proc

open Transition ByteMem PageTree Ownership Mm Elf

/-- A machine with `n` frames runs its first process, which has the break `brk` and `pages`
pages. -/
structure Running (n : ℕ) (k : Kernel) (c brk pages : ℕ) : Prop where
  boot : BootedFrames bootOwned bootUpper (booted n [])
  reach : Reach step Admissible (· = booted n []) k
  used : k.Used c
  ne_zero : c ≠ 0
  current : k.processCurrent = some c
  active : k.sched.active = true
  umap : (k.procs c).space.umap.length = pages
  heap : (k.procs c).space.heapStart = 0x401000 ∧ (k.procs c).space.brkCurrent = brk
  proc : ∃ sp, k.procs c =
    ⟨1, 0, .ready, 0, some 2, sp, Kernel.initialFds, none, 0, [Vfs.slash]⟩
  other : ∀ j, j ≠ c → k.procs j = (booted n []).procs j
  nextTid : k.sched.nextTid = 3
  nextPid : k.nextPid = 2
  files : k.files = fun _ => none
  root : k.root = Vfs.builtTree
  free : n ≤ k.phys.free.card + 4 * pages + 641

theorem Kernel.processCurrent_ret (k : Kernel) (v : ℤ) :
    (k.ret v).processCurrent = k.processCurrent := by
  unfold Kernel.processCurrent Kernel.ret Kernel.setFrame
  simp [Sched.Scheduler.setThread]

theorem reach_spaceOk {k : Kernel} {c : ℕ} {boot : Set ℕ} {top : UpperHalf}
    (h : Reach step Admissible (BootedFrames boot top) k) (hu : k.Used c) (h0 : c ≠ 0) :
    SpaceOk k.phys (k.procs c).space :=
  ((reach_frames h).2.mem.part (.space c) (k.procs c).space (spaceAt_some h0 hu.1 hu.2)).1

theorem booted_root (n : ℕ) (blobs : Blobs) : (booted n blobs).root = Vfs.builtTree := by
  unfold booted Kernel.processInit Kernel.schedInit Kernel.createKthread
  dsimp only
  split <;> rfl

theorem booted_closed (n : ℕ) (blobs : Blobs) : (booted n blobs).files = fun _ => none := by
  unfold booted Kernel.processInit Kernel.schedInit Kernel.createKthread
  dsimp only
  split <;> rfl

theorem booted_running {n : ℕ} (hn : 1024 ≤ n) (hb : n * pageSize ≤ 2 ^ 52) :
    ∃ k c, Running n k c 0x402000 17 := by
  have hstack : kstackCost = 64 := by decide
  have hn' : 512 + kstackCost ≤ n := by omega
  obtain ⟨k, c, sp, h⟩ := booted_born hn hb [0xEB, 0xFE] (by decide) (by decide)
  have hself : k.procs c = ⟨1, 0, .ready, 0, some 2, sp, Kernel.initialFds, none, 0,
      [Vfs.slash]⟩ := by
    rw [h.born.procs, Function.update_self]
  obtain ⟨l, hs⟩ := booted_ok (booted_frames hn' hb).booted
  obtain ⟨-, -, -, -, hproc, -⟩ := hs.sched.adopt h.born.sched
  have htick := hs.sched.adopt_runs h.born.sched
  generalize hsc : Sched.Scheduler.Ok.ticked (Sched.schedStart k.sched) .running
    (booted n []).sched.nextTid = s at htick
  -- the scheduler starts, and the first tick picks the new thread
  have hreach := h.reach.step (show Admissible k .schedStart from ⟨trivial, trivial⟩) rfl
  have hstart : step { k with sched := Sched.schedStart k.sched } .tick =
      some { k with sched := s } := by
    show Option.map _ (Option.map _ (Sched.schedTick (Sched.schedStart k.sched))) = _
    rw [htick]
    rfl
  have hadm : Admissible { k with sched := Sched.schedStart k.sched } .tick := ⟨trivial, trivial⟩
  obtain ⟨-, hactive, htid⟩ := Sys.ticked_fields (Sched.schedStart k.sched) .running
    (booted n []).sched.nextTid
  rw [hsc] at hactive htid
  refine ⟨{ k with sched := s }, c, booted_frames hn' hb, hreach.step hadm hstart,
    ⟨h.born.lt, ?_⟩, h.ne_zero, ?_, ?_, ?_, ?_, ⟨sp, hself⟩, h.other, ?_, h.born.nextPid, ?_, ?_, ?_⟩
  · rw [hself]
    exact fun hc => nomatch hc
  · show (s.threads s.current).proc = some c
    rw [← hsc, Sched.Scheduler.Ok.threads_ticked]
    exact (hproc _).trans (if_pos rfl)
  · exact hactive
  · rw [hself]
    exact h.umap
  · have hend : pageDown (add64 (add64 userCodeBase ([0xEB, 0xFE] : List UInt8).length)
        (pageSize - 1)) = 0x401000 := by decide +kernel
    have hbrk : add64 0x401000 pageSize = 0x402000 := by decide +kernel
    rw [hself, h.brk]
    unfold brkInit
    rw [hend]
    exact ⟨rfl, hbrk⟩
  · show s.nextTid = 3
    rw [htid]
    show k.sched.nextTid = 3
    rw [Sched.Scheduler.Ok.adopt_nextTid h.born.sched, (@booted_start n [] hn' hb).2.1]
  · exact h.files.trans (booted_closed n [])
  · exact h.born.root.trans (booted_root n [])
  · have := h.costs.free
    have := h.free
    show n ≤ k.phys.free.card + 4 * 17 + 641
    omega

theorem umBrkSet_byte {ph : Phys} {sp : Space} (h : SpaceOk ph sp) (h0 : sp.heapStart ≠ 0)
    (hle : sp.heapStart ≤ sp.brkCurrent) (hlt : sp.brkCurrent + pageSize ≤ userLimit)
    (hroom : sp.umap.length < maxUmap) (hfree : 4 ≤ ph.free.card) :
    ∃ ph' e, umBrkSet ph sp (sp.brkCurrent + 1) =
        (ph', { sp with umap := sp.umap ++ [e], brkCurrent := sp.brkCurrent + 1 }, 0) ∧
      e.virt = sp.brkCurrent ∧
      Allocated ph sp ph' { sp with umap := sp.umap ++ [e] } sp.brkPerm [e] ∧
      Costs ph ph' 4 := by
  have hone : pagesTo sp.brkCurrent (sp.brkCurrent + 1) = 1 := by
    unfold pagesTo pageSize
    omega
  obtain ⟨ph', sp', he, hc, -⟩ := @allocPages_costs ph sp 1 sp.brkPerm sp.brkCurrent
    h.phys (by omega) (by omega) (by omega)
  obtain ⟨es, ha, hvirt, hlen, -⟩ := allocPages_allocated h h.perm he
  obtain ⟨e, rfl⟩ := List.length_eq_one_iff.mp (hlen rfl)
  have hev : e.virt = sp.brkCurrent := by
    have := List.head_eq_of_cons_eq hvirt
    rw [this]
    simp
  obtain rfl := ha.space
  refine ⟨ph', e, ?_, hev, ha, hc⟩
  unfold umBrkSet umBrkGrow
  rw [if_neg h0, if_neg (by omega), if_pos (Nat.lt_succ_self _), hone, he]

theorem Running.reachFrames {k : Kernel} {n c brk pages : ℕ} (h : Running n k c brk pages) :
    Reach step Admissible (BootedFrames bootOwned bootUpper) k :=
  (Reach.init h.boot).trans h.reach

theorem Running.spaceOk {k : Kernel} {n c brk pages : ℕ} (h : Running n k c brk pages) :
    SpaceOk k.phys (k.procs c).space :=
  reach_spaceOk h.reachFrames h.used h.ne_zero

theorem Running.byte {k : Kernel} {n c brk pages : ℕ} (h : Running n k c brk pages)
    (hn : 1024 ≤ n) (hle : 0x401000 ≤ brk) (hlt : brk + pageSize ≤ userLimit)
    (hpages : pages ≤ 90) :
    ∃ k' e, Running n k' c (brk + 1) (pages + 1) ∧ e.virt = brk ∧
      (k'.procs c).space = { (k.procs c).space with
        umap := (k.procs c).space.umap ++ [e]
        brkCurrent := brk + 1 } ∧
      Allocated k.phys (k.procs c).space k'.phys { (k.procs c).space with
        umap := (k.procs c).space.umap ++ [e] } (k.procs c).space.brkPerm [e] := by
  obtain ⟨hstart, hbrk⟩ := h.heap
  have hmax : maxUmap = 256 := rfl
  have humap := h.umap
  have hfree := h.free
  obtain ⟨ph, e, hset, hvirt, ha, hc⟩ := umBrkSet_byte h.spaceOk (by omega) (by omega)
    (hbrk.symm ▸ hlt) (by omega) (by omega)
  have hcost := hc.free
  rw [hbrk] at hset hvirt
  generalize hsp : ({ (k.procs c).space with
    umap := (k.procs c).space.umap ++ [e]
    brkCurrent := brk + 1 } : Space) = sp at hset
  have hself : (k.setSpace c ph sp).procs c = { k.procs c with space := sp } :=
    Function.update_self c _ k.procs
  have hother : ∀ j, j ≠ c → (k.setSpace c ph sp).procs j = k.procs j := fun j hj =>
    Function.update_of_ne hj _ k.procs
  have hstep : step k (.brk (brk + 1)) = some ((k.setSpace c ph sp).ret (brk + 1)) := by
    show some (k.onSpace veInval _) = _
    unfold Kernel.onSpace sysBrk
    rw [h.current]
    dsimp only
    rw [if_neg (by omega), if_neg (by omega), if_neg (by omega), hset]
    rw [← hsp]
    rfl
  have hadm : Admissible k (.brk (brk + 1)) := by
    refine ⟨trivial, ?_⟩
    show k.processCurrent ≠ some 0
    rw [h.current]
    exact fun hc => h.ne_zero (Option.some.inj hc)
  obtain ⟨sp₀, hproc⟩ := h.proc
  refine ⟨_, e, ⟨h.boot, h.reach.step hadm hstep, ⟨h.used.1, ?_⟩, h.ne_zero, ?_, h.active, ?_, ?_,
    ⟨sp, ?_⟩, ?_, h.nextTid, h.nextPid, h.files, h.root, ?_⟩, hvirt, ?_, ha⟩
  · show ((k.setSpace c ph sp).procs c).state ≠ _
    rw [hself]
    exact h.used.2
  · exact ((k.setSpace c ph sp).processCurrent_ret _).trans h.current
  · show ((k.setSpace c ph sp).procs c).space.umap.length = _
    rw [hself, ← hsp]
    simp [humap]
  · show ((k.setSpace c ph sp).procs c).space.heapStart = _ ∧ ((k.setSpace c ph sp).procs c).space.brkCurrent = _
    rw [hself, ← hsp]
    exact ⟨hstart, rfl⟩
  · show (k.setSpace c ph sp).procs c = _
    rw [hself, hproc]
  · exact fun j hj => (hother j hj).trans (h.other j hj)
  · show n ≤ ph.free.card + _ + 641
    omega
  · show ((k.setSpace c ph sp).procs c).space = _
    rw [hself]
    exact hsp.symm

/-- A process moves its break by a byte and then by another. The second call maps a new page over
the page of the first. -/
theorem brk_byte_remaps : ∃ k c,
    Reach step Admissible (BootedFrames bootOwned bootUpper) k ∧ k.processCurrent = some c ∧
    (k.procs c).space.brkCurrent = 0x402001 ∧
    (umBrkSet k.phys (k.procs c).space 0x402002).2.2 = 0 ∧
    ¬ GrowsHeap k.phys (k.procs c).space (umBrkSet k.phys (k.procs c).space 0x402002).1
      0x402002 := by
  obtain ⟨k₀, c, h₀⟩ := booted_running (le_refl 1024) (by decide)
  obtain ⟨k, e, h, hvirt, hsp, ha⟩ := h₀.byte le_rfl (by decide) (by decide) (by decide)
  obtain ⟨hstart, hbrk⟩ := h.heap
  have hmax : maxUmap = 256 := rfl
  have humap := h.umap
  have hfree := h.free
  have hle : (k.procs c).space.brkCurrent + pageSize ≤ userLimit := by
    rw [hbrk]
    decide
  obtain ⟨ph, e', hset, hvirt', ha', -⟩ := umBrkSet_byte h.spaceOk (by omega) (by omega) hle
    (by omega) (by omega)
  rw [hbrk] at hset hvirt'
  refine ⟨k, c, h.reachFrames, h.current, hbrk, ?_, fun hg => ?_⟩
  · rw [hset]
  · rw [hset] at hg
    have habs := hg.visited h.spaceOk ha' List.mem_cons_self (v := 0x402001) (by decide)
      (by rw [hvirt'])
    have hpte := h.spaceOk.pte (show 0x402001 < userLimit by decide)
    rw [hsp] at hpte habs
    rw [hpte, ha.new e List.mem_cons_self _ (by decide) (by rw [hvirt]; decide),
      present_pageEntry] at habs
    cases habs

end VoidOS.Proc
