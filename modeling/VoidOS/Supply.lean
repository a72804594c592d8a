import VoidOS.KernelFrames

namespace VoidOS.Mm

open ByteMem PageTree

/-- An operation that succeeds and costs at most `n` frames, the lowest ones that are free. -/
structure Costs (ph ph' : Phys) (n : ℕ) : Prop where
  ok : ph'.Ok
  total : ph'.totalFrames = ph.totalFrames
  free : ph.free.card ≤ ph'.free.card + n
  below : ∀ b, (∀ f, ph.used f = true → f < b) → ∀ f, ph'.used f = true → f < b + n

section Costs

variable {ph ph' ph'' : Phys} {sp : Space} {n m virt phys flags va : ℕ} {es : List Mapping}
  {code : List UInt8}

theorem Costs.refl (h : ph.Ok) : Costs ph ph 0 := ⟨h, rfl, le_rfl, fun _ hb => hb⟩

theorem Costs.trans (h : Costs ph ph' n) (h' : Costs ph' ph'' m) : Costs ph ph'' (n + m) := by
  refine ⟨h'.ok, h'.total.trans h.total, by have := h.free; have := h'.free; omega, ?_⟩
  intro b hb f hf
  have := h'.below (b + n) (h.below b hb) f hf
  omega

theorem Costs.mono (h : Costs ph ph' n) (hnm : n ≤ m) : Costs ph ph' m := by
  refine ⟨h.ok, h.total, le_trans h.free (by omega), fun b hb f hf => ?_⟩
  have := h.below b hb f hf
  omega

theorem Costs.ram (h : Costs ph ph' n) (r : Mem) : Costs ph { ph' with ram := r } n :=
  ⟨⟨h.ok.zero, h.ok.bound⟩, h.total, h.free, h.below⟩

theorem pmmAllocFrame_le {b f : ℕ} (h : pmmAllocFrame ph = (ph', f * pageSize))
    (h0 : f * pageSize ≠ 0) (hb : ∀ g, ph.used g = true → g < b) : f ≤ b := by
  unfold pmmAllocFrame at h
  split at h
  · exact absurd (Prod.mk.inj h).2.symm h0
  · rename_i g hg
    have hfg : g = f := Nat.eq_of_mul_eq_mul_right (by decide) (Prod.mk.inj h).2
    obtain ⟨-, -, hleast⟩ := List.find?_range_eq_some.mp hg
    by_contra hlt
    have := hleast b (by omega)
    rw [Bool.not_not] at this
    exact absurd (hb b this) (lt_irrefl b)

theorem pmmAllocFrame_costs (hok : ph.Ok) (hfree : 0 < ph.free.card) :
    ∃ f ∈ ph.free, pmmAllocFrame ph = (ph.take f, f * pageSize) ∧ f * pageSize ≠ 0 ∧
      Costs ph (ph.take f) 1 := by
  rcases pmmAllocFrame_cases ph with ⟨hnone, -⟩ | ⟨f, hf, ha⟩
  · rw [hnone, Finset.card_empty] at hfree
    omega
  · refine ⟨f, hf, ha, hok.ne_zero hf, hok.take f, rfl, le_of_eq (Phys.card_free_take hf).symm, ?_⟩
    intro b hb g hg
    rw [Phys.used_take] at hg
    split at hg
    · have := pmmAllocFrame_le ha (hok.ne_zero hf) hb
      omega
    · exact Nat.lt_succ_of_lt (hb g hg)

theorem walkOrCreate_costs (hok : ph.Ok) (hfree : 1 ≤ ph.free.card) (table index : ℕ) :
    ∃ ph' t, walkOrCreate ph table index flags = (ph', some t) ∧ Costs ph ph' 1 := by
  unfold walkOrCreate
  by_cases hp : present (entry ph.ram table index) = true
  · rw [if_pos hp]
    exact ⟨ph, _, rfl, (Costs.refl hok).mono (Nat.zero_le 1)⟩
  · obtain ⟨f, -, ha, hne, hc⟩ := pmmAllocFrame_costs hok hfree
    rw [if_neg hp]
    unfold allocTable
    rw [ha]
    dsimp only
    rw [if_neg hne]
    dsimp only
    rw [if_neg hne]
    exact ⟨_, _, rfl, hc.ram _⟩

theorem vmmMapPage_costs (hok : ph.Ok) (hfree : 3 ≤ ph.free.card) (pml4 : ℕ) :
    ∃ ph', vmmMapPage ph pml4 virt phys flags = (ph', true) ∧ Costs ph ph' 3 := by
  unfold vmmMapPage
  dsimp only
  generalize (if user flags then vmmPresent ||| vmmWrite ||| vmmUser
    else vmmPresent ||| vmmWrite) = fl
  obtain ⟨ph₁, t₁, h₁, hc₁⟩ := @walkOrCreate_costs ph fl hok (by omega) pml4 (pml4Idx virt)
  have hfree₁ := hc₁.free
  obtain ⟨ph₂, t₂, h₂, hc₂⟩ := @walkOrCreate_costs ph₁ fl hc₁.ok (by omega) t₁ (pdptIdx virt)
  have hfree₂ := hc₂.free
  obtain ⟨ph₃, t₃, h₃, hc₃⟩ := @walkOrCreate_costs ph₂ fl hc₂.ok (by omega) t₂ (pdIdx virt)
  refine ⟨_, ?_, ((hc₁.trans hc₂).trans hc₃).ram
    (setEntry ph₃.ram t₃ (ptIdx virt) (addr phys ||| flags))⟩
  rw [h₁]
  dsimp only
  rw [h₂]
  dsimp only
  rw [h₃]

theorem processMapUser_costs (hok : ph.Ok) (hfree : 3 ≤ ph.free.card) (hv : virt < userLimit)
    (hroom : sp.umap.length < maxUmap) :
    ∃ ph', processMapUser ph sp virt phys flags =
      (ph', { sp with umap := sp.umap ++ [⟨virt, phys⟩] }, true) ∧ Costs ph ph' 3 := by
  obtain ⟨ph', hm, hc⟩ := @vmmMapPage_costs ph virt phys (flags ||| vmmPresent ||| vmmUser) hok
    hfree sp.cr3
  refine ⟨ph', ?_, hc⟩
  unfold processMapUser
  rw [if_neg (by omega), if_neg (by omega), hm]

def Grown (sp sp' : Space) (n : ℕ) : Prop :=
  sp'.cr3 = sp.cr3 ∧ sp'.umap.length = sp.umap.length + n

theorem processAllocUserPage_costs (hok : ph.Ok) (hfree : 4 ≤ ph.free.card) (hv : virt < userLimit)
    (hroom : sp.umap.length < maxUmap) :
    ∃ ph' sp', processAllocUserPage ph sp virt flags = (ph', sp', true) ∧ Costs ph ph' 4 ∧
      Grown sp sp' 1 := by
  obtain ⟨f, hf, ha, hne, hc₁⟩ := pmmAllocFrame_costs hok (by omega)
  have hc₂ := hc₁.ram (zeros (ph.take f).ram (f * pageSize) pageSize)
  have hfree₂ := hc₂.free
  obtain ⟨ph', hm, hc₃⟩ := @processMapUser_costs _ sp virt (f * pageSize) flags hc₂.ok (by omega)
    hv hroom
  refine ⟨ph', { sp with umap := sp.umap ++ [⟨virt, f * pageSize⟩] }, ?_, hc₂.trans hc₃, rfl,
    List.length_append⟩
  unfold processAllocUserPage
  rw [ha]
  dsimp only
  rw [if_neg hne, hm]

theorem allocPages_costs (hok : ph.Ok) (hfree : 4 * n ≤ ph.free.card)
    (hv : va + n * pageSize ≤ userLimit) (hroom : sp.umap.length + n ≤ maxUmap) :
    ∃ ph' sp', allocPages flags n va ph sp = (ph', sp', true) ∧ Costs ph ph' (4 * n) ∧
      Grown sp sp' n := by
  induction n generalizing va ph sp with
  | zero => exact ⟨ph, sp, rfl, .refl hok, rfl, rfl⟩
  | succ n ih =>
    have hsucc : (n + 1) * pageSize = n * pageSize + pageSize := Nat.succ_mul n pageSize
    have hpage : 0 < pageSize := by decide
    obtain ⟨ph₁, sp₁, he, hc₁, hcr3, hlen⟩ := @processAllocUserPage_costs ph sp va flags hok
      (by omega) (by omega) (by omega)
    have hfree₁ := hc₁.free
    obtain ⟨ph₂, sp₂, he₂, hc₂, hg₂⟩ := @ih ph₁ sp₁ (va + pageSize) hc₁.ok (by omega) (by omega)
      (by omega)
    refine ⟨ph₂, sp₂, ?_, ?_, hg₂.1.trans hcr3, ?_⟩
    · rw [allocPages, he]
      exact he₂
    · rw [show 4 * (n + 1) = 4 + 4 * n by omega]
      exact hc₁.trans hc₂
    · rw [hg₂.2, hlen]
      omega

theorem loadCode_costs {i : ℕ} (hok : ph.Ok) (hfree : 4 * n ≤ ph.free.card)
    (hv : userCodeBase + (i + n) * pageSize ≤ userLimit)
    (hroom : sp.umap.length + n ≤ maxUmap) :
    ∃ ph' sp', loadCode code n i ph sp = (ph', sp', true) ∧ Costs ph ph' (4 * n) ∧
      Grown sp sp' n := by
  induction n generalizing i ph sp with
  | zero => exact ⟨ph, sp, rfl, .refl hok, rfl, rfl⟩
  | succ n ih =>
    have hi : i * pageSize < (i + (n + 1)) * pageSize :=
      Nat.mul_lt_mul_of_pos_right (by omega) (by decide)
    obtain ⟨ph₁, sp₁, he, hc₁, hcr3, hlen⟩ := @processAllocUserPage_costs ph sp
      (userCodeBase + i * pageSize) 0 hok (by omega) (by omega) (by omega)
    have hc₁' := hc₁.ram (blit ph₁.ram (vmmVirtToPhys ph₁.ram sp₁.cr3 (userCodeBase + i * pageSize))
      ((code.drop (i * pageSize)).take pageSize))
    have hfree₁ := hc₁'.free
    obtain ⟨ph₂, sp₂, he₂, hc₂, hg₂⟩ := @ih _ sp₁ (i + 1) hc₁'.ok (by omega)
      (by rw [show i + 1 + n = i + (n + 1) by omega]; exact hv) (by omega)
    refine ⟨ph₂, sp₂, ?_, ?_, hg₂.1.trans hcr3, ?_⟩
    · rw [loadCode, he]
      exact he₂
    · rw [show 4 * (n + 1) = 4 + 4 * n by omega]
      exact hc₁'.trans hc₂
    · rw [hg₂.2, hlen]
      omega

theorem forkPages_costs {parentCr3 : ℕ} (hok : ph.Ok) (hfree : 4 * es.length ≤ ph.free.card)
    (hv : ∀ e ∈ es, e.virt < userLimit) (hroom : sp.umap.length + es.length ≤ maxUmap) :
    ∃ ph' sp', forkPages parentCr3 es ph sp = (ph', sp', true) ∧ Costs ph ph' (4 * es.length) := by
  induction es generalizing ph sp with
  | nil => exact ⟨ph, sp, rfl, .refl hok⟩
  | cons e es ih =>
    rw [List.length_cons] at hfree hroom ⊢
    obtain ⟨f, hf, ha, hne, hc₁⟩ := pmmAllocFrame_costs hok (by omega)
    have hc₂ := hc₁.ram (copyPage (ph.take f).ram (f * pageSize) e.phys)
    have hfree₂ := hc₂.free
    obtain ⟨ph₃, hm, hc₃⟩ := @processMapUser_costs _ sp e.virt (f * pageSize)
      (forkFlags (vmmGetPte ph.ram parentCr3 e.virt)) hc₂.ok (by omega) (hv e List.mem_cons_self)
      (by omega)
    have hfree₃ := hc₃.free
    obtain ⟨ph₄, sp₄, he, hc₄⟩ := @ih ph₃ { sp with umap := sp.umap ++ [⟨e.virt, f * pageSize⟩] }
      hc₃.ok (by omega) (fun e' he' => hv e' (List.mem_cons_of_mem _ he')) (by
        rw [List.length_append]
        exact (by omega : sp.umap.length + 1 + es.length ≤ maxUmap))
    refine ⟨ph₄, sp₄, ?_, ?_⟩
    · rw [forkPages]
      dsimp only
      rw [ha]
      dsimp only
      rw [if_neg hne, hm]
      exact he
    · rw [show 4 * (es.length + 1) = 1 + 3 + 4 * es.length by omega]
      exact (hc₂.trans hc₃).trans hc₄

theorem addressSpaceCreate_costs (hok : ph.Ok) (hfree : 0 < ph.free.card) (pml4 : ℕ) :
    ∃ ph' cr3, addressSpaceCreate ph pml4 = (ph', cr3) ∧ cr3 ≠ 0 ∧ Costs ph ph' 1 := by
  obtain ⟨f, hf, ha, hne, hc⟩ := pmmAllocFrame_costs hok hfree
  refine ⟨_, f * pageSize, ?_, hne, hc.ram (shareUpper (clearLower (ph.take f).ram (f * pageSize))
    (f * pageSize) pml4)⟩
  unfold addressSpaceCreate
  rw [ha]
  exact if_neg hne

end Costs

end VoidOS.Mm

namespace VoidOS.Proc

open Mm

section Costs

variable {k : Kernel} {ph : Phys} {n i c : ℕ} {parent : ℤ}

theorem kstackLoop_costs {kernelPml4 base : ℕ} {frames : List ℕ} (hok : ph.Ok)
    (hfree : 4 * n ≤ ph.free.card) :
    ∃ ph' frames', Kernel.kstackLoop kernelPml4 base n i ph frames = (ph', frames', true) ∧
      Costs ph ph' (4 * n) := by
  induction n generalizing i ph frames with
  | zero => exact ⟨ph, frames, rfl, .refl hok⟩
  | succ n ih =>
    obtain ⟨f, hf, ha, hne, hc₁⟩ := pmmAllocFrame_costs hok (by omega)
    have hfree₁ := hc₁.free
    obtain ⟨ph₂, hm, hc₂⟩ := @vmmMapPage_costs _ (ByteMem.add64 base (i * pageSize)) (f * pageSize)
      (vmmPresent ||| vmmWrite) hc₁.ok (by omega) kernelPml4
    have hc := hc₁.trans hc₂
    have hfree₂ := hc.free
    obtain ⟨ph₃, frames₃, he, hc₃⟩ := @ih ph₂ (i + 1) (frames ++ [f * pageSize]) hc.ok (by omega)
    refine ⟨ph₃, frames₃, ?_, ?_⟩
    · rw [Kernel.kstackLoop, ha]
      dsimp only
      rw [if_neg hne, hm]
      exact he
    · rw [show 4 * (n + 1) = 1 + 3 + 4 * n by omega]
      exact hc.trans hc₃

def kstackCost : ℕ := 4 * kthreadStackPages

theorem allocKstack_costs (hok : k.phys.Ok) (hfree : kstackCost ≤ k.phys.free.card) :
    ∃ k' top, k.allocKstack = (k', some top) ∧ Costs k.phys k'.phys kstackCost ∧
      SameTable k k' := by
  obtain ⟨ph, frames, he, hc⟩ := @kstackLoop_costs k.phys kthreadStackPages 0 k.kernelPml4
    k.nextStackVaddr k.stackFrames hok hfree
  have htop : k.allocKstack.1.phys = ph ∧ ∃ top, k.allocKstack.2 = some top := by
    unfold Kernel.allocKstack
    dsimp only
    rw [he]
    exact ⟨rfl, _, rfl⟩
  obtain ⟨hph, top, htop⟩ := htop
  exact ⟨k.allocKstack.1, top, Prod.ext rfl htop, hph ▸ hc, allocKstack_same k⟩

/-- What a process looks like when it has been created. -/
structure Born (k k' : Kernel) (c : ℕ) (p : Process) (f : Sched.Frame) : Prop where
  lt : c < maxProcesses
  unused : (k.procs c).state = .unused
  procs : k'.procs = Function.update k.procs c p
  pid : p.pid = k.nextPid
  thread : p.thread = some k.sched.nextTid
  state : p.state = .ready
  nextPid : k'.nextPid = k.nextPid + 1
  root : k'.root = k.root
  sched : Sched.schedAdoptThread k.sched f p.space.cr3 c = some (k'.sched, k.sched.nextTid)

theorem processAlloc_costs (hok : k.phys.Ok) (hi : i < maxProcesses)
    (hu : (k.procs i).state = .unused) (hfree : 0 < k.phys.free.card) (parent : ℤ) :
    ∃ ph cr3 c, k.processAlloc parent = ({ k.setProc c ⟨k.nextPid, parent, .embryo, 0, none,
        ⟨cr3, [], 0, 0, 0⟩, Kernel.initialFds, none, 0, [Vfs.slash]⟩ with
        phys := ph, nextPid := k.nextPid + 1 }, some c) ∧ Costs k.phys ph 1 ∧ c < maxProcesses ∧
      (k.procs c).state = .unused ∧ addressSpaceCreate k.phys k.kernelPml4 = (ph, cr3) := by
  obtain ⟨ph, cr3, he, hne, hc⟩ := addressSpaceCreate_costs hok hfree k.kernelPml4
  unfold Kernel.processAlloc
  cases hfind : (List.range maxProcesses).find? fun i => (k.procs i).state = .unused with
  | none =>
    have := List.find?_eq_none.mp hfind i (List.mem_range.mpr hi)
    simp [hu] at this
  | some c =>
    have hlt := List.mem_range.mp (List.mem_of_find?_eq_some hfind)
    have hun : (k.procs c).state = .unused := by simpa using List.find?_some hfind
    rw [he]
    dsimp only
    rw [if_neg hne]
    exact ⟨ph, cr3, c, rfl, hc, hlt, hun, rfl⟩

theorem processStart_costs (hok : k.phys.Ok) (hfree : kstackCost ≤ k.phys.free.card)
    (htid : k.sched.nextTid < Sched.maxThreads) (f : Sched.Frame) :
    ∃ k', k.processStart c f = (k', true) ∧ Costs k.phys k'.phys kstackCost ∧
      k'.procs = Function.update k.procs c
        { k.procs c with thread := some k.sched.nextTid, state := .ready } ∧
      Sched.schedAdoptThread k.sched f (k.procs c).space.cr3 c =
        some (k'.sched, k.sched.nextTid) ∧ k'.nextPid = k.nextPid ∧ k'.files = k.files ∧
        k'.root = k.root := by
  obtain ⟨k₁, top, he, hc, hsame⟩ := allocKstack_costs hok hfree
  unfold Kernel.processStart
  rw [he]
  dsimp only
  unfold Sched.schedAdoptThread
  rw [hsame.sched, hsame.procs, if_neg (by omega)]
  dsimp only
  refine ⟨_, rfl, hc, ?_, rfl, hsame.nextPid, hsame.files, hsame.root⟩
  unfold Kernel.setProc
  dsimp only
  rw [hsame.procs]

theorem started_born {k₁ : Kernel} {p : Process} (hprocs : k₁.procs = Function.update k.procs c p)
    (hsched : k₁.sched = k.sched) (hnext : k₁.nextPid = k.nextPid + 1) (hroot : k₁.root = k.root)
    (hlt : c < maxProcesses) (hun : (k.procs c).state = .unused) (hpid : p.pid = k.nextPid) (hok : k₁.phys.Ok)
    (hfree : kstackCost ≤ k₁.phys.free.card) (htid : k.sched.nextTid < Sched.maxThreads)
    (f : Sched.Frame) :
    ∃ k', k₁.processStart c f = (k', true) ∧ Costs k₁.phys k'.phys kstackCost ∧
      Born k k' c { p with thread := some k.sched.nextTid, state := .ready } f ∧
      k'.files = k₁.files := by
  have hself : k₁.procs c = p := by rw [hprocs, Function.update_self]
  obtain ⟨k', hst, hc, hprocs', hsched', hpid', hfiles, hroot'⟩ := @processStart_costs k₁ c hok hfree
    (hsched ▸ htid) f
  rw [hself, hsched] at hprocs' hsched'
  refine ⟨k', hst, hc, ⟨hlt, hun, ?_, hpid, rfl, rfl, hpid'.trans hnext, hroot'.trans hroot,
    hsched'⟩, hfiles⟩
  rw [hprocs', hprocs, Function.update_idem]

/-- The frames that are enough for a process with `n` pages. -/
def processCost (n : ℕ) : ℕ := 1 + 4 * n + kstackCost

theorem setSpace_embryo {k₁ : Kernel} {p : Process} (hprocs : k₁.procs = Function.update k.procs c p)
    (ph : Phys) (sp : Space) :
    (k₁.setSpace c ph sp).procs = Function.update k.procs c { p with space := sp } := by
  unfold Kernel.setSpace Kernel.setProc
  dsimp only
  rw [hprocs, Function.update_self, Function.update_idem]

/-- `process_spawn_user` succeeds if there are a slot, a thread and enough frames. -/
theorem spawnUser_succeeds {code : List UInt8} (hok : k.phys.Ok) (hi : i < maxProcesses)
    (hu : (k.procs i).state = .unused) (hcode : 0 < code.length)
    (hpages : pagesTo 0 code.length + 16 ≤ maxUmap)
    (hfree : processCost (pagesTo 0 code.length + 16) ≤ k.phys.free.card)
    (htid : k.sched.nextTid < Sched.maxThreads) (parent : ℤ) :
    ∃ k' c sp, k.processSpawnUser code parent = (k', k.nextPid) ∧
      Born k k' c ⟨k.nextPid, parent, .ready, 0, some k.sched.nextTid, sp, Kernel.initialFds, none,
        0, [Vfs.slash]⟩ (Kernel.userFrame userCodeBase (Elf.userStackTop - 16)) ∧
      Costs k.phys k'.phys (processCost (pagesTo 0 code.length + 16)) ∧
      sp.cr3 = (addressSpaceCreate k.phys k.kernelPml4).2 ∧
      sp.umap.length = pagesTo 0 code.length + 16 ∧
      sp = brkInit k.nxOk sp (ByteMem.add64 userCodeBase code.length) ∧ k'.files = k.files := by
  unfold processCost at hfree ⊢
  have hmax : maxUmap = 256 := rfl
  have hstack : Elf.userStackSize / pageSize = 16 := rfl
  obtain ⟨ph, cr3, c, ha, hc₁, hlt, hun, hcr3⟩ := processAlloc_costs hok hi hu (by omega) parent
  have hfree₁ := hc₁.free
  -- the code and the stack
  obtain ⟨ph₂, sp₂, hl, hc₂, hcr3₂, hlen₂⟩ := @loadCode_costs ph ⟨cr3, [], 0, 0, 0⟩
    (pagesTo 0 code.length) code 0 hc₁.ok (by omega) (by
      unfold userCodeBase userLimit pageSize
      omega) (by
      show 0 + _ ≤ _
      omega)
  have hfree₂ := hc₂.free
  obtain ⟨ph₃, sp₃, hs, hc₃, hcr3₃, hlen₃⟩ := @allocPages_costs ph₂ sp₂ (Elf.userStackSize / pageSize) vmmWrite
    (Elf.userStackTop - Elf.userStackSize) hc₂.ok (by omega) (by decide) (by
      rw [hlen₂, hstack]
      show 0 + _ + 16 ≤ _
      omega)
  have hfree₃ := hc₃.free
  generalize hk₁ : ({ k.setProc c ⟨k.nextPid, parent, .embryo, 0, none, ⟨cr3, [], 0, 0, 0⟩,
    Kernel.initialFds, none, 0, [Vfs.slash]⟩ with
    phys := ph, nextPid := k.nextPid + 1 } : Kernel) = k₁ at ha
  have hprocs₁ : k₁.procs = Function.update k.procs c ⟨k.nextPid, parent, .embryo, 0, none,
      ⟨cr3, [], 0, 0, 0⟩, Kernel.initialFds, none, 0, [Vfs.slash]⟩ := by
    rw [← hk₁]
    rfl
  have hrest₁ : k₁.sched = k.sched ∧ k₁.nextPid = k.nextPid + 1 ∧ k₁.phys = ph ∧
      k₁.files = k.files := by
    rw [← hk₁]
    exact ⟨rfl, rfl, rfl, rfl⟩
  have hnx : k₁.nxOk = k.nxOk ∧ k₁.root = k.root := by
    rw [← hk₁]
    exact ⟨rfl, rfl⟩
  generalize hsp : brkInit k₁.nxOk sp₃ (ByteMem.add64 userCodeBase code.length) = sp₄
  obtain ⟨k₄, hst, hc₄, hborn, hfiles⟩ := @started_born k c (k₁.setSpace c ph₃ sp₄) _
    (setSpace_embryo hprocs₁ ph₃ sp₄) hrest₁.1 hrest₁.2.1 hnx.2 hlt hun rfl hc₃.ok
    (show kstackCost ≤ ph₃.free.card by omega) htid
    (Kernel.userFrame userCodeBase (Elf.userStackTop - 16))
  refine ⟨k₄, c, sp₄, ?_, hborn, ?_, ?_, ?_, ?_, hfiles.trans hrest₁.2.2.2⟩
  · unfold Kernel.processSpawnUser
    rw [if_neg (by omega), ha]
    dsimp only
    rw [hprocs₁, Function.update_self, hrest₁.2.2.1, hl]
    dsimp only
    rw [hs]
    dsimp only
    rw [hsp, hst]
    dsimp only
    rw [hborn.procs, Function.update_self]
  · rw [show 1 + 4 * (pagesTo 0 code.length + 16) + kstackCost = 1 + 4 * pagesTo 0 code.length +
      4 * (Elf.userStackSize / pageSize) + kstackCost by omega]
    exact ((hc₁.trans hc₂).trans hc₃).trans hc₄
  · rw [← hsp, hcr3]
    exact hcr3₃.trans hcr3₂
  · rw [← hsp]
    show sp₃.umap.length = _
    rw [hlen₃, hlen₂, hstack]
    show 0 + _ + 16 = _
    omega
  · rw [← hsp, hnx.1]
    rfl

/-- A fork succeeds if there are a slot, a thread and enough frames. -/
theorem fork_succeeds {j : ℕ} (hok : k.phys.Ok) (hi : i < maxProcesses)
    (hu : (k.procs i).state = .unused) (hf : k.Forks j)
    (hhandles : (k.procs j).ipcHandles = none)
    (hv : ∀ e ∈ (k.procs j).space.umap, e.virt < userLimit)
    (hpages : (k.procs j).space.umap.length ≤ maxUmap)
    (hfree : processCost (k.procs j).space.umap.length ≤ k.phys.free.card)
    (htid : k.sched.nextTid < Sched.maxThreads) (grow : ℕ) (heap : Bool) :
    ∃ k' c sp f, k.processForkCurrent grow heap = k'.ret k.nextPid ∧
      Born k k' c ⟨k.nextPid, (k.procs j).pid, .ready, 0, some k.sched.nextTid, sp,
        (k.procs j).fds, none, 0, [Vfs.slash]⟩ f ∧
      k'.files = Kernel.dupFds k.files (k.procs j).fds := by
  obtain ⟨hcur, hpid, hst⟩ := hf
  unfold processCost at hfree
  obtain ⟨ph, cr3, c, ha, hc₁, hlt, hun, -⟩ := processAlloc_costs hok hi hu (by omega)
    (k.procs j).pid
  have hfree₁ := hc₁.free
  obtain ⟨ph₂, sp₂, hp, hc₂⟩ := @forkPages_costs ph ⟨cr3, [], 0, 0, 0⟩ (k.procs j).space.umap
    (k.procs j).space.cr3 hc₁.ok (by omega) hv (by
      show 0 + _ ≤ _
      omega)
  have hfree₂ := hc₂.free
  generalize hk₁ : ({ k.setProc c ⟨k.nextPid, (k.procs j).pid, .embryo, 0, none,
    ⟨cr3, [], 0, 0, 0⟩, Kernel.initialFds, none, 0, [Vfs.slash]⟩ with
    phys := ph, nextPid := k.nextPid + 1 } : Kernel) = k₁ at ha
  have hprocs₁ : k₁.procs = Function.update k.procs c ⟨k.nextPid, (k.procs j).pid, .embryo, 0,
      none, ⟨cr3, [], 0, 0, 0⟩, Kernel.initialFds, none, 0, [Vfs.slash]⟩ := by
    rw [← hk₁]
    rfl
  have hrest₁ : k₁.sched = k.sched ∧ k₁.nextPid = k.nextPid + 1 ∧ k₁.phys = ph ∧
      k₁.files = k.files ∧ k₁.root = k.root := by
    rw [← hk₁]
    exact ⟨rfl, rfl, rfl, rfl, rfl⟩
  -- the child has the pages and the descriptors of its parent
  generalize hk₂ : k₁.setSpace c ph₂ (inheritBreak sp₂ (k.procs j).space) = k₂
  have hprocs₂ := setSpace_embryo hprocs₁ ph₂ (inheritBreak sp₂ (k.procs j).space)
  rw [hk₂] at hprocs₂
  have hrest₂ : k₂.sched = k.sched ∧ k₂.nextPid = k.nextPid + 1 ∧ k₂.phys = ph₂ ∧
      k₂.files = k.files ∧ k₂.root = k.root := by
    rw [← hk₂]
    exact ⟨hrest₁.1, hrest₁.2.1, rfl, hrest₁.2.2.2⟩
  have hprocs₃ : (k₂.inherit c (k.procs j) none).procs = Function.update k.procs c
      ⟨k.nextPid, (k.procs j).pid, .embryo, 0, none, inheritBreak sp₂ (k.procs j).space,
        (k.procs j).fds, none, 0, [Vfs.slash]⟩ := by
    unfold Kernel.inherit Kernel.setProc
    dsimp only
    rw [hprocs₂, Function.update_self, Function.update_idem]
  obtain ⟨k₄, hstart, -, hborn, hfiles⟩ := @started_born k c (k₂.inherit c (k.procs j) none) _
    hprocs₃ hrest₂.1 hrest₂.2.1 hrest₂.2.2.2.2 hlt hun rfl (show k₂.phys.Ok by rw [hrest₂.2.2.1]; exact hc₂.ok)
    (show kstackCost ≤ k₂.phys.free.card by rw [hrest₂.2.2.1]; omega) htid
    (Function.update k₂.frame .rax 0)
  refine ⟨k₄, c, _, _, ?_, hborn, hfiles.trans ?_⟩
  · have hone : ∀ {i' : ℕ}, k.Forks i' → i' = j := fun h =>
      Option.some.inj (h.1.symm.trans hcur)
    have hcases := forked k grow heap
    generalize k.processForkCurrent grow heap = k' at hcases ⊢
    cases hcases with
    | refused hno => exact absurd ⟨hcur, hpid, hst⟩ (hno j)
    | full hf ha' =>
      rw [hone hf, ha] at ha'
      cases ha'
    | noPages hf ha' hp' =>
      rw [hone hf, ha] at ha'
      cases ha'
      rw [hone hf, hprocs₁, Function.update_self, hrest₁.2.2.1, hp] at hp'
      cases hp'
    | noTable hf ha' hp' hh =>
      rw [hone hf, ha] at ha'
      cases ha'
      rw [hone hf] at hh
      unfold Kernel.forkHandles at hh
      rw [hhandles] at hh
      cases hh
    | started hf ha' hp' hh hs =>
      rw [hone hf, ha] at ha'
      cases ha'
      rw [hone hf, hprocs₁, Function.update_self, hrest₁.2.2.1, hp] at hp'
      cases hp'
      rw [hone hf, hk₂] at hh
      unfold Kernel.forkHandles at hh
      rw [hhandles] at hh
      cases hh
      rw [hone hf, hstart] at hs
      cases hs
      rw [if_pos rfl, hborn.procs, Function.update_self]
  · show Kernel.dupFds k₂.files (k.procs j).fds = _
    rw [hrest₂.2.2.2.1]

end Costs

end VoidOS.Proc
