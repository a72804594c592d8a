import VoidOS.Frames
import VoidOS.Process
import VoidOS.Transition

namespace VoidOS.Proc

open ByteMem Transition Mm

def kheapStart : ℕ := 0xFFFFFFFF90000000
def kheapMax : ℕ := 0xFFFFFFFFA0000000
def kstackStart : ℕ := 0xFFFFFFFF91000000

def heapTarget (heapTop need : ℕ) : ℕ := pageDown (add64 (add64 heapTop need) (pageSize - 1))

def Kernel.heapGrowBy (k : Kernel) (need : ℕ) : Kernel :=
  if kheapMax < heapTarget k.heapTop need then k
  else k.heapGrow (pagesTo k.heapTop (heapTarget k.heapTop need))

def heapPages : ℕ → Kernel → List ℕ
  | 0, _ => []
  | n + 1, k =>
    match k.heapGrowPage with
    | (_, false) => []
    | (k', true) => k.heapTop :: heapPages n k'

def Kernel.heapGrowPages (k : Kernel) (need : ℕ) : List ℕ :=
  if kheapMax < heapTarget k.heapTop need then []
  else heapPages (pagesTo k.heapTop (heapTarget k.heapTop need)) k

/-- The pages that the loop of `alloc_kstack` maps. -/
def kstackPages (kernelPml4 base : ℕ) : ℕ → ℕ → Phys → List ℕ
  | 0, _, _ => []
  | n + 1, i, ph =>
    let (ph, frame) := pmmAllocFrame ph
    if frame = 0 then []
    else
      let (ph, ok) := vmmMapPage ph kernelPml4 (add64 base (i * pageSize)) frame
        (vmmPresent ||| vmmWrite)
      (if ok then [add64 base (i * pageSize)] else []) ++ kstackPages kernelPml4 base n (i + 1) ph

/-- The kernel, with the pages that either allocator has mapped so far. -/
structure Regions where
  kernel : Kernel
  heap : List ℕ
  kstacks : List ℕ

inductive RegionOp
  | heapGrow (need : ℕ)
  | allocKstack

def regionStep (r : Regions) : RegionOp → Option Regions
  | .heapGrow need =>
    some ⟨r.kernel.heapGrowBy need, r.heap ++ r.kernel.heapGrowPages need, r.kstacks⟩
  | .allocKstack => some ⟨r.kernel.allocKstack.1, r.heap, r.kstacks ++
      kstackPages r.kernel.kernelPml4 r.kernel.nextStackVaddr kthreadStackPages 0 r.kernel.phys⟩

def RegionsInit (r : Regions) : Prop :=
  r.kernel.phys.Ok ∧ r.kernel.heapTop = kheapStart ∧ r.kernel.nextStackVaddr = kstackStart ∧
    r.heap = [] ∧ r.kstacks = []

/-- The heap does not grow past the first stack, and the addresses for stacks are not used up. -/
def Roomy (r : Regions) : RegionOp → Prop
  | .heapGrow need => heapTarget r.kernel.heapTop need ≤ kstackStart
  | .allocKstack => kstackStart ≤ r.kernel.nextStackVaddr ∧
      r.kernel.nextStackVaddr + kthreadStackPages * pageSize ≤ 2 ^ 64

section Disjoint

variable {r r' : Regions} {k : Kernel} {n va : ℕ}

theorem heapGrowPage_cases (k : Kernel) :
    (k.heapGrowPage.2 = false ∧ k.heapGrowPage.1.heapTop = k.heapTop) ∨
    (k.heapGrowPage.2 = true ∧ k.heapGrowPage.1.heapTop = add64 k.heapTop pageSize) := by
  unfold Kernel.heapGrowPage
  dsimp only
  split
  · exact Or.inl ⟨rfl, rfl⟩
  · split
    · exact Or.inl ⟨rfl, rfl⟩
    · exact Or.inr ⟨rfl, rfl⟩

/-- The rounds of `heap_grow` stay below their target, and so do the pages they map. -/
theorem heapGrow_top (n : ℕ) (k : Kernel) (hlt : k.heapTop + n * pageSize < 2 ^ 64) :
    k.heapTop ≤ (k.heapGrow n).heapTop ∧ (k.heapGrow n).heapTop ≤ k.heapTop + n * pageSize ∧
      (k.heapGrow n).heapTop % pageSize = k.heapTop % pageSize ∧
      ∀ va ∈ heapPages n k, va < k.heapTop + n * pageSize := by
  induction n generalizing k with
  | zero => exact ⟨le_rfl, by simp [Kernel.heapGrow], rfl, by simp [heapPages]⟩
  | succ n ih =>
    have hcases := heapGrowPage_cases k
    rw [Kernel.heapGrow, heapPages]
    generalize k.heapGrowPage = s at hcases
    obtain ⟨k₁, b⟩ := s
    rcases hcases with ⟨rfl, htop⟩ | ⟨rfl, htop⟩
    · dsimp only at htop ⊢
      rw [htop]
      exact ⟨le_rfl, Nat.le_add_right _ _, rfl, by simp⟩
    · dsimp only at htop ⊢
      rw [add_mul, one_mul] at hlt ⊢
      rw [add64_of_lt (by omega)] at htop
      obtain ⟨h₁, h₂, h₃, h₄⟩ := ih k₁ (by omega)
      refine ⟨by omega, by omega, ?_, ?_⟩
      · rw [h₃, htop, Nat.add_mod_right]
      · intro va hva
        rcases List.mem_cons.mp hva with rfl | hva
        · unfold pageSize
          omega
        · have := h₄ va hva
          omega

theorem kstackPages_ge {kernelPml4 base i : ℕ} {ph : Phys}
    (hroom : base + (i + n) * pageSize ≤ 2 ^ 64) (hva : va ∈ kstackPages kernelPml4 base n i ph) :
    base ≤ va := by
  induction n generalizing i ph with
  | zero => exact absurd hva (by simp [kstackPages])
  | succ n ih =>
    rw [kstackPages] at hva
    dsimp only at hva
    split at hva
    · exact absurd hva (by simp)
    · rcases List.mem_append.mp hva with hva | hva
      · split at hva
        · rw [List.mem_singleton] at hva
          rw [hva, add64_of_lt]
          · exact Nat.le_add_right _ _
          · have : (i + (n + 1)) * pageSize = i * pageSize + n * pageSize + pageSize := by ring
            unfold pageSize at *
            omega
        · exact absurd hva (by simp)
      · exact ih (by rw [show i + 1 + n = i + (n + 1) by ring]; exact hroom) hva

structure RegionsOk (r : Regions) : Prop where
  top : kheapStart ≤ r.kernel.heapTop ∧ r.kernel.heapTop ≤ kstackStart
  aligned : r.kernel.heapTop % pageSize = 0
  heap : ∀ va ∈ r.heap, va < kstackStart
  kstacks : ∀ va ∈ r.kstacks, kstackStart ≤ va

theorem heapGrowBy_ok {need : ℕ} (h : RegionsOk r) (hroom : Roomy r (.heapGrow need)) :
    RegionsOk ⟨r.kernel.heapGrowBy need, r.heap ++ r.kernel.heapGrowPages need, r.kstacks⟩ := by
  have htop := h.top
  have hal := h.aligned
  replace hroom : heapTarget r.kernel.heapTop need ≤ kstackStart := hroom
  unfold Kernel.heapGrowBy Kernel.heapGrowPages
  rw [if_neg (by unfold kstackStart kheapMax at *; omega),
    if_neg (by unfold kstackStart kheapMax at *; omega)]
  have hmod : heapTarget r.kernel.heapTop need % pageSize = 0 := by
    unfold heapTarget pageDown
    exact Nat.mul_mod_left _ _
  generalize heapTarget r.kernel.heapTop need = target at hroom hmod ⊢
  -- the rounds are as many as there are pages up to the target
  have hsum : r.kernel.heapTop + pagesTo r.kernel.heapTop target * pageSize ≤ kstackStart := by
    unfold pagesTo
    unfold pageSize kstackStart at *
    omega
  obtain ⟨h₁, h₂, h₃, h₄⟩ := heapGrow_top (pagesTo r.kernel.heapTop target) r.kernel
    (by unfold kstackStart at hsum; omega)
  refine ⟨⟨htop.1.trans h₁, h₂.trans hsum⟩, h₃.trans hal, ?_, h.kstacks⟩
  intro va hva
  rcases List.mem_append.mp hva with hva | hva
  · exact h.heap va hva
  · exact lt_of_lt_of_le (h₄ va hva) hsum

theorem allocKstack_ok (h : RegionsOk r) (hroom : Roomy r .allocKstack) :
    RegionsOk ⟨r.kernel.allocKstack.1, r.heap, r.kstacks ++
      kstackPages r.kernel.kernelPml4 r.kernel.nextStackVaddr kthreadStackPages 0
        r.kernel.phys⟩ := by
  refine ⟨h.top, h.aligned, h.heap, ?_⟩
  intro va hva
  rcases List.mem_append.mp hva with hva | hva
  · exact h.kstacks va hva
  · exact hroom.1.trans (kstackPages_ge (by rw [zero_add]; exact hroom.2) hva)

/-- As long as the heap stays below the first stack and the stack addresses are not used up, no
page is mapped by both. -/
theorem regions_disjoint (h : Reach regionStep Roomy RegionsInit r) :
    ∀ va ∈ r.heap, va ∉ r.kstacks := by
  have hok : RegionsOk r := by
    apply h.invariant (P := RegionsOk)
    · rintro r ⟨-, htop, -, hheap, hst⟩
      refine ⟨?_, ?_, by simp [hheap], by simp [hst]⟩
      · rw [htop]
        decide
      · rw [htop]
        decide
    · intro r a r' h hroom hs
      cases a with
      | heapGrow need =>
        cases hs
        exact heapGrowBy_ok h hroom
      | allocKstack =>
        cases hs
        exact allocKstack_ok h hroom
  intro va hva hc
  have h₁ := hok.heap va hva
  have h₂ := hok.kstacks va hc
  omega

end Disjoint

section Collision

variable {k : Kernel} {kernelPml4 base n m i : ℕ} {ph : Phys}

theorem heapGrowPage_count (hok : k.phys.Ok) (hfree : 4 ≤ k.phys.free.card) :
    k.heapGrowPage.2 = true ∧ k.heapGrowPage.1.phys.Ok ∧
      k.phys.free.card ≤ k.heapGrowPage.1.phys.free.card + 4 := by
  rcases pmmAllocFrame_cases k.phys with ⟨hnone, -⟩ | ⟨f, hf, ha⟩
  · rw [hnone, Finset.card_empty] at hfree
    omega
  · have hcard := Phys.card_free_take hf
    unfold Kernel.heapGrowPage
    rw [ha]
    simp only [hok.ne_zero hf, if_false]
    obtain ⟨h₁, -, h₂, h₃⟩ := vmmMapPage_count (hok.take f)
      (@Prod.mk.eta _ _ (vmmMapPage (k.phys.take f) k.kernelPml4 k.heapTop (f * pageSize)
        (vmmPresent ||| vmmWrite))).symm
    split
    · rename_i hm
      rw [hm] at h₃
      exact nomatch h₃ (by omega)
    · rename_i hm
      rw [hm] at h₁ h₂
      exact ⟨rfl, h₁, by dsimp only at h₂ ⊢; omega⟩

theorem mem_heapPages (hok : k.phys.Ok) (hfree : 4 * n ≤ k.phys.free.card)
    (hlt : k.heapTop + n * pageSize < 2 ^ 64) (hi : i < n) :
    k.heapTop + i * pageSize ∈ heapPages n k := by
  induction n generalizing k i with
  | zero => omega
  | succ n ih =>
    obtain ⟨hb, hok', hfree'⟩ := heapGrowPage_count hok (by omega)
    have htop : k.heapGrowPage.1.heapTop = add64 k.heapTop pageSize := by
      rcases heapGrowPage_cases k with ⟨hc, -⟩ | ⟨-, h⟩
      · rw [hb] at hc
        cases hc
      · exact h
    rw [add_mul, one_mul] at hlt
    rw [add64_of_lt (by omega)] at htop
    rw [heapPages]
    generalize k.heapGrowPage = s at hb hok' hfree' htop
    obtain ⟨k₁, b⟩ := s
    cases hb
    dsimp only at hok' hfree' htop ⊢
    cases i with
    | zero => exact List.mem_cons.mpr (Or.inl (by rw [zero_mul, add_zero]))
    | succ i =>
      have hmem := ih hok' (by omega) (by omega) (show i < n by omega)
      rw [htop] at hmem
      rw [show k.heapTop + (i + 1) * pageSize = k.heapTop + pageSize + i * pageSize by ring]
      exact List.mem_cons_of_mem _ hmem

theorem kstackLoop_count {frames : List ℕ} (hok : ph.Ok) :
    (Kernel.kstackLoop kernelPml4 base n i ph frames).1.Ok ∧
      ph.free.card ≤ (Kernel.kstackLoop kernelPml4 base n i ph frames).1.free.card + 4 * n := by
  induction n generalizing i ph frames with
  | zero => exact ⟨hok, le_rfl⟩
  | succ n ih =>
    rw [Kernel.kstackLoop]
    rcases pmmAllocFrame_cases ph with ⟨-, ha⟩ | ⟨f, hf, ha⟩
    · rw [ha]
      exact ⟨hok, Nat.le_add_right _ _⟩
    · have hcard := Phys.card_free_take hf
      rw [ha]
      simp only [hok.ne_zero hf, if_false]
      obtain ⟨h₁, -, h₂, -⟩ := vmmMapPage_count (hok.take f)
        (@Prod.mk.eta _ _ (vmmMapPage (ph.take f) kernelPml4 (add64 base (i * pageSize))
          (f * pageSize) (vmmPresent ||| vmmWrite))).symm
      obtain ⟨h₃, h₄⟩ := @ih (i + 1) _ (frames ++ [f * pageSize]) h₁
      exact ⟨h₃, by omega⟩

theorem mem_kstackPages (hok : ph.Ok) (hfree : 4 ≤ ph.free.card) :
    add64 base (i * pageSize) ∈ kstackPages kernelPml4 base (n + 1) i ph := by
  rw [kstackPages]
  rcases pmmAllocFrame_cases ph with ⟨hnone, -⟩ | ⟨f, hf, ha⟩
  · rw [hnone, Finset.card_empty] at hfree
    omega
  · have hcard := Phys.card_free_take hf
    rw [ha]
    simp only [hok.ne_zero hf, if_false]
    obtain ⟨-, -, -, h₃⟩ := vmmMapPage_count (hok.take f)
      (@Prod.mk.eta _ _ (vmmMapPage (ph.take f) kernelPml4 (add64 base (i * pageSize))
        (f * pageSize) (vmmPresent ||| vmmWrite))).symm
    rw [h₃ (by omega), if_pos rfl]
    exact List.mem_append_left _ (List.mem_singleton_self _)

/-- `n` frames, all free but the first and the one of the page tables. -/
def freshPhys (n : ℕ) : Phys := ⟨fun _ => 0, fun f => decide (f < 2), n⟩

theorem card_freshPhys (n : ℕ) : (freshPhys n).free.card = n - 2 := by
  have heq : (freshPhys n).free = Finset.Ico 2 n := by
    ext f
    rw [Phys.mem_free, Finset.mem_Ico]
    simp only [freshPhys, decide_eq_false_iff_not]
    omega
  rw [heq, Nat.card_Ico]

/-- A kernel before `sched_init`, with `n` frames. -/
def freshKernel (n : ℕ) : Kernel where
  phys := freshPhys n
  kernelPml4 := 0x1000
  nxOk := true
  blobs := []
  trampoline := 0
  nextStackVaddr := kstackStart
  heapTop := kheapStart
  procs := fun _ => ⟨-1, -1, .unused, 0, none, ⟨0, [], 0, 0, 0⟩, [], none, 0, []⟩
  nextPid := 0
  sched := Sched.bootThreads 0x1000
  files := fun _ => none
  root := Vfs.builtTree
  heapFrames := []
  stackFrames := []
  exits := []
  reaps := []

theorem freshPhys_ok (h : n * pageSize ≤ 2 ^ 52) : (freshPhys n).Ok := ⟨rfl, h⟩

theorem freshKernel_regions (h : n * pageSize ≤ 2 ^ 52) : RegionsInit ⟨freshKernel n, [], []⟩ :=
  ⟨freshPhys_ok h, rfl, rfl, rfl, rfl⟩

/-- The state after the first kernel stack and a growth of the heap by `need` bytes. -/
def stackAndHeap (n need : ℕ) : Regions :=
  let k := (freshKernel n).allocKstack.1
  ⟨k.heapGrowBy need, [] ++ k.heapGrowPages need,
    [] ++ kstackPages 0x1000 kstackStart kthreadStackPages 0 (freshPhys n)⟩

theorem stackAndHeap_reach {ok : Regions → RegionOp → Prop} {need : ℕ}
    (h : n * pageSize ≤ 2 ^ 52) (hst : ∀ r, r.kernel.nextStackVaddr = kstackStart →
      ok r .allocKstack)
    (hheap : ∀ r, r.kernel.heapTop = kheapStart → ok r (.heapGrow need)) :
    Reach regionStep ok RegionsInit (stackAndHeap n need) := by
  apply ((Reach.init (freshKernel_regions h)).step (a := .allocKstack) (hst _ rfl) rfl).step
    (a := .heapGrow need) (hheap _ rfl)
  rfl

/-- With four free frames for each page, the heap has all its pages and the stack its first. -/
theorem stackAndHeap_mem {need pages : ℕ} (h : n * pageSize ≤ 2 ^ 52)
    (htarget : heapTarget kheapStart need ≤ kheapMax)
    (hpages : pagesTo kheapStart (heapTarget kheapStart need) = pages)
    (hfree : 4 * (kthreadStackPages + pages) ≤ n - 2)
    (hlt : kheapStart + pages * pageSize < 2 ^ 64) :
    (∀ i < pages, kheapStart + i * pageSize ∈ (stackAndHeap n need).heap) ∧
      kstackStart ∈ (stackAndHeap n need).kstacks := by
  have hok := freshPhys_ok h
  have hcard := card_freshPhys n
  constructor
  · obtain ⟨hok', hcard'⟩ := @kstackLoop_count 0x1000 kstackStart kthreadStackPages 0
      (freshPhys n) [] hok
    have hgrow : (freshKernel n).allocKstack.1.heapGrowPages need =
        heapPages pages (freshKernel n).allocKstack.1 := by
      rw [← hpages]
      exact if_neg (Nat.not_lt.mpr htarget)
    intro i hi
    apply List.mem_append_right
    rw [hgrow]
    apply @mem_heapPages (freshKernel n).allocKstack.1 pages i hok' _ hlt hi
    show _ ≤ (Kernel.kstackLoop 0x1000 kstackStart kthreadStackPages 0 (freshPhys n)
      []).1.free.card
    omega
  · apply List.mem_append_right
    have hmem := @mem_kstackPages 0x1000 kstackStart 15 0 _ hok
      (by unfold kthreadStackPages at hfree; omega)
    rw [zero_mul, show add64 kstackStart 0 = kstackStart by decide +kernel] at hmem
    exact hmem

theorem regions_disjoint_page : kheapStart ∈ (stackAndHeap 128 0x1000).heap ∧
    kstackStart ∈ (stackAndHeap 128 0x1000).kstacks ∧
    ∀ va ∈ (stackAndHeap 128 0x1000).heap, va ∉ (stackAndHeap 128 0x1000).kstacks := by
  obtain ⟨hheap, hst⟩ := @stackAndHeap_mem 128 0x1000 1 (by decide) (by decide +kernel)
    (by decide +kernel) (by decide) (by decide)
  refine ⟨hheap 0 one_pos, hst, regions_disjoint (stackAndHeap_reach (by decide) ?_ ?_)⟩
  · intro r hr
    dsimp only [Roomy]
    rw [hr]
    decide
  · intro r hr
    dsimp only [Roomy]
    rw [hr]
    decide +kernel

/-- On a machine with 128 MiB, a heap that grows by `0x1001000` bytes maps the first page of the
first kernel stack once more. -/
theorem regions_collide :
    ∃ r, Reach regionStep (fun _ _ => True) RegionsInit r ∧ kstackStart ∈ r.heap ∧
      kstackStart ∈ r.kstacks := by
  obtain ⟨hheap, hst⟩ := @stackAndHeap_mem 32768 0x1001000 4097 (by decide) (by decide +kernel)
    (by decide +kernel) (by decide) (by decide)
  refine ⟨_, stackAndHeap_reach (n := 32768) (by decide) (fun _ _ => trivial)
    (fun _ _ => trivial), ?_, hst⟩
  have hmem := hheap 4096 (by decide)
  rwa [show kheapStart + 4096 * pageSize = kstackStart by decide] at hmem

end Collision

end VoidOS.Proc
