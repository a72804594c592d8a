import VoidOS.BootMachine

namespace VoidOS.Proc

open Transition ByteMem PageTree Ownership Mm Elf

/-- The places where the kernel keeps frames: an entry of the `umap` of a slot, a table of the user
half of a slot by the indices that lead to it, the kernel heap and the kernel stacks. -/
inductive Holder
  | page (i j : ℕ)
  | table (i : ℕ) (path : List ℕ)
  | heap (j : ℕ)
  | kstack (j : ℕ)

/-- `a` is a frame of the holder. Those of the heap and of the kernel stacks are the ones in the
lists: under `Fits` the heap ends below the first stack, and no page is mapped over another. -/
def Kernel.Holds (k : Kernel) : Holder → ℕ → Prop
  | .page i j, a => k.Used i ∧ ∃ e, (k.procs i).space.umap[j]? = some e ∧ e.phys = a
  | .table i path, a => k.Used i ∧ UserPlaces path ∧ path.length ≤ 3 ∧
      walk k.phys.ram (k.procs i).space.cr3 path = some a
  | .heap j, a => k.heapFrames[j]? = some a
  | .kstack j, a => k.stackFrames[j]? = some a

def Kernel.userPte (k : Kernel) (i v : ℕ) : ℕ := vmmGetPte k.phys.ram (k.procs i).space.cr3 v

/-- The address is in the user half of a process and its page is present. -/
def Kernel.Maps (k : Kernel) (i v : ℕ) : Prop :=
  k.Used i ∧ pml4Idx v < 256 ∧ present (k.userPte i v) = true

section Holders

variable {boot : Set ℕ} {top : UpperHalf} {k : Kernel} {i v a : ℕ} {p q : Holder} {sp : Space}

def Holder.owner : Holder → Owner
  | .page i _ => .space i
  | .table i _ => if i = 0 then .tables else .space i
  | .heap _ => .heap
  | .kstack _ => .kstack

theorem owner_table (i : ℕ) (path : List ℕ) :
    (i = 0 ∧ (Holder.table i path).owner = .tables) ∨
      (i ≠ 0 ∧ (Holder.table i path).owner = .space i) := by
  by_cases h0 : i = 0
  · exact Or.inl ⟨h0, if_pos h0⟩
  · exact Or.inr ⟨h0, if_neg h0⟩

theorem Kernel.Used.spaceAt (h : k.Used i) (h0 : i ≠ 0) :
    k.spaceAt i = some (k.procs i).space := spaceAt_some h0 h.1 h.2

theorem kernel_table (h : FramesInv boot top k) {path : List ℕ} (hp : UserPlaces path)
    (hw : walk k.phys.ram (k.procs 0).space.cr3 path = some a) :
    path = [] ∧ a = k.kernelPml4 := by
  have hk : KernelOk k.phys k.kernelPml4 top := h.mem.part .tables
  rw [h.kernel.2.1] at hw
  cases path with
  | nil => exact ⟨rfl, (Option.some.inj hw).symm⟩
  | cons j path =>
    have hj := userPlaces_head hp
    rw [walk, if_neg (by rw [hk.low j hj]; exact Bool.false_ne_true)] at hw
    cases hw

theorem FramesInv.holds_own (h : FramesInv boot top k) (hp : k.Holds p a) :
    ∃ f ∈ k.memory.own boot p.owner, a = f * pageSize := by
  cases p with
  | page i j =>
    obtain ⟨hu, e, he, rfl⟩ := hp
    have hmem : e ∈ (k.procs i).space.umap := List.mem_of_getElem? he
    have h0 : i ≠ 0 := by
      rintro rfl
      rw [h.kernel.2.2] at hmem
      exact absurd hmem List.not_mem_nil
    have hsp := hu.spaceAt h0
    obtain ⟨f, -, -, hf, -⟩ := (spaceOk_at h hsp).frame e hmem
    refine ⟨f, ?_, hf⟩
    show f ∈ spaceFrames k.phys (k.spaceAt i)
    rw [hsp]
    exact Or.inr ⟨e, hmem, hf⟩
  | table i path =>
    obtain ⟨hu, hplace, hlen, hw⟩ := hp
    by_cases h0 : i = 0
    · have hk : KernelOk k.phys k.kernelPml4 top := h.mem.part .tables
      obtain ⟨-, rfl⟩ := kernel_table h hplace (h0 ▸ hw)
      obtain ⟨f, -, -, hf⟩ := hk.tree.frame [] _ (kernel_nil _ _) (Nat.zero_le 3) rfl
      refine ⟨f, ?_, hf⟩
      rw [Holder.owner, if_pos h0]
      exact ⟨[], kernel_nil _ _, Nat.zero_le 3, hf ▸ rfl⟩
    · have hsp := hu.spaceAt h0
      obtain ⟨f, -, -, hf⟩ := (spaceOk_at h hsp).tree.frame path a hplace hlen hw
      refine ⟨f, ?_, hf⟩
      rw [Holder.owner, if_neg h0]
      show f ∈ spaceFrames k.phys (k.spaceAt i)
      rw [hsp]
      exact Or.inl ⟨path, hplace, hlen, hf ▸ hw⟩
  | heap j =>
    have hl : FramesOk k.phys k.heapFrames := h.mem.part .heap
    obtain ⟨f, -, hf⟩ := hl.2 a (List.mem_of_getElem? hp)
    exact ⟨f, by show f * pageSize ∈ k.heapFrames; rw [← hf]; exact List.mem_of_getElem? hp, hf⟩
  | kstack j =>
    have hl : FramesOk k.phys k.stackFrames := h.mem.part .kstack
    obtain ⟨f, -, hf⟩ := hl.2 a (List.mem_of_getElem? hp)
    exact ⟨f, by show f * pageSize ∈ k.stackFrames; rw [← hf]; exact List.mem_of_getElem? hp, hf⟩

theorem FramesInv.page_table (h : FramesInv boot top k) {j : ℕ} {path : List ℕ} (h0 : i ≠ 0)
    (hp : k.Holds (.page i j) a) (ht : k.Holds (.table i path) a) : False := by
  obtain ⟨hu, e, he, rfl⟩ := hp
  obtain ⟨-, hplace, hlen, hw⟩ := ht
  obtain ⟨f, -, -, hf, hnot⟩ := (spaceOk_at h (hu.spaceAt h0)).frame e (List.mem_of_getElem? he)
  exact hnot ⟨path, hplace, hlen, hf ▸ hw⟩

theorem FramesInv.page_once (h : FramesInv boot top k) {j j' : ℕ} (h0 : i ≠ 0)
    (hp : k.Holds (.page i j) a) (hq : k.Holds (.page i j') a) : j = j' := by
  obtain ⟨hu, e, he, rfl⟩ := hp
  obtain ⟨-, e', he', heq⟩ := hq
  obtain ⟨hlt, -⟩ := List.getElem?_eq_some_iff.mp he
  apply (List.getElem?_inj (by rwa [List.length_map]) (spaceOk_at h (hu.spaceAt h0)).nodup).mp
  rw [List.getElem?_map, List.getElem?_map, he, he', Option.map_some, Option.map_some, heq]

theorem FramesInv.table_once (h : FramesInv boot top k) {path path' : List ℕ}
    (hp : k.Holds (.table i path) a) (hq : k.Holds (.table i path') a) : path = path' := by
  obtain ⟨hu, hplace, hlen, hw⟩ := hp
  obtain ⟨-, hplace', hlen', hw'⟩ := hq
  by_cases h0 : i = 0
  · rw [(kernel_table h hplace (h0 ▸ hw)).1, (kernel_table h hplace' (h0 ▸ hw')).1]
  · exact (spaceOk_at h (hu.spaceAt h0)).tree.apart _ _ a hplace hplace' hlen hlen' hw hw'

theorem FramesInv.page_slot (h : FramesInv boot top k) {j : ℕ} (hp : k.Holds (.page i j) a) :
    i ≠ 0 := by
  rintro rfl
  obtain ⟨-, e, he, -⟩ := hp
  have hmem := List.mem_of_getElem? he
  rw [h.kernel.2.2] at hmem
  exact absurd hmem List.not_mem_nil

theorem FramesInv.holds_once (h : FramesInv boot top k) (hp : k.Holds p a) (hq : k.Holds q a) :
    p = q := by
  have howner : p.owner = q.owner := by
    obtain ⟨f, hf, hfa⟩ := h.holds_own hp
    obtain ⟨g, hg, hga⟩ := h.holds_own hq
    have hfg : f = g := Nat.eq_of_mul_eq_mul_right (by decide) (hfa.symm.trans hga)
    by_contra hne
    exact Set.disjoint_left.mp (h.mem.shared.apart _ _ hne) hf (hfg ▸ hg)
  cases p with
  | page i j =>
    have h0 := h.page_slot hp
    cases q with
    | page i' j' =>
      cases howner
      rw [h.page_once h0 hp hq]
    | table i' path =>
      rcases owner_table i' path with ⟨-, he⟩ | ⟨-, he⟩ <;> cases howner.trans he
      exact (h.page_table h0 hp hq).elim
    | heap j' => cases howner
    | kstack j' => cases howner
  | table i path =>
    rcases owner_table i path with ⟨h0, he⟩ | ⟨h0, he⟩ <;> rw [he] at howner
    · cases q with
      | page i' j' => cases howner
      | table i' path' =>
        rcases owner_table i' path' with ⟨h0', he'⟩ | ⟨-, he'⟩ <;> cases howner.trans he'
        subst h0 h0'
        rw [h.table_once hp hq]
      | heap j' => cases howner
      | kstack j' => cases howner
    · cases q with
      | page i' j' =>
        cases howner
        exact (h.page_table h0 hq hp).elim
      | table i' path' =>
        rcases owner_table i' path' with ⟨-, he'⟩ | ⟨-, he'⟩ <;> cases howner.trans he'
        rw [h.table_once hp hq]
      | heap j' => cases howner
      | kstack j' => cases howner
  | heap j =>
    cases q with
    | page i' j' => cases howner
    | table i' path => rcases owner_table i' path with ⟨-, he⟩ | ⟨-, he⟩ <;> cases howner.trans he
    | heap j' =>
      have hl : FramesOk k.phys k.heapFrames := h.mem.part .heap
      rw [(List.getElem?_inj (List.getElem?_eq_some_iff.mp hp).1 hl.1).mp (Eq.trans hp hq.symm)]
    | kstack j' => cases howner
  | kstack j =>
    cases q with
    | page i' j' => cases howner
    | table i' path => rcases owner_table i' path with ⟨-, he⟩ | ⟨-, he⟩ <;> cases howner.trans he
    | heap j' => cases howner
    | kstack j' =>
      have hl : FramesOk k.phys k.stackFrames := h.mem.part .kstack
      rw [(List.getElem?_inj (List.getElem?_eq_some_iff.mp hp).1 hl.1).mp (Eq.trans hp hq.symm)]

theorem FramesInv.used (h : FramesInv boot top k) (hp : k.Holds p a) :
    k.phys.used (a / pageSize) = true := by
  obtain ⟨f, hf, rfl⟩ := h.holds_own hp
  rw [Nat.mul_div_cancel _ (show 0 < pageSize by decide)]
  exact h.mem.shared.subset _ hf

theorem FramesInv.maps_page (h : FramesInv boot top k) (hm : k.Maps i v) :
    ∃ j, k.Holds (.page i j) (addr (k.userPte i v)) := by
  obtain ⟨hu, hv, hp⟩ := hm
  unfold Kernel.userPte at hp ⊢
  by_cases h0 : i = 0
  · -- the lower half of the kernel is empty
    have hk : KernelOk k.phys k.kernelPml4 top := h.mem.part .tables
    rw [h0, h.kernel.2.1, vmmGetPte, hk.low _ hv, Bool.not_false, if_pos rfl] at hp
    exact absurd hp (by decide)
  · have hok := spaceOk_at h (hu.spaceAt h0)
    rw [vmmGetPte_eq (hok.tree.noHuge ⟨v, hv, List.prefix_rfl⟩)] at hp ⊢
    -- the walk does not read the bits above the index of the PML4
    have hlow : v % 2 ^ 48 < userLimit := by
      unfold pml4Idx at hv
      unfold userLimit
      omega
    have hindices : indices v = indices (v % 2 ^ 48) := by
      rw [indices_eq_iff]
      omega
    rw [leaf_congr hindices] at hp ⊢
    obtain ⟨e, he, -, hphys⟩ := hok.recorded _ hlow hp
    obtain ⟨j, hj⟩ := List.getElem?_of_mem he
    exact ⟨j, hu, e, hj, hphys⟩

end Holders

section Results

variable {boot : Set ℕ} {top : UpperHalf} {k : Kernel}

/-- Every page that a process sees is its own, and every frame is kept at one place. -/
theorem frame_isolation (h : Reach step Admissible (BootedFrames boot top) k) :
    (∀ i v, k.Maps i v → ∃ e ∈ (k.procs i).space.umap, e.phys = addr (k.userPte i v) ∧
      k.phys.used (e.phys / pageSize) = true) ∧
    (∀ p q a, k.Holds p a → k.Holds q a → p = q) ∧
    (∀ i j v w, k.Maps i v → k.Maps j w → addr (k.userPte i v) = addr (k.userPte j w) → i = j) ∧
    ∀ i v, k.Maps i v → (pmmAllocFrame k.phys).2 ≠ addr (k.userPte i v) := by
  obtain ⟨-, hf⟩ := reach_frames h
  refine ⟨?_, fun p q a => hf.holds_once, ?_, ?_⟩
  · intro i v hm
    obtain ⟨j, hj⟩ := hf.maps_page hm
    have hused := hf.used hj
    obtain ⟨-, e, he, hphys⟩ := hj
    exact ⟨e, List.mem_of_getElem? he, hphys, hphys ▸ hused⟩
  · intro i j v w hi hj heq
    obtain ⟨m, hm⟩ := hf.maps_page hi
    obtain ⟨n, hn⟩ := hf.maps_page hj
    cases hf.holds_once hm (heq ▸ hn)
    rfl
  · intro i v hm heq
    obtain ⟨j, hj⟩ := hf.maps_page hm
    have hused := hf.used hj
    rcases pmmAllocFrame_cases k.phys with ⟨-, ha⟩ | ⟨f, hfree, ha⟩
    · -- frame 0 is never a page
      rw [ha] at heq
      obtain ⟨f, hown, hfa⟩ := hf.holds_own hj
      have hf0 : f = 0 := by
        rw [← heq] at hfa
        exact (Nat.mul_eq_zero.mp hfa.symm).resolve_right (by decide)
      exact Set.disjoint_left.mp (hf.mem.shared.apart .boot (.space i) (by simp)) hf.mem.zero
        (hf0 ▸ hown)
    · rw [← heq, ha, Nat.mul_div_cancel _ (show 0 < pageSize by decide)] at hused
      rw [(Phys.mem_free.mp hfree).2] at hused
      cases hused

theorem frame_isolation_spawned : ∃ k c, step (booted 1024 []) (.spawnUser [0xEB, 0xFE] 0) = some k ∧
    k.Used c ∧ c ≠ 0 ∧ ∀ p q a, k.Holds p a → k.Holds q a → p = q := by
  obtain ⟨k, c, h⟩ := booted_spawn
  exact ⟨k, c, h.step, h.used, h.ne_zero, (frame_isolation h.reach).2.1⟩

/-- A thread that has not exited runs on the page tables of its process, and they are in use. -/
theorem live_thread_tables (h : Reach step Admissible (BootedFrames boot top) k) {t i : ℕ}
    (hproc : (k.sched.threads t).proc = some i) (hlive : k.sched.state t ≠ .exited) :
    k.Used i ∧ (k.procs i).state ≠ .zombie ∧ (k.procs i).thread = some t ∧
    (k.sched.threads t).cr3 = (k.procs i).space.cr3 ∧
    ∀ path a, UserPlaces path → path.length ≤ 3 →
      walk k.phys.ram (k.procs i).space.cr3 path = some a → k.phys.used (a / pageSize) = true := by
  obtain ⟨⟨l, hs⟩, hf⟩ := reach_frames h
  obtain ⟨n, hn, hz, ht⟩ := hs.threads.owner t i hproc hlive
  obtain ⟨t', -, ht', -, hcr3⟩ := hs.threads.thread i n hn hz
  obtain ⟨hi, hu, rfl⟩ := sys_eq_some hn
  cases Option.some.inj (ht.symm.trans ht')
  refine ⟨⟨hi, hu⟩, hz, ht, hcr3, fun path a hp hlen hw => ?_⟩
  exact @FramesInv.used boot top k a (.table i path) hf ⟨⟨hi, hu⟩, hp, hlen, hw⟩

theorem live_thread_tables_spawned : ∃ k c,
    step (booted 1024 []) (.spawnUser [0xEB, 0xFE] 0) = some k ∧
    (k.sched.threads 2).proc = some c ∧ (k.procs c).thread = some 2 := by
  obtain ⟨k, c, h⟩ := booted_spawn
  exact ⟨k, c, h.step, h.thread, (live_thread_tables h.reach h.thread h.state).2.2.1⟩

end Results

end VoidOS.Proc
