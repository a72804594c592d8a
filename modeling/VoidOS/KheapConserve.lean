import VoidOS.KheapRuns

namespace VoidOS.Kheap

open Transition

/-- The ranges `rs` partition the bytes from `lo` to `hi`. -/
structure Tiled (lo hi : ℕ) (rs : List (ℕ × ℕ)) : Prop where
  apart : rs.Pairwise Apart
  inside : ∀ r ∈ rs, lo ≤ r.1 ∧ r.1 < r.2 ∧ r.2 ≤ hi
  cover : ∀ a, lo ≤ a → a < hi → ∃ r ∈ rs, r.1 ≤ a ∧ a < r.2

section Tiled

variable {lo hi hi' x y z : ℕ} {rs rs' : List (ℕ × ℕ)}

theorem Tiled.perm (h : Tiled lo hi rs) (hp : rs.Perm rs') : Tiled lo hi rs' := by
  refine ⟨(hp.pairwise_iff fun h => Apart.symm h).mp h.apart, ?_, ?_⟩
  · intro r hr
    exact h.inside r (hp.mem_iff.mpr hr)
  · intro a hlo hhi
    obtain ⟨r, hr, ha⟩ := h.cover a hlo hhi
    exact ⟨r, hp.mem_iff.mp hr, ha⟩

theorem Tiled.split (h : Tiled lo hi ((x, z) :: rs)) (hxy : x < y) (hyz : y < z) :
    Tiled lo hi ((x, y) :: (y, z) :: rs) := by
  obtain ⟨hhead, hrest⟩ := List.pairwise_cons.mp h.apart
  have hin := h.inside (x, z) List.mem_cons_self
  refine ⟨?_, ?_, ?_⟩
  · rw [List.pairwise_cons, List.pairwise_cons]
    refine ⟨?_, ?_, hrest⟩
    · intro r hr
      rcases List.mem_cons.mp hr with rfl | hr
      · exact Or.inl le_rfl
      · exact (hhead r hr).sub le_rfl hyz.le
    · intro r hr
      exact (hhead r hr).sub hxy.le le_rfl
  · intro r hr
    rcases List.mem_cons.mp hr with rfl | hr
    · exact ⟨hin.1, hxy, hyz.le.trans hin.2.2⟩
    rcases List.mem_cons.mp hr with rfl | hr
    · exact ⟨hin.1.trans hxy.le, hyz, hin.2.2⟩
    · exact h.inside r (List.mem_cons_of_mem _ hr)
  · intro a hlo hhi
    obtain ⟨r, hr, ha⟩ := h.cover a hlo hhi
    rcases List.mem_cons.mp hr with rfl | hr
    · by_cases hay : a < y
      · exact ⟨(x, y), by simp, ha.1, hay⟩
      · exact ⟨(y, z), by simp, Nat.not_lt.mp hay, ha.2⟩
    · exact ⟨r, by simp [hr], ha⟩

theorem Tiled.widen (h : Tiled lo hi ((x, hi) :: rs)) (hle : hi ≤ hi') :
    Tiled lo hi' ((x, hi') :: rs) := by
  obtain ⟨hhead, hrest⟩ := List.pairwise_cons.mp h.apart
  have hin := h.inside (x, hi) List.mem_cons_self
  refine ⟨?_, ?_, ?_⟩
  · rw [List.pairwise_cons]
    refine ⟨fun r hr => ?_, hrest⟩
    have hr' := h.inside r (List.mem_cons_of_mem _ hr)
    have hap := hhead r hr
    unfold Apart at *
    dsimp only at *
    omega
  · intro r hr
    rcases List.mem_cons.mp hr with rfl | hr
    · exact ⟨hin.1, hin.2.1.trans_le hle, le_rfl⟩
    · have := h.inside r (List.mem_cons_of_mem _ hr)
      omega
  · intro a hlo hhi
    by_cases ha : a < hi
    · obtain ⟨r, hr, har⟩ := h.cover a hlo ha
      rcases List.mem_cons.mp hr with rfl | hr
      · exact ⟨(x, hi'), by simp, har.1, hhi⟩
      · exact ⟨r, by simp [hr], har⟩
    · exact ⟨(x, hi'), by simp, by have := hin.2.1; dsimp only at *; omega, hhi⟩

theorem Tiled.extend (h : Tiled lo hi rs) (hlo : lo ≤ hi) (hlt : hi < hi') :
    Tiled lo hi' ((hi, hi') :: rs) := by
  refine ⟨?_, ?_, ?_⟩
  · rw [List.pairwise_cons]
    exact ⟨fun r hr => Or.inr (h.inside r hr).2.2, h.apart⟩
  · intro r hr
    rcases List.mem_cons.mp hr with rfl | hr
    · exact ⟨hlo, hlt, le_rfl⟩
    · have := h.inside r hr
      omega
  · intro a h₁ h₂
    by_cases ha : a < hi
    · obtain ⟨r, hr, har⟩ := h.cover a h₁ ha
      exact ⟨r, List.mem_cons_of_mem _ hr, har⟩
    · exact ⟨(hi, hi'), List.mem_cons_self, Nat.not_lt.mp ha, h₂⟩

end Tiled

/-- The bytes of a block that is handed out, by its header. -/
def Heap.extent (h : Heap) (i : Issued) : ℕ × ℕ := (i.addr, i.addr + headerSize + h.size i.addr)

/-- The free list `fl` and the live blocks, as ranges. -/
def State.parts (s : State) (fl : List Block) : List (ℕ × ℕ) :=
  fl.map Block.range ++ (s.issued.filter Issued.live).map s.heap.extent

/-- The mapped bytes are those of the live blocks and of the blocks on the free list, with their
headers, each in one of them. -/
def Conserved (s : State) : Prop :=
  ∃ fl : List Block, Seg s.heap.mem s.heap.head fl 0 ∧ (∀ b ∈ fl, s.heap.size b.1 = b.2) ∧
    Tiled kheapStart s.heap.heapTop (s.parts fl)

/-- The growth of a call gets all its `n` pages or none. -/
def WholeGrowth (f : Frames) (n : ℕ) : Prop := f.maps 0 = false ∨ ∀ i < n, f.maps i = true

/-- The condition under which a call conserves the heap. A call that grows the heap gets all its
pages or none, and does not take a fresh block whole, whose size word is never stored; `kfree`
conserves it only when it does nothing. -/
def Keeps (s : State) : Op → Prop
  | .kmalloc size f =>
    Good s (.kmalloc size f) ∧
      (firstFit s.heap (alignUp size 16) s.heap.fuel .head = some none →
        (tailMeets s.heap = false → padding (alignUp size 16) ≠ 32) ∧
        WholeGrowth f ((headerSize + alignUp size 16 + 4095) / 4096))
  | .kfree ptr => s.heap.free (ptr - headerSize) = true
  | .store _ _ => True

section Conserve

variable {s s₁ s' : State} {h' : Heap} {fl l₁ l₂ mid : List Block} {b : Block} {size a : ℕ}
  {f : Frames} {op : Op}

theorem growLoop_all {i n : ℕ} {h : Heap} (hm : ∀ j < n, f.maps (i + j) = true) :
    (growLoop f i n h).2 = true := by
  induction n generalizing i h with
  | zero => rfl
  | succ n ih =>
    rw [growLoop, if_pos (by simpa using hm 0 (by omega))]
    apply ih
    intro j hj
    have := hm (j + 1) (by omega)
    rwa [show i + 1 + j = i + (j + 1) by omega]

theorem heapGrow_none {h : Heap} {need : ℕ} (hal : h.heapTop % pageSize = 0)
    (hwrap : h.heapTop + need + pageSize ≤ 2 ^ 64) (h0 : 0 < need)
    (hw : WholeGrowth f ((need + 4095) / 4096)) (he : heapGrow h f need = (h', false)) : h' = h := by
  unfold pageSize at hal hwrap
  have htarget : alignUp ((h.heapTop + need) % 2 ^ 64) pageSize =
      h.heapTop + (need + 4095) / 4096 * 4096 := by
    unfold alignUp pageSize
    omega
  have hn : (h.heapTop + (need + 4095) / 4096 * 4096 - h.heapTop + (pageSize - 1)) / pageSize =
      (need + 4095) / 4096 := by
    unfold pageSize
    omega
  unfold heapGrow at he
  simp only [htarget] at he
  split at he
  · cases he
    rfl
  · rw [hn] at he
    rcases hw with hw | hw
    · obtain ⟨n, hn⟩ := Nat.exists_eq_succ_of_ne_zero (by omega : (need + 4095) / 4096 ≠ 0)
      rw [hn, growLoop, if_neg (by rw [hw]; exact Bool.false_ne_true)] at he
      cases he
      rfl
    · have := growLoop_all (h := h) (i := 0) (fun j hj => by rw [Nat.zero_add]; exact hw j hj)
      rw [he] at this
      cases this

theorem parts_perm : (s.parts (l₁ ++ b :: l₂)).Perm (b.range :: s.parts (l₁ ++ l₂)) := by
  unfold State.parts
  rw [List.map_append, List.map_cons, List.map_append, List.append_assoc, List.append_assoc,
    List.cons_append]
  exact List.perm_middle

theorem parts_taken (ht : Taken s h' b a mid) (hsize : mid = [] → s.heap.size b.1 = b.2)
    (hpart : Tiled kheapStart s.heap.heapTop (s.parts (l₁ ++ b :: l₂))) :
    Tiled kheapStart h'.heapTop
      (State.parts ⟨h', ⟨b.1, size, true⟩ :: s.issued⟩ (l₁ ++ (mid ++ l₂))) := by
  have hext : ((s.issued.filter Issued.live).map h'.extent) =
      (s.issued.filter Issued.live).map s.heap.extent := by
    apply List.map_congr_left
    intro i hi
    rw [Heap.extent, Heap.extent, ht.sizes i (List.mem_filter.mp hi).1]
  have hparts : ∀ l, State.parts ⟨h', ⟨b.1, size, true⟩ :: s.issued⟩ l =
      l.map Block.range ++ (b.1, b.1 + headerSize + h'.size b.1) ::
        (s.issued.filter Issued.live).map s.heap.extent := by
    intro l
    rw [← hext]
    rfl
  have hb := hpart.perm parts_perm
  rw [ht.top, hparts]
  refine Tiled.perm ?_ (List.perm_middle.symm)
  rcases ht.rest with ⟨rfl, hs, -⟩ | ⟨hs, r, rfl, hr⟩
  · rw [hs, hsize rfl]
    exact hb
  · have hcut := hb.split (y := b.1 + headerSize + a) (by unfold headerSize; omega)
      (by unfold headerSize at *; omega)
    have hend : b.1 + headerSize + b.2 = b.1 + headerSize + a + headerSize + r := by omega
    rw [hend] at hcut
    rw [hs]
    refine hcut.perm (List.Perm.cons _ ?_)
    exact (@parts_perm s l₁ l₂ (b.1 + headerSize + a, r)).symm

theorem parts_fresh (hf : Fresh s s₁ fl l₁ b a) (hlo : kheapStart ≤ s.heap.heapTop)
    (hpart : Tiled kheapStart s.heap.heapTop (s.parts fl)) :
    Tiled kheapStart s₁.heap.heapTop (s₁.parts (l₁ ++ [b])) := by
  obtain ⟨hiss, hsizes, hend, hcase⟩ := hf
  have hparts : ∀ l, s₁.parts l = s.parts l := by
    intro l
    unfold State.parts
    rw [hiss]
    congr 1
    apply List.map_congr_left
    intro i hi
    rw [Heap.extent, Heap.extent, hsizes i (List.mem_filter.mp hi).1]
  rw [hparts]
  refine Tiled.perm ?_ parts_perm.symm
  rw [List.append_nil]
  rcases hcase with ⟨rfl, hb, -, -⟩ | ⟨-, n, hle, rfl, hn⟩
  · rw [Block.range, hend, hb]
    exact hpart.extend hlo (by unfold headerSize at hend; omega)
  · have hold := hpart.perm parts_perm
    rw [List.append_nil, Block.range] at hold
    dsimp only at hold
    rw [hn] at hold
    rw [Block.range, hend]
    exact hold.widen (by omega)

/-- The free list together with the parts: what every step that meets the condition keeps. -/
def Balanced (s : State) : Prop :=
  ∃ fl, Inv s fl ∧ Tiled kheapStart s.heap.heapTop (s.parts fl)

theorem Balanced.conserved (h : Balanced s) : Conserved s := by
  obtain ⟨fl, hinv, hpart⟩ := h
  exact ⟨fl, hinv.seg, fun b hb => (hinv.headers b hb).1, hpart⟩

theorem kmalloc_balanced (hb : Balanced s) (h0 : 0 < size) (h1 : size < 2 ^ 63)
    (hk : Keeps s (.kmalloc size f)) (hs : step s (.kmalloc size f) = some s') : Balanced s' := by
  obtain ⟨fl, hinv, hpart⟩ := hb
  obtain ⟨hgood, hgrow⟩ := hk
  obtain ⟨ha1, ha2, ha3, ha4⟩ := alignUp_spec h0 h1
  have hwrap : firstFit s.heap (alignUp size 16) s.heap.fuel .head = some none →
      s.heap.heapTop + (headerSize + alignUp size 16) + pageSize ≤ 2 ^ 64 ∧
        (tailMeets s.heap = false → padding (alignUp size 16) ≠ 0 ∧
          padding (alignUp size 16) ≠ 16) := by
    intro hscan
    rw [good_kmalloc, hscan] at hgood
    exact ⟨by have := hgood.1; omega, fun ht => ⟨(hgood.2 ht).1, (hgood.2 ht).2.1⟩⟩
  rcases kmalloc_inv hinv h0 h1 hgood with
    ⟨h', he, -, hscan, hno⟩ | ⟨s₁, h', l₁, b, l₂, mid, he, htaken, hinv', hcase⟩
  · -- no pages: nothing has changed
    have hsame := heapGrow_none hinv.top_aligned (hwrap hscan).1 (by omega) (hgrow hscan).2 hno
    simp only [step, he] at hs
    cases hs
    rw [hsame]
    exact ⟨fl, hinv, hpart⟩
  · simp only [step, he] at hs
    cases hs
    rw [if_neg (by unfold headerSize; omega), Nat.add_sub_cancel]
    refine ⟨_, hinv', ?_⟩
    rcases hcase with ⟨rfl, rfl⟩ | ⟨rfl, hfresh, hscan⟩
    · exact parts_taken htaken (fun _ => (hinv.headers b (by simp)).1) hpart
    · have hlo := hinv.top_lo
      have hpart' := parts_fresh hfresh (by omega) hpart
      obtain ⟨hiss, -, -, hwhere⟩ := hfresh
      rw [← hiss]
      refine parts_taken htaken ?_ hpart'
      intro hmid
      rcases hwhere with ⟨-, -, hb2, hmeets⟩ | ⟨hsize, -⟩
      · -- a fresh block is not taken whole
        obtain ⟨hp0, hp16⟩ := (hwrap hscan).2 hmeets
        have hp32 := (hgrow hscan).1 hmeets
        rcases htaken.rest with ⟨-, -, hlt⟩ | ⟨-, r, hr, -⟩
        · unfold padding headerSize pageSize at *
          omega
        · rw [hmid] at hr
          cases hr
      · exact hsize

theorem kfree_balanced {i : Issued} (hb : Balanced s) (hi : i ∈ s.issued)
    (hk : s.heap.free (i.ptr - headerSize) = true) (hs : step s (.kfree i.ptr) = some s') :
    Balanced s' := by
  obtain ⟨fl, hinv, hpart⟩ := hb
  have hfree : s.heap.free i.addr = true := by
    rwa [Issued.ptr, Nat.add_sub_cancel] at hk
  have hsub : sub64 i.ptr headerSize = i.addr := by
    have hmax := hinv.top_hi
    have hr := hinv.issued_range hi
    have hend := (hinv.issued i hi).2.2.2.2
    unfold sub64 Issued.ptr headerSize kheapMax at *
    omega
  have hnop : kfree s.heap i.ptr = some s.heap := by
    rw [kfree, hsub, if_pos hfree, ite_self]
  simp only [step, hnop] at hs
  cases hs
  -- blocks with this address are dead already
  have hsame : (s.issued.map fun j => if j.ptr = i.ptr then { j with live := false } else j) =
      s.issued := by
    conv_rhs => rw [← List.map_id s.issued]
    apply List.map_congr_left
    intro j hj
    split
    · rename_i hp
      have hja : j.addr = i.addr := by
        unfold Issued.ptr at hp
        omega
      have hdead : j.live = false := by
        have := hinv.mark j hj
        rw [hja, hfree] at this
        simpa using this.symm
      rw [← hdead]
      rfl
    · rfl
  rw [hsame]
  exact ⟨fl, hinv, hpart⟩

theorem store_balanced {v : ℕ} (hb : Balanced s) (hl : Legal s (.store a v))
    (hs : step s (.store a v) = some s') : Balanced s' := by
  obtain ⟨fl, hinv, hpart⟩ := hb
  obtain ⟨i, hi, -, h₁, h₂⟩ := hl
  cases hs
  refine ⟨fl, store_inv hinv hi v h₁ h₂, ?_⟩
  have hsizes : ∀ j ∈ s.issued, Function.update s.heap.mem a v j.addr = s.heap.mem j.addr := by
    intro j hj
    apply Function.update_of_ne
    obtain ⟨-, h0, hlt, -, -⟩ := hinv.issued i hi
    have hsz := alignUp_spec h0 hlt
    have hir : i.range.2 = i.addr + headerSize + alignUp i.size 16 := rfl
    by_cases hne : i.addr = j.addr
    · unfold Issued.ptr headerSize at *
      omega
    · have hap := hinv.issued_apart hi hj hne
      have hr := hinv.issued_range hj
      unfold Issued.ptr headerSize at *
      omega
  have hext : (s.issued.filter Issued.live).map
      (Heap.extent { s.heap with mem := Function.update s.heap.mem a v }) =
      (s.issued.filter Issued.live).map s.heap.extent := by
    apply List.map_congr_left
    intro j hj
    have := hsizes j (List.mem_filter.mp hj).1
    unfold Heap.extent Heap.size
    dsimp only
    rw [this]
  unfold State.parts
  dsimp only
  rw [hext]
  exact hpart

theorem step_balanced (hb : Balanced s) (hok : Legal s op ∧ Keeps s op)
    (hs : step s op = some s') : Balanced s' := by
  obtain ⟨hl, hk⟩ := hok
  cases op with
  | kmalloc size f => exact kmalloc_balanced hb hl.1 hl.2 hk hs
  | kfree ptr =>
    obtain ⟨i, hi, rfl⟩ := hl
    exact kfree_balanced hb hi hk hs
  | store a v => exact store_balanced hb hl hs

theorem Init.balanced (h0 : Init s) : Balanced s := by
  obtain ⟨mem, f, he, hiss⟩ := h0
  have hinv := kheapInit_inv he
  have hs : s = ⟨s.heap, []⟩ := by rw [← hiss]
  rw [hs]
  refine ⟨_, hinv, ?_⟩
  have hend : s.heap.heapTop = kheapStart + pageSize := by
    unfold kheapInit at he
    have hspec := heapGrow_spec (h := ⟨mem, 0, kheapStart, 0, 0, []⟩) (f := f)
      (by decide : kheapStart % pageSize = 0) (by decide : kheapStart ≤ kheapMax)
      (by decide : kheapStart + pageSize + pageSize ≤ 2 ^ 64)
    split at he
    · cases he
    · rename_i h₁ hgrow
      rw [hgrow] at hspec
      have htop := hspec.2.2 rfl
      injection he with he
      rw [← he]
      exact htop
  have htiled : Tiled kheapStart (kheapStart + pageSize) [(kheapStart, kheapStart + pageSize)] := by
    refine ⟨List.pairwise_singleton _ _, ?_, ?_⟩
    · intro r hr
      rw [List.mem_singleton.mp hr]
      exact ⟨le_rfl, by decide, le_rfl⟩
    · intro a hlo hhi
      exact ⟨_, List.mem_singleton.mpr rfl, hlo, hhi⟩
  rw [hend]
  exact htiled

end Conserve

/-- In every run from `kheap_init` whose calls all meet the condition, the live blocks and the
free list partition the mapped bytes. -/
theorem conserved_of_keeps {s : State} (h : Reach step (fun s a => Legal s a ∧ Keeps s a) Init s) :
    Conserved s :=
  (h.invariant (P := Balanced) (fun _ h0 => h0.balanced)
    fun _ _ _ hb hok hs => step_balanced hb hok hs).conserved

instance (s : State) (op : Op) : Decidable (Legal s op) := by
  cases op <;> unfold Legal <;> infer_instance

instance (h : Heap) (size : ℕ) (f : Frames) (r : Option (Option Link)) :
    Decidable (NoNearMiss h size f r) := by
  rcases r with _ | _ | scan <;> unfold NoNearMiss <;> infer_instance

instance (f : Frames) (n : ℕ) : Decidable (WholeGrowth f n) := by
  unfold WholeGrowth
  infer_instance

instance (s : State) (op : Op) : Decidable (Good s op) := by
  cases op <;> unfold Good <;> dsimp only <;> infer_instance

instance (s : State) (op : Op) : Decidable (Keeps s op) := by
  cases op <;> unfold Keeps <;> dsimp only <;> infer_instance

/-- A first request of 100 bytes, a store into it, and a request that grows the heap. -/
theorem boot_grow_conserved :
    ∃ s, runIf step (fun s op => Legal s op ∧ Keeps s op) bootState
        [.kmalloc 100 zeroFrames, .store (kheapStart + 32) 7, .kmalloc 5000 zeroFrames] = some s ∧
      s.issued.length = 2 ∧ Conserved s := by
  have hrun : (runIf step (fun s op => Legal s op ∧ Keeps s op) bootState
      [.kmalloc 100 zeroFrames, .store (kheapStart + 32) 7, .kmalloc 5000 zeroFrames]).map
      (·.issued.length) = some 2 := by
    decide +kernel
  obtain ⟨s, hs, hlen⟩ := Option.map_eq_some_iff.mp hrun
  exact ⟨s, hs, hlen, conserved_of_keeps ((Reach.init bootState_init).runIf hs)⟩

/-- The first block that is freed is lost: its bytes are in no part of the heap. -/
theorem boot_kfree_lost :
    ∃ s, runIf step Legal bootState [.kmalloc 16 zeroFrames, .kfree (kheapStart + 32)] = some s ∧
      ¬ Conserved s := by
  have hrun : (runIf step Legal bootState
      [.kmalloc 16 zeroFrames, .kfree (kheapStart + 32)]).map (fun s =>
        (s.heap.head, s.heap.next s.heap.head, s.heap.heapTop, (s.issued.filter Issued.live).length)) =
      some (kheapStart + 48, 0, kheapStart + 4096, 0) := by
    decide +kernel
  obtain ⟨s, hs, hval⟩ := Option.map_eq_some_iff.mp hrun
  injection hval with hhead hval
  injection hval with hnext hval
  injection hval with htop hlive
  refine ⟨s, hs, ?_⟩
  rintro ⟨fl, hseg, -, htiled⟩
  obtain ⟨r, hr, hra, har⟩ := htiled.cover kheapStart le_rfl (by rw [htop]; decide)
  unfold State.parts at hr
  rw [List.length_eq_zero_iff.mp hlive, List.map_nil, List.append_nil] at hr
  obtain ⟨b, hb, rfl⟩ := List.mem_map.mp hr
  -- the only block of the list starts after the lost one
  cases fl with
  | nil => cases hb
  | cons c l =>
    obtain ⟨hc, -, hrest⟩ := hseg
    have hnil : l = [] := by
      cases l with
      | nil => rfl
      | cons d l =>
        rw [← hc] at hrest
        exact absurd (hrest.1.symm.trans hnext) hrest.2.1
    rw [hnil] at hb
    rw [List.mem_singleton.mp hb, Block.range, ← hc, hhead] at hra
    omega

end VoidOS.Kheap
