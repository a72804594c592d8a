import VoidOS.KheapAlloc

namespace VoidOS.Kheap

open Transition

section Coalesce

variable {s : State} {b c : Block} {l l₁ l₂ : List Block} {q : ℕ}

/-- Neighbours of the list are neighbours in memory. -/
def Adjacent : List Block → Prop
  | b :: c :: l => b.1 + headerSize + b.2 = c.1 ∧ Adjacent (c :: l)
  | _ => True

theorem Hole.fill (h : Hole s l₁ b l₂ q) (hlink : s.heap.link (lastLink l₁) = b.1)
    (hsize : s.heap.mem b.1 = b.2) (hfree : s.heap.mem (b.1 + 8) ≠ 0)
    (hnext : s.heap.mem (b.1 + 16) = q) : Inv s (l₁ ++ b :: l₂) := by
  have hb := (h.block b (by simp)).2.2.2.1
  refine ⟨h.toLayout, ?_, ?_⟩
  · refine seg_append.mpr ⟨_, h.before, hlink, ?_, hnext ▸ h.after⟩
    unfold kheapStart at hb
    omega
  · intro c hc
    by_cases hcb : c = b
    · rw [hcb]
      exact ⟨hsize, hfree⟩
    · apply h.headers c
      simp only [List.mem_append, List.mem_cons] at hc ⊢
      tauto

theorem Layout.merge (h : Layout s (b :: c :: l)) (hadj : b.1 + headerSize + b.2 = c.1) :
    Layout s ((b.1, b.2 + (headerSize + c.2)) :: l) := by
  have hb := h.block b (by simp)
  have hc := h.block c (by simp)
  have hpair := h.apart
  rw [List.map_cons, List.map_cons, List.cons_append, List.cons_append, List.pairwise_cons,
    List.pairwise_cons] at hpair
  obtain ⟨hb', hc', hrest⟩ := hpair
  have hne : ∀ r ∈ l.map Block.range ++ s.issued.map Issued.range, r.1 < r.2 := by
    intro r hr
    rcases List.mem_append.mp hr with hr | hr
    · obtain ⟨d, -, rfl⟩ := List.mem_map.mp hr
      unfold Block.range headerSize
      dsimp only
      omega
    · obtain ⟨i, hi, rfl⟩ := List.mem_map.mp hr
      have := h.issued_range hi
      unfold Issued.range headerSize at *
      dsimp only at *
      omega
  refine ⟨h.written, h.top_lo, h.top_hi, h.top_aligned, fun d hd => ?_, h.issued, h.mark, ?_⟩
  · rcases List.mem_cons.mp hd with rfl | hd
    · dsimp only
      unfold headerSize at *
      omega
    · exact h.block d (by simp [hd])
  · rw [List.map_cons, List.cons_append, List.pairwise_cons]
    refine ⟨fun r hr => ?_, hrest⟩
    have h₁ := hb' r (List.mem_cons_of_mem _ hr)
    have h₂ := hc' r hr
    have h₃ := hne r hr
    unfold Apart Block.range at *
    dsimp only at *
    omega

/-- The stores that merge a block with its successor. -/
def merged (h : Heap) (b v q : ℕ) : Heap := (h.setSize b v).setNext b q

theorem merged_mem (h : Heap) (b v q a : ℕ) :
    (merged h b v q).mem a = if a = b + 16 then q else if a = b then v else h.mem a := by
  simp only [merged, Heap.setNext_mem, Heap.setSize_mem]

theorem Inv.merge (h : Inv s (b :: c :: l)) (hadj : b.1 + headerSize + b.2 = c.1) :
    Inv ⟨merged s.heap b.1 (b.2 + (headerSize + c.2)) (s.heap.next c.1), s.issued⟩
      ((b.1, b.2 + (headerSize + c.2)) :: l) := by
  obtain ⟨hhead, hb0, -, hc0, hseg⟩ := h.seg
  obtain ⟨hsize, hfree⟩ := h.headers b (by simp)
  have hopen : Hole s [] (b.1, b.2 + (headerSize + c.2)) l (s.heap.next c.1) :=
    ⟨h.toLayout.merge hadj, rfl, hseg, fun d hd => h.headers d (by simp at hd; simp [hd])⟩
  have hframe : Hole ⟨merged s.heap b.1 (b.2 + (headerSize + c.2)) (s.heap.next c.1), s.issued⟩ []
      (b.1, b.2 + (headerSize + c.2)) l (s.heap.next c.1) := by
    apply hopen.frame
    · rfl
    · intro a ha
      simp only [merged, Heap.setNext_written, Heap.setSize_written, List.mem_cons] at ha
      rcases ha with rfl | rfl | ha
      · dsimp only; omega
      · dsimp only; omega
      · exact Or.inr (Or.inr ha)
    · intro a ha _
      unfold headerSize at ha
      dsimp only at ha ⊢
      rw [merged_mem, if_neg (by omega), if_neg (by omega)]
    · intro _
      rfl
  apply hframe.fill
  · exact hhead
  · rw [merged_mem, if_neg (by dsimp only; omega), if_pos rfl]
  · rw [merged_mem, if_neg (by dsimp only; omega), if_neg (by dsimp only; omega)]
    exact hfree
  · rw [merged_mem, if_pos rfl]

theorem coalesceFrom_zero (n : ℕ) (h : Heap) : coalesceFrom n h 0 = some h := by
  cases n <;> simp [coalesceFrom]

theorem coalesceFrom_inv {n : ℕ} {h' : Heap} (h : Inv s (b :: l)) (hadj : Adjacent (b :: l))
    (he : coalesceFrom n s.heap b.1 = some h') :
    (∃ fl, Inv ⟨h', s.issued⟩ fl) ∧ ∀ i ∈ s.issued, h'.size i.addr = s.heap.size i.addr := by
  induction n generalizing s b l with
  | zero =>
    rw [coalesceFrom] at he
    split at he
    · cases he
    · cases he
      exact ⟨⟨_, h⟩, fun _ _ => rfl⟩
  | succ n ih =>
    obtain ⟨-, hb0, hseg⟩ := h.seg
    cases l with
    | nil =>
      have hnext : s.heap.next b.1 = 0 := hseg
      simp only [coalesceFrom, hnext] at he
      rw [if_neg (by simp)] at he
      cases he
      exact ⟨⟨_, h⟩, fun _ _ => rfl⟩
    | cons c l =>
      have hnext : s.heap.next b.1 = c.1 := hseg.1
      obtain ⟨hsb, hfb⟩ := h.headers b (by simp)
      obtain ⟨hsc, hfc⟩ := h.headers c (by simp)
      have hb := h.block b (by simp)
      have hc := h.block c (by simp)
      have htop := h.top_hi
      have hmod : (b.2 + (headerSize + c.2)) % 2 ^ 64 = b.2 + (headerSize + c.2) := by
        unfold kheapMax at htop
        have := hadj.1
        omega
      have hstep : coalesceFrom (n + 1) s.heap b.1 = coalesceFrom n
          (merged s.heap b.1 (b.2 + (headerSize + c.2)) (s.heap.next c.1)) b.1 := by
        have hn : ∀ v a, (s.heap.setSize b.1 v).next a = if a + 16 = b.1 then v else s.heap.next a :=
          fun v a => Heap.setSize_mem ..
        have hcb : c.1 + 16 ≠ b.1 := by
          have := hadj.1
          omega
        simp [coalesceFrom, hnext, hb0, hseg.2.1, Heap.free, hfb, hfc, Heap.size, hsb, hsc, hn, hcb,
          merged]
        rw [show (18446744073709551616 : ℕ) = 2 ^ 64 from rfl, hmod]
      rw [hstep] at he
      have hadj' : Adjacent ((b.1, b.2 + (headerSize + c.2)) :: l) := by
        cases l with
        | nil => trivial
        | cons d l =>
          refine ⟨?_, hadj.2.2⟩
          have h₁ := hadj.1
          have h₂ := hadj.2.1
          dsimp only
          omega
      obtain ⟨hrest, hsizes⟩ := ih (h.merge hadj.1) hadj' he
      refine ⟨hrest, fun i hi => (hsizes i hi).trans ?_⟩
      -- the words of a block on the list are no size words of issued blocks
      have hap := h.apart_issued (by simp : b ∈ b :: c :: l) hi
      have hr := h.issued_range hi
      dsimp only
      rw [Heap.size, merged_mem, if_neg (by unfold headerSize at *; omega),
        if_neg (by unfold headerSize at *; omega)]
      rfl

theorem coalesce_inv {fl : List Block} {h' : Heap} (h : Inv s fl) (hadj : Adjacent fl)
    (he : coalesce s.heap = some h') :
    (∃ fl, Inv ⟨h', s.issued⟩ fl) ∧ ∀ i ∈ s.issued, h'.size i.addr = s.heap.size i.addr := by
  unfold coalesce at he
  cases fl with
  | nil =>
    rw [show s.heap.head = 0 from h.seg, coalesceFrom_zero] at he
    cases he
    exact ⟨⟨[], h⟩, fun _ _ => rfl⟩
  | cons b l =>
    rw [show s.heap.head = b.1 from h.seg.1] at he
    exact coalesceFrom_inv h hadj he

theorem Inv.adjacent {s : State} {fl : List Block} (h : Inv s fl)
    (hc : contiguous s.heap s.heap.fuel s.heap.head = true) : Adjacent fl := by
  have hgen : ∀ (l : List Block) (n p : ℕ), Seg s.heap.mem p l 0 → Headers s.heap.mem l →
      l.length < n → contiguous s.heap n p = true → Adjacent l := by
    intro l
    induction l with
    | nil => intro _ _ _ _ _ _; trivial
    | cons b l ih =>
      intro n p hseg hhd hn hc
      obtain ⟨rfl, hb0, hseg⟩ := hseg
      cases l with
      | nil => trivial
      | cons c l =>
        obtain ⟨n, rfl⟩ := Nat.exists_eq_succ_of_ne_zero (by omega : n ≠ 0)
        have hnext : s.heap.next b.1 = c.1 := hseg.1
        have hsize : s.heap.size b.1 = b.2 := (hhd b (by simp)).1
        simp only [contiguous, hnext, hsize, hb0, hseg.2.1, decide_false,
          Bool.false_or, Bool.and_eq_true, decide_eq_true_eq] at hc
        refine ⟨hc.1, ih n c.1 (hnext ▸ hseg) (fun d hd => hhd d (List.mem_cons_of_mem _ hd)) ?_ hc.2⟩
        simp only [List.length_cons] at hn ⊢
        omega
  exact hgen fl _ _ h.seg h.headers h.length_lt_fuel hc

end Coalesce

section Calls

variable {s : State} {fl : List Block} {i : Issued} {ptr : ℕ}

/-- Storing to the mark or to the payload of an issued block keeps the list. -/
theorem Inv.update (h : Inv s fl) (hi : i ∈ s.issued) {a : ℕ} {h' : Heap} {g : Issued → Issued}
    (ha : a = i.addr + 8 ∨ i.addr + headerSize ≤ a ∧ a < i.range.2)
    (hmem : ∀ x, x ≠ a → h'.mem x = s.heap.mem x) (hhead : h'.head = s.heap.head)
    (htop : h'.heapTop = s.heap.heapTop)
    (hwritten : ∀ x ∈ h'.written, x = i.addr ∨ x ∈ s.heap.written)
    (hg : ∀ j, (g j).addr = j.addr ∧ (g j).size = j.size)
    (hmark : ∀ j ∈ s.issued, h'.free j.addr = !(g j).live) : Inv ⟨h', s.issued.map g⟩ fl := by
  have hend := h.issued_range hi
  obtain ⟨hi1, -, -, hi4, hi5⟩ := h.issued i hi
  have hrange : ∀ j, (g j).range = j.range := by
    intro j
    unfold Issued.range
    rw [(hg j).1, (hg j).2]
  have hout : ∀ b ∈ fl, ∀ k, k = 0 ∨ k = 8 ∨ k = 16 → h'.mem (b.1 + k) = s.heap.mem (b.1 + k) := by
    intro b hb k hk
    apply hmem
    have hap := h.apart_issued hb hi
    have hb1 := h.block b hb
    unfold headerSize at *
    omega
  refine ⟨⟨?_, htop ▸ h.top_lo, htop ▸ h.top_hi, htop ▸ h.top_aligned, ?_, ?_, ?_, ?_⟩, ?_, ?_⟩
  · intro x hx
    show kheapStart ≤ x ∧ x + headerSize ≤ h'.heapTop
    rw [htop]
    rcases hwritten x hx with rfl | hx
    · omega
    · exact h.written x hx
  · intro b hb
    show _ ∧ _ ∧ _ ∧ _ ∧ _ ≤ h'.heapTop
    rw [htop]
    exact h.block b hb
  · intro j' hj'
    obtain ⟨j, hj, rfl⟩ := List.mem_map.mp hj'
    show _ ∧ _ ∧ _ ∧ _ ∧ _ ≤ h'.heapTop
    rw [htop, hrange, (hg j).1, (hg j).2]
    exact h.issued j hj
  · intro j' hj'
    obtain ⟨j, hj, rfl⟩ := List.mem_map.mp hj'
    rw [(hg j).1]
    exact hmark j hj
  · have hmap : (s.issued.map g).map Issued.range = s.issued.map Issued.range := by
      rw [List.map_map]
      exact List.map_congr_left fun j _ => hrange j
    show (fl.map Block.range ++ (s.issued.map g).map Issued.range).Pairwise Apart
    rw [hmap]
    exact h.apart
  · show Seg h'.mem h'.head fl 0
    rw [hhead]
    exact h.seg.congr fun b hb => hout b hb 16 (by omega)
  · intro b hb
    have h0 := hout b hb 0 (by omega)
    have h8 := hout b hb 8 (by omega)
    rw [Nat.add_zero] at h0
    show h'.mem b.1 = b.2 ∧ h'.mem (b.1 + 8) ≠ 0
    rw [h0, h8]
    exact h.headers b hb

theorem Layout.issued_apart (h : Layout s fl) {i j : Issued} (hi : i ∈ s.issued)
    (hj : j ∈ s.issued) (hne : i.addr ≠ j.addr) : i.range.2 ≤ j.addr ∨ j.range.2 ≤ i.addr := by
  have hp := (List.pairwise_append.mp h.apart).2.1
  refine hp.forall (List.mem_map_of_mem hi) (List.mem_map_of_mem hj) fun he => ?_
  exact hne (Prod.ext_iff.mp he).1

theorem store_inv (h : Inv s fl) (hi : i ∈ s.issued) {a : ℕ} (v : ℕ) (h₁ : i.ptr ≤ a)
    (h₂ : a + 8 ≤ i.ptr + i.size) :
    Inv ⟨{ s.heap with mem := Function.update s.heap.mem a v }, s.issued⟩ fl := by
  obtain ⟨-, hi2, hi3, -, -⟩ := h.issued i hi
  have hsz := alignUp_spec hi2 hi3
  have ha : i.addr + headerSize ≤ a ∧ a < i.range.2 := by
    unfold Issued.range
    unfold Issued.ptr at h₁ h₂
    dsimp only
    omega
  have hmem : ∀ x, x ≠ a → Function.update s.heap.mem a v x = s.heap.mem x :=
    fun x hx => Function.update_of_ne hx _ _
  rw [← List.map_id s.issued]
  apply h.update hi (Or.inr ha)
  · exact hmem
  · rfl
  · rfl
  · intro x hx
    exact Or.inr hx
  · intro j
    exact ⟨rfl, rfl⟩
  · intro j hj
    have hja : j.addr + 8 ≠ a := by
      by_cases hne : i.addr = j.addr
      · unfold headerSize at ha
        omega
      · have := h.issued_apart hi hj hne
        have hr := h.issued_range hj
        unfold headerSize at *
        omega
    show decide (Function.update s.heap.mem a v (j.addr + 8) ≠ 0) = !j.live
    rw [hmem _ hja]
    exact h.mark j hj

/-- `kfree` marks an issued block and merges the list, whose blocks must be adjacent. -/
theorem kfree_inv (h : Inv s fl) (hi : i ∈ s.issued) {h' : Heap}
    (hg : s.heap.free (i.ptr - headerSize) = true ∨
      contiguous s.heap s.heap.fuel s.heap.head = true)
    (he : kfree s.heap i.ptr = some h') :
    (∃ fl, Inv ⟨h', s.issued.map fun j => if j.ptr = i.ptr then { j with live := false } else j⟩ fl) ∧
      ∀ j ∈ s.issued, h'.size j.addr = s.heap.size j.addr := by
  obtain ⟨hi1, -, -, hi4, hi5⟩ := h.issued i hi
  have hend := h.issued_range hi
  have htop := h.top_hi
  have hb : sub64 i.ptr headerSize = i.addr := by
    unfold sub64 Issued.ptr headerSize kheapMax kheapStart at *
    omega
  have hptr : ∀ j : Issued, j.ptr = i.ptr ↔ j.addr = i.addr := by
    intro j
    unfold Issued.ptr
    omega
  have hpos : i.ptr ≠ 0 := by
    unfold Issued.ptr headerSize
    omega
  have hsame : ∀ j : Issued, (if j.ptr = i.ptr then { j with live := false } else j).addr = j.addr ∧
      (if j.ptr = i.ptr then { j with live := false } else j).size = j.size := by
    intro j
    split <;> exact ⟨rfl, rfl⟩
  unfold kfree at he
  rw [if_neg hpos, hb] at he
  by_cases hfree : s.heap.free i.addr = true
  · rw [if_pos hfree] at he
    cases he
    refine ⟨⟨fl, h.update hi (Or.inl rfl) (fun _ _ => rfl) rfl rfl (fun _ hx => Or.inr hx)
      hsame fun j hj => ?_⟩, fun _ _ => rfl⟩
    by_cases hji : j.addr = i.addr
    · rw [if_pos ((hptr j).mpr hji), hji, hfree]
      rfl
    · rw [if_neg fun hc => hji ((hptr j).mp hc)]
      exact h.mark j hj
  · rw [if_neg hfree] at he
    have hadj : Adjacent fl := by
      rcases hg with hg | hg
      · exact absurd hg (by rwa [Issued.ptr, Nat.add_sub_cancel])
      · exact h.adjacent hg
    set h₁ : Heap := { s.heap.setFree i.addr true with
      bytesUsed := sub64 (s.heap.setFree i.addr true).bytesUsed
        ((s.heap.setFree i.addr true).size i.addr) } with hh₁
    have hmem : ∀ x, h₁.mem x = if x = i.addr + 8 then 1 else s.heap.mem x := fun x =>
      Heap.setFree_mem ..
    have hmarked : Inv ⟨h₁, s.issued.map fun j =>
        if j.ptr = i.ptr then { j with live := false } else j⟩ fl := by
      apply h.update hi (Or.inl rfl)
      · intro x hx
        rw [hmem, if_neg hx]
      · rfl
      · rfl
      · intro x hx
        exact List.mem_cons.mp hx
      · exact hsame
      · intro j hj
        rw [Heap.free, hmem]
        by_cases hji : j.addr = i.addr
        · rw [if_pos ((hptr j).mpr hji), if_pos (by rw [hji])]
          rfl
        · rw [if_neg fun hc => hji ((hptr j).mp hc), if_neg (by omega)]
          exact h.mark j hj
    obtain ⟨hres, hsizes⟩ := coalesce_inv hmarked hadj he
    refine ⟨hres, fun j hj => ?_⟩
    have hj' := hsizes _ (List.mem_map_of_mem hj)
    rw [(hsame j).1] at hj'
    rw [hj', Heap.size, hmem, if_neg]
    · rfl
    · have := h.issued j hj
      omega

theorem kheapInit_inv {mem : ℕ → ℕ} {f : Frames} {h : Heap} (he : kheapInit mem f = some h) :
    Inv ⟨h, []⟩ [(kheapStart, pageSize - headerSize)] := by
  have hspec := heapGrow_spec (h := ⟨mem, 0, kheapStart, 0, 0, []⟩) (f := f)
    (by decide : kheapStart % pageSize = 0) (by decide : kheapStart ≤ kheapMax)
    (by decide : kheapStart + pageSize + pageSize ≤ 2 ^ 64)
  unfold kheapInit at he
  split at he
  · cases he
  · rename_i h' hgrow
    rw [hgrow] at hspec
    obtain ⟨hg, hmax, hok⟩ := hspec
    have htop : h'.heapTop = kheapStart + 4096 := hok rfl
    have hwritten : h'.written = [] := hg.written
    cases he
    refine ⟨⟨?_, ?_, hmax, ?_, ?_, ?_, ?_, ?_⟩, ?_, ?_⟩
    · intro a ha
      have ha' : a = kheapStart := by simpa [hwritten] using ha
      show kheapStart ≤ a ∧ a + headerSize ≤ h'.heapTop
      rw [ha', htop]
      decide
    · exact le_of_eq htop.symm
    · show h'.heapTop % pageSize = 0
      rw [htop]
      decide
    · intro b hb
      rw [List.mem_singleton.mp hb]
      show _ ∧ _ ∧ _ ∧ _ ∧ _ ≤ h'.heapTop
      rw [htop]
      decide
    · simp
    · simp
    · simp
    · refine ⟨rfl, by decide, ?_⟩
      show (Heap.setNext _ _ _).mem _ = 0
      rw [Heap.setNext_mem, if_pos rfl]
    · intro b hb
      rw [List.mem_singleton.mp hb]
      simp [Heap.setNext_mem, Heap.setFree_mem, Heap.setSize_mem]

theorem step_inv {s' : State} {a : Op} (h : ∃ fl, Inv s fl) (hok : Legal s a ∧ Good s a)
    (hs : step s a = some s') : ∃ fl, Inv s' fl := by
  obtain ⟨fl, h⟩ := h
  obtain ⟨hl, hg⟩ := hok
  cases a with
  | kmalloc size f =>
    rcases kmalloc_inv h hl.1 hl.2 hg with
      ⟨h', he, hinv, -⟩ | ⟨s₁, h', l₁, b, l₂, mid, he, -, hinv, -⟩
    · simp only [step, he] at hs
      cases hs
      exact ⟨fl, hinv⟩
    · simp only [step, he] at hs
      cases hs
      rw [if_neg (by unfold headerSize; omega), Nat.add_sub_cancel]
      exact ⟨_, hinv⟩
  | kfree ptr =>
    obtain ⟨i, hi, rfl⟩ := hl
    simp only [step] at hs
    split at hs
    · cases hs
    · rename_i h' he
      cases hs
      exact (kfree_inv h hi hg he).1
  | store a v =>
    obtain ⟨i, hi, -, h₁, h₂⟩ := hl
    cases hs
    exact ⟨fl, store_inv h hi v h₁ h₂⟩

/-- In every run from `kheap_init` whose calls all meet the condition the heap is safe. -/
theorem safe_of_good {s : State} (h : Reach step (fun s a => Legal s a ∧ Good s a) Init s) :
    Safe s := by
  have hinv : ∃ fl, Inv s fl := by
    apply h.invariant
    · rintro ⟨hp, iss⟩ ⟨mem, f, he, rfl⟩
      exact ⟨_, kheapInit_inv he⟩
    · intro s a s' hs hok hstep
      exact step_inv hs hok hstep
  obtain ⟨fl, hinv⟩ := hinv
  exact hinv.safe

end Calls

/-- Every page can be mapped, and new frames hold zeros. -/
def zeroFrames : Frames := ⟨fun _ => true, fun _ => 0⟩

/-- The heap after `kheap_init` over zeroed memory. -/
def bootState : State := ⟨(kheapInit (fun _ => 0) zeroFrames).get (by decide), []⟩

theorem bootState_init : Init bootState :=
  ⟨fun _ => 0, zeroFrames, (Option.some_get (by decide)).symm, rfl⟩

/-- A first request of 100 bytes splits the first page. -/
theorem boot_split_safe :
    ∃ s, step bootState (.kmalloc 100 zeroFrames) = some s ∧ s.issued.length = 1 ∧ Safe s := by
  have hrun : (step bootState (.kmalloc 100 zeroFrames)).any (fun s => s.issued.length = 1) = true := by
    decide
  obtain ⟨s, hs, hlen⟩ := (Option.any_eq_true ..).mp hrun
  have hfit : firstFit bootState.heap (alignUp 100 16) bootState.heap.fuel .head =
      some (some .head) := by
    decide
  have hgood : Good bootState (.kmalloc 100 zeroFrames) := by
    rw [good_kmalloc, hfit]
    exact ⟨by decide, by decide⟩
  have hlegal : Legal bootState (.kmalloc 100 zeroFrames) := ⟨by decide, by decide⟩
  refine ⟨s, hs, by simpa using hlen, ?_⟩
  exact safe_of_good ((Reach.init bootState_init).step ⟨hlegal, hgood⟩ hs)

/-- A first request that takes the first page whole: the unsigned difference wraps, and
the remainder's header is stored at `heap_top`, outside the mapped range. -/
theorem boot_exact_fit_unsafe :
    ∃ s, step bootState (.kmalloc 4064 zeroFrames) = some s ∧ Reach step Legal Init s ∧ ¬ Safe s := by
  have hrun : (step bootState (.kmalloc 4064 zeroFrames)).any (fun s =>
      s.heap.heapTop ∈ s.heap.written) = true := by
    decide
  obtain ⟨s, hs, hmem⟩ := (Option.any_eq_true ..).mp hrun
  have hlegal : Legal bootState (.kmalloc 4064 zeroFrames) := ⟨by decide, by decide⟩
  refine ⟨s, hs, (Reach.init bootState_init).step hlegal hs, fun hsafe => ?_⟩
  have hbad := (hsafe.1 s.heap.heapTop (by simpa using hmem)).2
  unfold headerSize at hbad
  omega

end VoidOS.Kheap
