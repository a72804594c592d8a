import VoidOS.KheapSafety

namespace VoidOS.Kheap

theorem apart_middle {pre post : List Block} {b : Block} {I : List (ℕ × ℕ)} :
    ((pre ++ b :: post).map Block.range ++ I).Pairwise Apart ↔
      (∀ r ∈ (pre ++ post).map Block.range ++ I, Apart b.range r) ∧
        ((pre ++ post).map Block.range ++ I).Pairwise Apart := by
  rw [List.map_append, List.map_cons, List.append_assoc, List.cons_append,
    List.pairwise_middle (fun h => Apart.symm h), List.pairwise_cons]
  simp only [List.map_append, List.append_assoc]

theorem Apart.sub {r x y : ℕ × ℕ} (h : Apart x r) (h₁ : x.1 ≤ y.1) (h₂ : y.2 ≤ x.2) :
    Apart y r := by
  unfold Apart at *
  omega

/-- Disjoint parts of one block, some kept on the list and one issued, take its place. -/
theorem apart_replace {l₁ l₂ mid : List Block} {b : Block} {I : List (ℕ × ℕ)} {x : ℕ × ℕ}
    (h : ((l₁ ++ b :: l₂).map Block.range ++ I).Pairwise Apart)
    (hsub : ∀ r ∈ mid.map Block.range ++ [x], b.range.1 ≤ r.1 ∧ r.2 ≤ b.range.2)
    (hmid : (mid.map Block.range ++ [x]).Pairwise Apart) :
    ((l₁ ++ (mid ++ l₂)).map Block.range ++ x :: I).Pairwise Apart := by
  obtain ⟨hb, hr⟩ := apart_middle.mp h
  have hperm : ((mid.map Block.range ++ [x]) ++ ((l₁ ++ l₂).map Block.range ++ I)).Perm
      ((l₁ ++ (mid ++ l₂)).map Block.range ++ x :: I) := by
    rw [List.perm_iff_count]
    intro r
    simp only [List.map_append, List.count_append, List.count_cons, List.count_nil]
    omega
  rw [← hperm.pairwise_iff (fun h => Apart.symm h), List.pairwise_append]
  exact ⟨hmid, hr, fun r hm t ht => (hb t ht).sub (hsub r hm).1 (hsub r hm).2⟩

/-- The invariant with the block `b` open: it has its range and its place on the list,
and nothing is known of its header or of the link to it. `q` is where its successors
start. -/
structure Hole (s : State) (l₁ : List Block) (b : Block) (l₂ : List Block) (q : ℕ) : Prop
    extends Layout s (l₁ ++ b :: l₂) where
  before : Seg s.heap.mem s.heap.head l₁ (s.heap.link (lastLink l₁))
  after : Seg s.heap.mem q l₂ 0
  headers : Headers s.heap.mem (l₁ ++ l₂)

theorem Inv.link_eq {s : State} {l₁ l₂ : List Block} {b : Block}
    (h : Inv s (l₁ ++ b :: l₂)) : s.heap.link (lastLink l₁) = b.1 := by
  obtain ⟨r, hpre, rfl, -, -⟩ := seg_append.mp h.seg
  exact link_lastLink hpre

theorem Inv.hole {s : State} {l₁ l₂ : List Block} {b : Block}
    (h : Inv s (l₁ ++ b :: l₂)) : Hole s l₁ b l₂ (s.heap.next b.1) := by
  obtain ⟨r, hpre, rfl, -, hpost⟩ := seg_append.mp h.seg
  refine ⟨h.toLayout, (link_lastLink hpre).symm ▸ hpre, hpost, fun c hc => ?_⟩
  apply h.headers c
  simp only [List.mem_append, List.mem_cons] at hc ⊢
  tauto

/-- The stores of a split: `rem` becomes a block of the list and `b` leaves it. -/
def carve (h : Heap) (slot : Link) (b size rem remaining q : ℕ) : Heap :=
  ((((((h.setSize rem remaining).setFree rem true).setNext rem q).setSize b size).setNext b
    0).setLink slot rem).setFree b false

def popped (h : Heap) (slot : Link) (b q : ℕ) : Heap :=
  ((h.setLink slot q).setNext b 0).setFree b false

theorem carve_mem (h : Heap) (slot : Link) (b size rem remaining q a : ℕ) :
    (carve h slot b size rem remaining q).mem a =
      if a = b + 8 then 0 else if slot.cell = some a then rem else if a = b + 16 then 0
      else if a = b then size else if a = rem + 16 then q else if a = rem + 8 then 1
      else if a = rem then remaining else h.mem a := by
  simp only [carve, Heap.setFree_mem, Heap.setLink_mem, Heap.setNext_mem, Heap.setSize_mem,
    Bool.toNat_false, Bool.toNat_true]

theorem popped_mem (h : Heap) (slot : Link) (b q a : ℕ) :
    (popped h slot b q).mem a =
      if a = b + 8 then 0 else if a = b + 16 then 0 else if slot.cell = some a then q
      else h.mem a := by
  simp only [popped, Heap.setFree_mem, Heap.setLink_mem, Heap.setNext_mem, Bool.toNat_false]

theorem Heap.link_eq {h : Heap} {l : Link} {v : ℕ} (hh : l = .head → h.head = v)
    (hm : ∀ a, l.cell = some a → h.mem a = v) : h.link l = v := by
  cases l with
  | head => exact hh rfl
  | next p => exact hm (p + 16) rfl

section Hole

variable {s : State} {l₁ l₂ : List Block} {b : Block} {q size n : ℕ}

/-- The open block is apart from every other block and from every issued one. -/
theorem Layout.apart_block (h : Layout s (l₁ ++ b :: l₂)) :
    (∀ c ∈ l₁ ++ l₂, c.1 + headerSize + c.2 ≤ b.1 ∨ b.1 + headerSize + b.2 ≤ c.1) ∧
    ∀ i ∈ s.issued, i.range.2 ≤ b.1 ∨ b.1 + headerSize + b.2 ≤ i.addr := by
  obtain ⟨hb, -⟩ := apart_middle.mp h.apart
  constructor
  · intro c hc
    exact (hb c.range (List.mem_append_left _ (List.mem_map_of_mem hc))).symm
  · intro i hi
    exact (hb i.range (List.mem_append_right _ (List.mem_map_of_mem hi))).symm

theorem Layout.apart_issued (h : Layout s l₁) {c : Block} (hc : c ∈ l₁)
    {i : Issued} (hi : i ∈ s.issued) :
    c.1 + headerSize + c.2 ≤ i.addr ∨ i.range.2 ≤ c.1 :=
  (List.pairwise_append.mp h.apart).2.2 _ (List.mem_map_of_mem hc) _ (List.mem_map_of_mem hi)

theorem Layout.nodup (h : Layout s l₁) : (l₁.map Prod.fst).Nodup :=
  nodup_of_apart (List.pairwise_append.mp h.apart).1

theorem Layout.issued_range (h : Layout s l₁) {i : Issued} (hi : i ∈ s.issued) :
    i.addr + headerSize + 16 ≤ i.range.2 := by
  obtain ⟨-, h0, hs, -, -⟩ := h.issued i hi
  have hsz := alignUp_spec h0 hs
  show i.addr + headerSize + 16 ≤ i.addr + headerSize + alignUp i.size 16
  omega

theorem Layout.apart_pair (h : Layout s l₁) {c d : Block} (hc : c ∈ l₁) (hd : d ∈ l₁)
    (hne : c.1 ≠ d.1) : c.1 + headerSize + c.2 ≤ d.1 ∨ d.1 + headerSize + d.2 ≤ c.1 := by
  have hp := (List.pairwise_append.mp h.apart).1
  refine hp.forall (List.mem_map_of_mem hc) (List.mem_map_of_mem hd) ?_
  intro he
  exact hne (Prod.ext_iff.mp he).1

theorem Layout.cell_outside (h : Layout s (l₁ ++ b :: l₂)) {a : ℕ}
    (ha : (lastLink l₁).cell = some a) : a < b.1 ∨ b.1 + headerSize + b.2 ≤ a := by
  obtain ⟨p, hp, rfl⟩ := lastLink_cell ha
  have hpb := h.apart_block.1 p (List.mem_append_left _ hp)
  have hp16 := h.block p (List.mem_append_left _ hp)
  unfold headerSize at *
  omega

/-- A store through a link to the open block is to a header in the mapped range. -/
theorem Layout.written_link (h : Layout s (l₁ ++ b :: l₂)) {a : ℕ} (ha : lastLink l₁ = .next a) :
    kheapStart ≤ a ∧ a + headerSize ≤ s.heap.heapTop := by
  obtain ⟨p, hp, rfl⟩ := lastLink_mem ha
  obtain ⟨-, -, -, hlo, hhi⟩ := h.block p (List.mem_append_left _ hp)
  omega

/-- Stores inside the open block and to the link to it keep the block open. -/
theorem Hole.frame (h : Hole s l₁ b l₂ q) {h' : Heap}
    (htop : h'.heapTop = s.heap.heapTop)
    (hwritten : ∀ a ∈ h'.written, lastLink l₁ = .next a ∨
      (b.1 ≤ a ∧ a + headerSize ≤ b.1 + headerSize + b.2) ∨ a ∈ s.heap.written)
    (hmem : ∀ a, (a < b.1 ∨ b.1 + headerSize + b.2 ≤ a) → (lastLink l₁).cell ≠ some a →
      h'.mem a = s.heap.mem a)
    (hhead : lastLink l₁ ≠ .head → h'.head = s.heap.head) :
    Hole ⟨h', s.issued⟩ l₁ b l₂ q := by
  obtain ⟨hother, hiss⟩ := h.apart_block
  have hout : ∀ c ∈ l₁ ++ l₂, ∀ k ≤ 16, c.1 + k < b.1 ∨ b.1 + headerSize + b.2 ≤ c.1 + k := by
    intro c hc k hk
    have := hother c hc
    unfold headerSize at *
    omega
  -- a header word of the list is never the redirected link, a `next` word only for its owner
  have hword : ∀ c ∈ l₁ ++ l₂, ∀ p ∈ l₁, c.1 ≠ p.1 + 16 ∧ c.1 + 8 ≠ p.1 + 16 := by
    intro c hc p hp
    have hc' : c ∈ l₁ ++ b :: l₂ := by
      simp only [List.mem_append, List.mem_cons] at hc ⊢
      tauto
    have hp' : p ∈ l₁ ++ b :: l₂ := List.mem_append_left _ hp
    have hcb := h.block c hc'
    have hpb := h.block p hp'
    have hcp := h.apart_pair hc' hp'
    unfold headerSize at *
    omega
  have hnodup : ((l₁ ++ b :: l₂).map Prod.fst).Nodup := h.nodup
  rw [List.map_append, List.nodup_append] at hnodup
  refine ⟨⟨?_, htop ▸ h.top_lo, htop ▸ h.top_hi, htop ▸ h.top_aligned, ?_, ?_, ?_, h.apart⟩,
    ?_, ?_, ?_⟩
  · intro a ha
    show kheapStart ≤ a ∧ a + headerSize ≤ h'.heapTop
    rw [htop]
    rcases hwritten a ha with ha | ⟨hlo, hhi⟩ | ha
    · exact h.written_link ha
    · obtain ⟨-, -, -, hb4, hb5⟩ := h.block b (by simp)
      omega
    · exact h.written a ha
  · show ∀ c ∈ _, _ ∧ _ ∧ _ ∧ _ ∧ _ ≤ h'.heapTop
    rw [htop]
    exact h.block
  · show ∀ i ∈ s.issued, _ ∧ _ ∧ _ ∧ _ ∧ _ ≤ h'.heapTop
    rw [htop]
    exact h.issued
  · intro i hi
    have h8 : h'.mem (i.addr + 8) = s.heap.mem (i.addr + 8) := by
      have hr := h.issued_range hi
      refine hmem _ (by have := hiss i hi; unfold headerSize at *; omega) fun hcl => ?_
      obtain ⟨p, hp, he⟩ := lastLink_cell hcl
      have hpb := h.block p (List.mem_append_left _ hp)
      have hip := h.issued i hi
      omega
    rw [← h.mark i hi, Heap.free, Heap.free, h8]
  · refine h.before.setLink rfl hhead (fun c hc hne => ?_) hnodup.1
    refine hmem _ (hout c (List.mem_append_left _ hc) 16 le_rfl) fun hcl => ?_
    cases hl : lastLink l₁ with
    | head => simp [hl, Link.cell] at hcl
    | next p =>
      rw [hl, Link.cell] at hcl
      exact hne (by rw [hl]; simpa using hcl)
  · refine h.after.congr fun c hc => ?_
    refine hmem _ (hout c (List.mem_append_right _ hc) 16 le_rfl) fun hcl => ?_
    obtain ⟨p, hp, he⟩ := lastLink_cell hcl
    exact hnodup.2.2 p.1 (List.mem_map_of_mem hp) c.1
      (List.mem_map_of_mem (List.mem_cons_of_mem _ hc)) (by omega)
  · intro c hc
    have h0 : h'.mem c.1 = s.heap.mem c.1 := by
      refine hmem _ (hout c hc 0 (by omega)) fun hcl => ?_
      obtain ⟨p, hp, he⟩ := lastLink_cell hcl
      exact (hword c hc p hp).1 he
    have h8 : h'.mem (c.1 + 8) = s.heap.mem (c.1 + 8) := by
      refine hmem _ (hout c hc 8 (by omega)) fun hcl => ?_
      obtain ⟨p, hp, he⟩ := lastLink_cell hcl
      exact (hword c hc p hp).2 he
    rw [h0, h8]
    exact h.headers c hc

/-- Closing the open block: parts `mid` of it stay on the list, and its start is issued. -/
theorem Hole.close (h : Hole s l₁ b l₂ q) (h0 : 0 < size) (h1 : size < 2 ^ 63)
    (hsz : alignUp size 16 ≤ b.2) {mid : List Block} (hused : s.heap.mem (b.1 + 8) = 0)
    (hmid : ∀ c ∈ mid, c.1 % 16 = 0 ∧ c.2 % 16 = 0 ∧ 16 ≤ c.2 ∧
      b.1 + headerSize + alignUp size 16 ≤ c.1 ∧ c.1 + headerSize + c.2 ≤ b.1 + headerSize + b.2)
    (hpair : (mid.map Block.range).Pairwise Apart)
    (hseg : Seg s.heap.mem (s.heap.link (lastLink l₁)) mid q) (hhd : Headers s.heap.mem mid) :
    Inv ⟨s.heap, ⟨b.1, size, true⟩ :: s.issued⟩ (l₁ ++ (mid ++ l₂)) := by
  obtain ⟨hb1, hb2, hb3, hb4, hb5⟩ := h.block b (by simp)
  refine ⟨⟨h.written, h.top_lo, h.top_hi, h.top_aligned, ?_, ?_, ?_, ?_⟩, ?_, ?_⟩
  · intro c hc
    by_cases hcm : c ∈ mid
    · have := hmid c hcm
      dsimp only
      omega
    · apply h.block c
      simp only [List.mem_append, List.mem_cons] at hc ⊢
      tauto
  · intro i hi
    rcases List.mem_cons.mp hi with rfl | hi
    · refine ⟨hb1, h0, h1, hb4, ?_⟩
      show b.1 + headerSize + alignUp size 16 ≤ s.heap.heapTop
      omega
    · exact h.issued i hi
  · intro i hi
    rcases List.mem_cons.mp hi with rfl | hi
    · simp [Heap.free, hused]
    · exact h.mark i hi
  · refine apart_replace h.apart (fun r hr => ?_) ?_
    · rcases List.mem_append.mp hr with hr | hr
      · obtain ⟨c, hc, rfl⟩ := List.mem_map.mp hr
        obtain ⟨-, -, -, hlo, hhi⟩ := hmid c hc
        exact ⟨by unfold Block.range; dsimp only; omega, hhi⟩
      · rw [List.mem_singleton.mp hr]
        exact ⟨le_rfl, by unfold Issued.range Block.range; dsimp only; omega⟩
    · refine List.pairwise_append.mpr ⟨hpair, List.pairwise_singleton _ _, fun r hr t ht => ?_⟩
      obtain ⟨c, hc, rfl⟩ := List.mem_map.mp hr
      rw [List.mem_singleton.mp ht]
      exact Or.inr (hmid c hc).2.2.2.1
  · exact seg_append.mpr ⟨_, h.before, seg_append.mpr ⟨_, hseg, h.after⟩⟩
  · intro c hc
    by_cases hcm : c ∈ mid
    · exact hhd c hcm
    · apply h.headers c
      simp only [List.mem_append] at hc ⊢
      tauto

theorem Hole.carve (h : Hole s l₁ b l₂ q) (h0 : 0 < size) (h1 : size < 2 ^ 63)
    (hfit : alignUp size 16 + 48 ≤ b.2) {rem r : ℕ}
    (hc₁ : rem = b.1 + headerSize + alignUp size 16)
    (hc₂ : r = b.2 - alignUp size 16 - headerSize) :
    Inv ⟨{ carve s.heap (lastLink l₁) b.1 (alignUp size 16) rem r q with bytesUsed := n },
      ⟨b.1, size, true⟩ :: s.issued⟩ (l₁ ++ ([(rem, r)] ++ l₂)) := by
  obtain ⟨ha1, ha2, ha3, ha4⟩ := alignUp_spec h0 h1
  obtain ⟨hb1, hb2, hb3, hb4, hb5⟩ := h.block b (by simp)
  have hcell : ∀ a, (lastLink l₁).cell = some a → a < b.1 ∨ b.1 + 32 + b.2 ≤ a :=
    fun a => h.cell_outside
  -- the words of the remainder, none of which is the link to the open block
  have hval : ∀ k, k ≤ 16 → (lastLink l₁).cell ≠ some (rem + k) := by
    intro k hk hcl
    have hout := hcell _ hcl
    unfold headerSize at *
    omega
  unfold headerSize at hc₁ hc₂ hb5
  have hlink : (Kheap.carve s.heap (lastLink l₁) b.1 (alignUp size 16) rem r q).link
      (lastLink l₁) = rem := by
    apply Heap.link_eq
    · intro hl
      simp [Kheap.carve, hl, Heap.setLink]
    · intro a ha
      have hout := hcell a ha
      rw [carve_mem, if_neg (by omega), if_pos ha]
  have hv0 : (lastLink l₁).cell ≠ some rem := hval 0 (by omega)
  have hv8 := hval 8 (by omega)
  have hv16 := hval 16 (by omega)
  have hopen : Hole ⟨{ Kheap.carve s.heap (lastLink l₁) b.1 (alignUp size 16) rem r q with
      bytesUsed := n }, s.issued⟩ l₁ b l₂ q := by
    apply h.frame
    · simp [Kheap.carve]
    · intro a ha
      unfold headerSize
      rcases List.mem_cons.mp ha with rfl | ha
      · omega
      · rcases Heap.setLink_written _ _ _ ha with hl | ha
        · exact Or.inl hl
        · simp only [Heap.setNext_written, Heap.setSize_written, Heap.setFree_written,
            List.mem_cons] at ha
          rcases ha with rfl | rfl | rfl | rfl | rfl | ha
          iterate 5 omega
          exact Or.inr (Or.inr ha)
    · intro a ha hcl
      unfold headerSize at ha
      show (Kheap.carve _ _ _ _ _ _ _).mem a = _
      rw [carve_mem]
      simp only [hcl, if_false]
      split_ifs <;> omega
    · intro hl
      simp [Kheap.carve, Heap.setLink_head, hl]
  apply hopen.close h0 h1 (by omega)
  · exact (carve_mem ..).trans (if_pos rfl)
  · intro d hd
    rw [List.mem_singleton.mp hd]
    unfold headerSize
    omega
  · exact List.pairwise_singleton _ _
  · refine ⟨hlink, by unfold kheapStart at hb4; omega, ?_⟩
    show (Kheap.carve _ _ _ _ _ _ _).mem (rem + 16) = q
    rw [carve_mem]
    simp only [hv16, if_false]
    split_ifs <;> omega
  · intro d hd
    rw [List.mem_singleton.mp hd]
    show (Kheap.carve _ _ _ _ _ _ _).mem _ = _ ∧ (Kheap.carve _ _ _ _ _ _ _).mem _ ≠ _
    rw [carve_mem, carve_mem]
    simp only [hv0, hv8, if_false]
    constructor <;> split_ifs <;> omega

theorem Hole.pop (h : Hole s l₁ b l₂ q) (h0 : 0 < size) (h1 : size < 2 ^ 63)
    (hfit : alignUp size 16 ≤ b.2) :
    Inv ⟨{ popped s.heap (lastLink l₁) b.1 q with bytesUsed := n },
      ⟨b.1, size, true⟩ :: s.issued⟩ (l₁ ++ ([] ++ l₂)) := by
  have hlink : (popped s.heap (lastLink l₁) b.1 q).link (lastLink l₁) = q := by
    apply Heap.link_eq
    · intro hl
      simp [popped, hl, Heap.setLink]
    · intro a ha
      have hout := h.cell_outside ha
      unfold headerSize at hout
      rw [popped_mem, if_neg (by omega), if_neg (by omega), if_pos ha]
  have hopen : Hole ⟨{ popped s.heap (lastLink l₁) b.1 q with bytesUsed := n }, s.issued⟩
      l₁ b l₂ q := by
    apply h.frame
    · simp [popped]
    · intro a ha
      simp only [popped, Heap.setFree_written, Heap.setNext_written, List.mem_cons] at ha
      rcases ha with rfl | rfl | ha
      · omega
      · omega
      · exact (Heap.setLink_written _ _ _ ha).imp id Or.inr
    · intro a ha hcl
      unfold headerSize at ha
      show (popped _ _ _ _).mem a = _
      rw [popped_mem, if_neg (by omega), if_neg (by omega), if_neg hcl]
    · intro hl
      simp [popped, Heap.setLink_head, hl]
  apply hopen.close h0 h1 hfit
  · exact (popped_mem ..).trans (if_pos rfl)
  · simp
  · exact List.Pairwise.nil
  · exact hlink
  · simp [Headers]

/-- The heap `h'` after the start of `b` was handed out for `a` bytes: `mid` is what stays of `b`
on the list, and the headers of the blocks issued before keep their sizes. -/
structure Taken (s : State) (h' : Heap) (b : Block) (a : ℕ) (mid : List Block) : Prop where
  top : h'.heapTop = s.heap.heapTop
  sizes : ∀ i ∈ s.issued, h'.size i.addr = s.heap.size i.addr
  rest : (mid = [] ∧ h'.size b.1 = s.heap.size b.1 ∧ b.2 < a + 48) ∨
    (h'.size b.1 = a ∧ ∃ r, mid = [(b.1 + headerSize + a, r)] ∧ a + headerSize + r = b.2)

/-- The size words of issued blocks lie outside the open block and are no link words. -/
theorem Hole.size_outside (h : Hole s l₁ b l₂ q) {i : Issued} (hi : i ∈ s.issued) :
    (i.addr + headerSize ≤ b.1 ∨ b.1 + headerSize + b.2 ≤ i.addr) ∧
      (lastLink l₁).cell ≠ some i.addr := by
  have hr := h.issued_range hi
  refine ⟨by have := h.apart_block.2 i hi; omega, fun hcl => ?_⟩
  obtain ⟨p, hp, he⟩ := lastLink_cell hcl
  have hap := h.apart_issued (List.mem_append_left _ hp) hi
  have hblock := h.block p (List.mem_append_left _ hp)
  unfold headerSize at *
  omega

theorem Hole.carve_taken (h : Hole s l₁ b l₂ q) (hfit : n + 48 ≤ b.2) {rem r m : ℕ}
    (hc₁ : rem = b.1 + headerSize + n) (hc₂ : r = b.2 - n - headerSize) :
    Taken s { Kheap.carve s.heap (lastLink l₁) b.1 n rem r q with bytesUsed := m } b n
      [(rem, r)] := by
  have hcell := h.toLayout.cell_outside (a := b.1)
  refine ⟨by simp [Kheap.carve], ?_, Or.inr ⟨?_, r, by rw [hc₁], by unfold headerSize at *; omega⟩⟩
  · intro i hi
    obtain ⟨hout, hcl⟩ := h.size_outside hi
    unfold headerSize at *
    show (Kheap.carve _ _ _ _ _ _ _).mem i.addr = s.heap.mem i.addr
    rw [carve_mem]
    simp only [hcl, if_false]
    split_ifs <;> omega
  · have hcl : (lastLink l₁).cell ≠ some b.1 := by
      intro hcl
      have := hcell hcl
      unfold headerSize at this
      omega
    show (Kheap.carve _ _ _ _ _ _ _).mem b.1 = n
    rw [carve_mem, if_neg (by omega), if_neg hcl, if_neg (by omega), if_pos rfl]

theorem Hole.pop_taken (h : Hole s l₁ b l₂ q) (hfit : b.2 < n + 48) {m : ℕ} :
    Taken s { popped s.heap (lastLink l₁) b.1 q with bytesUsed := m } b n [] := by
  have hcell := h.toLayout.cell_outside (a := b.1)
  refine ⟨by simp [popped], ?_, Or.inl ⟨rfl, ?_, hfit⟩⟩
  · intro i hi
    obtain ⟨hout, hcl⟩ := h.size_outside hi
    unfold headerSize at *
    show (popped _ _ _ _).mem i.addr = s.heap.mem i.addr
    rw [popped_mem, if_neg (by omega), if_neg (by omega), if_neg hcl]
  · have hcl : (lastLink l₁).cell ≠ some b.1 := by
      intro hcl
      have := hcell hcl
      unfold headerSize at this
      omega
    show (popped _ _ _ _).mem b.1 = s.heap.mem b.1
    rw [popped_mem, if_neg (by omega), if_neg (by omega), if_neg hcl]

end Hole

section Kmalloc

variable {s : State} {l₁ l₂ : List Block} {b : Block} {size : ℕ}

/-- The three outcomes of the split test of `kmalloc` share these two forms. -/
theorem takeFit_carve {h : Heap} {slot : Link} {a r rem : ℕ}
    (hrem : h.link slot + headerSize ≤ rem)
    (hr : sub64 (sub64 (h.size (h.link slot)) a) headerSize = r) (h16 : 16 ≤ r)
    (haddr : (h.link slot + headerSize + a) % 2 ^ 64 = rem) :
    takeFit h slot a = ({ carve h slot (h.link slot) a rem r (h.next (h.link slot)) with
      bytesUsed := (takeFit h slot a).1.bytesUsed }, h.link slot + headerSize) := by
  have hnext : ((h.setSize rem r).setFree rem true).next (h.link slot) = h.next (h.link slot) := by
    unfold headerSize at hrem
    simp only [Heap.next, Heap.setFree_mem, Heap.setSize_mem]
    rw [if_neg (by omega), if_neg (by omega)]
  unfold takeFit
  simp only [hr, if_pos h16, haddr, hnext]
  rfl

theorem takeFit_popped {h : Heap} {slot : Link} {a r : ℕ}
    (hr : sub64 (sub64 (h.size (h.link slot)) a) headerSize = r) (h16 : ¬ 16 ≤ r) :
    takeFit h slot a = ({ popped h slot (h.link slot) (h.next (h.link slot)) with
      bytesUsed := (takeFit h slot a).1.bytesUsed }, h.link slot + headerSize) := by
  unfold takeFit
  simp only [hr, if_neg h16]
  rfl

theorem takeFit_inv (h : Inv s (l₁ ++ b :: l₂)) (h0 : 0 < size) (h1 : size < 2 ^ 63)
    (hfit : alignUp size 16 ≤ b.2) (hne : b.2 ≠ alignUp size 16) (hne' : b.2 ≠ alignUp size 16 + 16) :
    ∃ h' mid, takeFit s.heap (lastLink l₁) (alignUp size 16) = (h', b.1 + headerSize) ∧
      Taken s h' b (alignUp size 16) mid ∧
      Inv ⟨h', ⟨b.1, size, true⟩ :: s.issued⟩ (l₁ ++ (mid ++ l₂)) := by
  obtain ⟨ha1, ha2, ha3, ha4⟩ := alignUp_spec h0 h1
  obtain ⟨hb1, hb2, hb3, hb4, hb5⟩ := h.block b (by simp)
  have hlink : s.heap.link (lastLink l₁) = b.1 := h.link_eq
  have hsize : s.heap.size b.1 = b.2 := (h.headers b (by simp)).1
  have htop := h.top_hi
  unfold kheapMax at htop
  have hr : sub64 (sub64 (s.heap.size (s.heap.link (lastLink l₁))) (alignUp size 16)) headerSize =
      b.2 - alignUp size 16 - headerSize := by
    rw [hlink, hsize]
    unfold sub64 headerSize at *
    omega
  by_cases h16 : 16 ≤ b.2 - alignUp size 16 - headerSize
  · have haddr : (s.heap.link (lastLink l₁) + headerSize + alignUp size 16) % 2 ^ 64 =
        b.1 + headerSize + alignUp size 16 := by
      rw [hlink]
      apply Nat.mod_eq_of_lt
      omega
    have hcarve := takeFit_carve (by rw [hlink]; omega) hr h16 haddr
    rw [hlink] at hcarve
    have hbig : alignUp size 16 + 48 ≤ b.2 := by
      unfold headerSize at h16
      omega
    exact ⟨_, _, hcarve, h.hole.carve_taken hbig rfl rfl, h.hole.carve h0 h1 hbig rfl rfl⟩
  · have hpop := takeFit_popped hr h16
    rw [hlink] at hpop
    have hsmall : b.2 < alignUp size 16 + 48 := by
      unfold headerSize at h16
      omega
    exact ⟨_, _, hpop, h.hole.pop_taken hsmall, h.hole.pop h0 h1 hfit⟩

theorem mapPage_mem (h : Heap) (f : Frames) (a : ℕ) :
    (a < h.heapTop → (mapPage h f).mem a = h.mem a) ∧
    (h.heapTop ≤ a → a < h.heapTop + pageSize → (mapPage h f).mem a = f.word a) := by
  constructor
  · intro ha
    exact if_neg fun hc => absurd hc.1 (by omega)
  · intro h₁ h₂
    exact if_pos ⟨h₁, h₂⟩

/-- A heap grown from `h`: `head` and the mapped words stay, and new words hold what
the frames held. -/
structure Grown (f : Frames) (h h' : Heap) : Prop where
  top_le : h.heapTop ≤ h'.heapTop
  aligned : (h'.heapTop - h.heapTop) % pageSize = 0
  head : h'.head = h.head
  written : h'.written = h.written
  old : ∀ a < h.heapTop, h'.mem a = h.mem a
  new : ∀ a, h.heapTop ≤ a → a < h'.heapTop → h'.mem a = f.word a

/-- The growth loop maps at most `n` pages, and all of them if it succeeds. -/
theorem growLoop_spec (f : Frames) (i n : ℕ) (h : Heap) :
    Grown f h (growLoop f i n h).1 ∧ (growLoop f i n h).1.heapTop ≤ h.heapTop + n * pageSize ∧
      ((growLoop f i n h).2 = true → (growLoop f i n h).1.heapTop = h.heapTop + n * pageSize) := by
  induction n generalizing i h with
  | zero =>
    refine ⟨⟨le_rfl, by simp [growLoop], rfl, rfl, fun _ _ => rfl, fun a h₁ h₂ => ?_⟩, by simp [growLoop]⟩
    exact absurd h₂ (by simp only [growLoop]; omega)
  | succ n ih =>
    by_cases hm : f.maps i = true
    · obtain ⟨hg, hle, hok⟩ := ih (i + 1) (mapPage h f)
      have hstep : growLoop f i (n + 1) h = growLoop f (i + 1) n (mapPage h f) := by
        rw [growLoop, if_pos hm]
      have htop : (mapPage h f).heapTop = h.heapTop + pageSize := rfl
      rw [hstep]
      obtain ⟨h₁, h₂, h₃, h₄, h₅, h₆⟩ := hg
      rw [htop] at h₁ h₂ h₅ h₆ hle hok
      unfold pageSize at *
      refine ⟨⟨by omega, by unfold pageSize; omega, h₃, h₄, fun a ha => ?_, fun a ha ha' => ?_⟩,
        by omega, fun h' => by rw [hok h']; omega⟩
      · rw [h₅ a (by omega)]
        exact (mapPage_mem h f a).1 ha
      · by_cases hp : a < h.heapTop + 4096
        · rw [h₅ a hp]
          exact (mapPage_mem h f a).2 ha hp
        · exact h₆ a (by omega) ha'
    · have hstep : growLoop f i (n + 1) h = (h, false) := by
        rw [growLoop, if_neg hm]
      rw [hstep]
      refine ⟨⟨le_rfl, by simp, rfl, rfl, fun _ _ => rfl, fun a h₁ h₂ => ?_⟩, by simp⟩
      exact absurd h₂ (by simp only; omega)

/-- `heap_grow` keeps the heap below `KHEAP_MAX`; when it succeeds the new pages hold
`need` bytes. -/
theorem heapGrow_spec {h : Heap} {f : Frames} {need : ℕ} (hal : h.heapTop % pageSize = 0)
    (hmax : h.heapTop ≤ kheapMax) (hwrap : h.heapTop + need + pageSize ≤ 2 ^ 64) :
    Grown f h (heapGrow h f need).1 ∧ (heapGrow h f need).1.heapTop ≤ kheapMax ∧
      ((heapGrow h f need).2 = true →
        (heapGrow h f need).1.heapTop = h.heapTop + (need + 4095) / 4096 * 4096) := by
  unfold pageSize at hal hwrap
  have htarget : alignUp ((h.heapTop + need) % 2 ^ 64) pageSize =
      h.heapTop + (need + 4095) / 4096 * 4096 := by
    unfold alignUp pageSize
    omega
  unfold heapGrow
  simp only [htarget]
  by_cases hlim : kheapMax < h.heapTop + (need + 4095) / 4096 * 4096
  · rw [if_pos hlim]
    refine ⟨⟨le_rfl, by simp, rfl, rfl, fun _ _ => rfl, fun a h₁ h₂ => ?_⟩, hmax, by simp⟩
    exact absurd h₂ (by simp only; omega)
  · rw [if_neg hlim]
    have hn : (h.heapTop + (need + 4095) / 4096 * 4096 - h.heapTop + (pageSize - 1)) / pageSize =
        (need + 4095) / 4096 := by
      unfold pageSize
      omega
    rw [hn]
    obtain ⟨hg, hle, hok⟩ := growLoop_spec f 0 ((need + 4095) / 4096) h
    unfold pageSize at hle hok
    exact ⟨hg, by omega, hok⟩

variable {f : Frames} {h' : Heap} {fl : List Block}

/-- Growth alone keeps the invariant; a failed growth leaves the new pages unused. -/
theorem Inv.grow (h : Inv s fl) (hg : Grown f s.heap h') (hmax : h'.heapTop ≤ kheapMax) :
    Inv ⟨h', s.issued⟩ fl := by
  have hlo := h.top_lo
  have hle := hg.top_le
  have hold : ∀ b ∈ fl, ∀ k ≤ 16, h'.mem (b.1 + k) = s.heap.mem (b.1 + k) := by
    intro b hb k hk
    obtain ⟨-, -, -, -, hend⟩ := h.block b hb
    apply hg.old
    unfold headerSize at hend
    omega
  refine ⟨⟨?_, ?_, hmax, ?_, ?_, ?_, ?_, h.apart⟩, ?_, ?_⟩
  · intro a ha
    have := h.written a (hg.written ▸ ha)
    exact ⟨this.1, le_trans this.2 hle⟩
  · exact le_trans hlo hle
  · have := hg.aligned
    have := h.top_aligned
    show h'.heapTop % pageSize = 0
    unfold pageSize at *
    omega
  · intro b hb
    obtain ⟨h₁, h₂, h₃, h₄, h₅⟩ := h.block b hb
    exact ⟨h₁, h₂, h₃, h₄, le_trans h₅ hle⟩
  · intro i hi
    obtain ⟨h₁, h₂, h₃, h₄, h₅⟩ := h.issued i hi
    exact ⟨h₁, h₂, h₃, h₄, le_trans h₅ hle⟩
  · intro i hi
    have hr := h.issued_range hi
    have hend := (h.issued i hi).2.2.2.2
    rw [← h.mark i hi, Heap.free, Heap.free, hg.old _ (by unfold headerSize at hr; omega)]
  · show Seg h'.mem h'.head fl 0
    rw [hg.head]
    exact h.seg.congr fun b hb => hold b hb 16 le_rfl
  · intro b hb
    have h0 := hold b hb 0 (by omega)
    have h8 := hold b hb 8 (by omega)
    show h'.mem b.1 = b.2 ∧ h'.mem (b.1 + 8) ≠ 0
    rw [Nat.add_zero] at h0
    rw [h0, h8]
    exact h.headers b hb

/-- A block that ends at `heap_top` and starts after every other one can be added. -/
theorem Layout.concat (h : Layout s l₁) (hend : b.1 + headerSize + b.2 = s.heap.heapTop)
    (hb : b.1 % 16 = 0 ∧ b.2 % 16 = 0 ∧ 16 ≤ b.2 ∧ kheapStart ≤ b.1)
    (hl : ∀ c ∈ l₁, c.1 + headerSize + c.2 ≤ b.1) (hi : ∀ i ∈ s.issued, i.range.2 ≤ b.1) :
    Layout s (l₁ ++ [b]) := by
  refine ⟨h.written, h.top_lo, h.top_hi, h.top_aligned, fun c hc => ?_, h.issued, h.mark, ?_⟩
  · rcases List.mem_append.mp hc with hc | hc
    · exact h.block c hc
    · rw [List.mem_singleton.mp hc]
      exact ⟨hb.1, hb.2.1, hb.2.2.1, hb.2.2.2, le_of_eq hend⟩
  · rw [apart_middle, List.append_nil]
    refine ⟨fun r hr => Or.inr ?_, h.apart⟩
    rcases List.mem_append.mp hr with hr | hr
    · obtain ⟨c, hc, rfl⟩ := List.mem_map.mp hr
      exact hl c hc
    · obtain ⟨i, hi', rfl⟩ := List.mem_map.mp hr
      exact hi i hi'

theorem Layout.left (h : Layout s (l₁ ++ l₂)) : Layout s l₁ := by
  refine ⟨h.written, h.top_lo, h.top_hi, h.top_aligned, fun c hc => ?_, h.issued, h.mark, ?_⟩
  · exact h.block c (List.mem_append_left _ hc)
  · refine List.Pairwise.sublist ?_ h.apart
    exact ((List.sublist_append_left l₁ l₂).map _).append (List.Sublist.refl _)

theorem Hole.setLink {q : ℕ} (h : Hole s l₁ b l₂ q) (v : ℕ) :
    Hole ⟨s.heap.setLink (lastLink l₁) v, s.issued⟩ l₁ b l₂ q := by
  apply h.frame (Heap.setLink_heapTop ..)
  · intro a ha
    exact (Heap.setLink_written _ _ _ ha).imp id Or.inr
  · intro a _ hcl
    rw [Heap.setLink_mem, if_neg hcl]
  · intro hl
    rw [Heap.setLink_head, if_neg hl]

theorem takeFresh_carve {h : Heap} {slot : Link} {b bsz a r rem : ℕ}
    (hr : sub64 (sub64 bsz a) headerSize = r) (h16 : 16 ≤ r)
    (haddr : (b + headerSize + a) % 2 ^ 64 = rem) :
    takeFresh h slot b bsz a = ({ carve h slot b a rem r 0 with
      bytesUsed := (takeFresh h slot b bsz a).1.bytesUsed }, b + headerSize) := by
  unfold takeFresh
  simp only [hr, if_pos h16, haddr]
  rfl

theorem takeFresh_popped {h : Heap} {slot : Link} {b bsz a r : ℕ}
    (hr : sub64 (sub64 bsz a) headerSize = r) (h16 : ¬ 16 ≤ r) :
    takeFresh h slot b bsz a = ({ popped h slot b (h.next b) with
      bytesUsed := (takeFresh h slot b bsz a).1.bytesUsed }, b + headerSize) := by
  unfold takeFresh
  simp only [hr, if_neg h16]
  rfl

/-- Taking from a block at the end of the list. A block that is popped whole must have
a null link word, which a freshly mapped frame does not promise. -/
theorem takeFresh_inv {q : ℕ} (h : Hole s l₁ b [] q) (h0 : 0 < size) (h1 : size < 2 ^ 63)
    (hfit : alignUp size 16 ≤ b.2) (hne : b.2 ≠ alignUp size 16) (hne' : b.2 ≠ alignUp size 16 + 16)
    (hnull : b.2 = alignUp size 16 + 32 → s.heap.next b.1 = 0) :
    ∃ h' mid, takeFresh s.heap (lastLink l₁) b.1 b.2 (alignUp size 16) = (h', b.1 + headerSize) ∧
      Taken s h' b (alignUp size 16) mid ∧
      Inv ⟨h', ⟨b.1, size, true⟩ :: s.issued⟩ (l₁ ++ (mid ++ [])) := by
  obtain ⟨ha1, ha2, ha3, ha4⟩ := alignUp_spec h0 h1
  obtain ⟨hb1, hb2, hb3, hb4, hb5⟩ := h.block b (by simp)
  have htop := h.top_hi
  unfold kheapMax at htop
  have hopen : Hole s l₁ b [] 0 := ⟨h.toLayout, h.before, rfl, h.headers⟩
  have hr : sub64 (sub64 b.2 (alignUp size 16)) headerSize =
      b.2 - alignUp size 16 - headerSize := by
    unfold sub64 headerSize at *
    omega
  by_cases h16 : 16 ≤ b.2 - alignUp size 16 - headerSize
  · have haddr : (b.1 + headerSize + alignUp size 16) % 2 ^ 64 =
        b.1 + headerSize + alignUp size 16 := by
      apply Nat.mod_eq_of_lt
      omega
    have hbig : alignUp size 16 + 48 ≤ b.2 := by
      unfold headerSize at h16
      omega
    exact ⟨_, _, takeFresh_carve hr h16 haddr, hopen.carve_taken hbig rfl rfl,
      hopen.carve h0 h1 hbig rfl rfl⟩
  · have hpop : takeFresh s.heap (lastLink l₁) b.1 b.2 (alignUp size 16) = _ :=
      takeFresh_popped hr h16
    have hsmall : b.2 < alignUp size 16 + 48 := by
      unfold headerSize at h16
      omega
    rw [hnull (by omega)] at hpop
    exact ⟨_, _, hpop, hopen.pop_taken hsmall, hopen.pop h0 h1 hfit⟩

theorem Inv.tailLink_eq (h : Inv s (l₁ ++ [b])) :
    tailLink s.heap s.heap.fuel .head = some (lastLink l₁) := by
  have hlen := h.length_lt_fuel
  rw [List.length_append, List.length_singleton] at hlen
  have hnil : Seg s.heap.mem s.heap.head [] (s.heap.link (lastLink [])) := rfl
  exact tailLink_spec hnil h.seg (by omega)

theorem Inv.head_ne (h : Inv s (l₁ ++ [b])) : s.heap.head ≠ 0 := by
  have hseg := h.seg
  cases l₁ with
  | nil => exact fun h0 => hseg.2.1 (hseg.1.symm.trans h0)
  | cons c l => exact fun h0 => hseg.2.1 (hseg.1.symm.trans h0)

theorem Inv.tailMeets_iff (h : Inv s (l₁ ++ [b])) :
    tailMeets s.heap = true ↔ b.1 + headerSize + b.2 = s.heap.heapTop := by
  obtain ⟨hsize, hfree⟩ := h.headers b (by simp)
  simp [tailMeets, h.head_ne, h.tailLink_eq, h.link_eq, Heap.free, hfree, Heap.size, hsize]

theorem Inv.hole_fresh (h : Inv s fl) (hg : Grown f s.heap h') (hmax : h'.heapTop ≤ kheapMax)
    {n : ℕ} (htop : s.heap.heapTop + headerSize + n = h'.heapTop) (h16 : 16 ≤ n) :
    Hole ⟨h', s.issued⟩ fl (s.heap.heapTop, n) [] 0 := by
  have hinv := h.grow hg hmax
  refine ⟨hinv.concat htop ?_ ?_ ?_, ?_, rfl, ?_⟩
  · have h₁ := h.top_aligned
    have h₂ := hinv.top_aligned
    have h₃ := h.top_lo
    dsimp only at h₂ ⊢
    unfold pageSize headerSize at *
    omega
  · intro c hc
    exact (h.block c hc).2.2.2.2
  · intro i hi
    exact (h.issued i hi).2.2.2.2
  · have hlast := link_lastLink hinv.seg
    exact hlast.symm ▸ hinv.seg
  · rw [List.append_nil]
    exact hinv.headers

theorem Inv.hole_merge (h : Inv s (l₁ ++ [b])) (hg : Grown f s.heap h')
    (hmax : h'.heapTop ≤ kheapMax) {n : ℕ} (hend : b.1 + headerSize + b.2 = s.heap.heapTop)
    (htop : b.1 + headerSize + n = h'.heapTop) (v : ℕ) :
    Hole ⟨h'.setSize b.1 v, s.issued⟩ l₁ (b.1, n) [] 0 := by
  have hinv := h.grow hg hmax
  have hle := hg.top_le
  obtain ⟨hb1, hb2, hb3, hb4, -⟩ := h.block b (by simp)
  obtain ⟨hother, hiss⟩ := h.toLayout.apart_block
  have hopen : Hole ⟨h', s.issued⟩ l₁ (b.1, n) [] 0 := by
    refine ⟨hinv.left.concat htop ?_ ?_ ?_, ?_, rfl, ?_⟩
    · have h₁ := hinv.top_aligned
      dsimp only at h₁ ⊢
      unfold pageSize headerSize at *
      omega
    · intro c hc
      have hcb := h.block c (List.mem_append_left _ hc)
      have hc' := hother c (by simpa using hc)
      unfold headerSize at *
      dsimp only
      omega
    · intro i hi
      have hr := h.issued_range hi
      have hii := h.issued i hi
      have hi' := hiss i hi
      unfold headerSize at *
      dsimp only
      omega
    · have hseg := hinv.hole.before
      exact hseg
    · have hhd := hinv.hole.headers
      exact hhd
  apply hopen.frame
  · rfl
  · intro a ha
    rcases List.mem_cons.mp ha with rfl | ha
    · dsimp only
      omega
    · exact Or.inr (Or.inr ha)
  · intro a ha _
    dsimp only at ha
    show (h'.setSize b.1 v).mem a = h'.mem a
    rw [Heap.setSize_mem, if_neg (by unfold headerSize at ha; omega)]
  · intro _
    rfl

section PlaceFresh

variable {h : Heap} {slot : Link} {t : Block} {b bsz : ℕ}

theorem placeFresh_merge (hlink : h.link slot = t.1) (hfree : h.free t.1 = true)
    (hsize : h.size t.1 = t.2) (hend : t.1 + headerSize + t.2 = b)
    (hlt : b + headerSize + bsz < 2 ^ 64) :
    placeFresh h slot b bsz =
      (h.setSize t.1 (t.2 + (headerSize + bsz)), slot, t.1, t.2 + (headerSize + bsz)) := by
  have hself : ∀ v, (h.setSize t.1 v).size t.1 = v := fun v => by
    rw [Heap.size, Heap.setSize_mem, if_pos rfl]
  unfold placeFresh
  simp only [hlink, hfree, hsize, hself]
  rw [Nat.mod_eq_of_lt (by omega : t.1 + headerSize + t.2 < 2 ^ 64), if_pos ⟨trivial, hend⟩,
    Nat.mod_eq_of_lt (by omega)]

theorem placeFresh_append (hlink : h.link slot = t.1) (hsize : h.size t.1 = t.2)
    (hend : t.1 + headerSize + t.2 ≠ b) (hlt : t.1 + headerSize + t.2 < 2 ^ 64) :
    placeFresh h slot b bsz = (h.setNext t.1 b, .next t.1, b, bsz) := by
  unfold placeFresh
  simp only [hlink, hsize]
  rw [Nat.mod_eq_of_lt hlt, if_neg fun hc => hend hc.2]

end PlaceFresh

/-- The state `s₁` with a block `b` of fresh pages for `a` bytes at the end of the list, or with
the fresh pages merged into a last block that ended where they start. -/
def Fresh (s s₁ : State) (fl l₁ : List Block) (b : Block) (a : ℕ) : Prop :=
  s₁.issued = s.issued ∧ (∀ i ∈ s.issued, s₁.heap.size i.addr = s.heap.size i.addr) ∧
    b.1 + headerSize + b.2 = s₁.heap.heapTop ∧
    ((l₁ = fl ∧ b.1 = s.heap.heapTop ∧ b.2 = a + padding a ∧ tailMeets s.heap = false) ∨
      (s₁.heap.size b.1 = b.2 ∧ ∃ n ≤ b.2, fl = l₁ ++ [(b.1, n)] ∧
        b.1 + headerSize + n = s.heap.heapTop))

/-- What `kmalloc` does: it takes from a block of the list, it grows the heap and takes from the
fresh block, or it gets no pages or only some. -/
def Outcome (s : State) (fl : List Block) (f : Frames) (size : ℕ) (r : Option (Heap × ℕ)) : Prop :=
  (∃ h', r = some (h', 0) ∧ Inv ⟨h', s.issued⟩ fl ∧
    firstFit s.heap (alignUp size 16) s.heap.fuel .head = some none ∧
    heapGrow s.heap f (headerSize + alignUp size 16) = (h', false)) ∨
  ∃ s₁ h' l₁ b l₂ mid, r = some (h', b.1 + headerSize) ∧ Taken s₁ h' b (alignUp size 16) mid ∧
    Inv ⟨h', ⟨b.1, size, true⟩ :: s.issued⟩ (l₁ ++ (mid ++ l₂)) ∧
    ((s₁ = s ∧ fl = l₁ ++ b :: l₂) ∨ (l₂ = [] ∧ Fresh s s₁ fl l₁ b (alignUp size 16) ∧
      firstFit s.heap (alignUp size 16) s.heap.fuel .head = some none))

theorem growAlloc_inv (h : Inv s fl) (h0 : 0 < size) (h1 : size < 2 ^ 63)
    (hwrap : s.heap.heapTop + headerSize + alignUp size 16 + pageSize ≤ 2 ^ 64)
    (hpad : tailMeets s.heap = false → padding (alignUp size 16) ≠ 0 ∧
      padding (alignUp size 16) ≠ 16 ∧
      (padding (alignUp size 16) = 32 → f.word (s.heap.heapTop + 16) = 0))
    (hscan : firstFit s.heap (alignUp size 16) s.heap.fuel .head = some none) :
    Outcome s fl f size (growAlloc s.heap f (alignUp size 16)) := by
  obtain ⟨ha1, ha2, ha3, ha4⟩ := alignUp_spec h0 h1
  have hneed : (headerSize + alignUp size 16) % 2 ^ 64 = headerSize + alignUp size 16 := by
    unfold headerSize pageSize at *
    omega
  have hspec := heapGrow_spec (f := f) h.top_aligned h.top_hi
    (by omega : s.heap.heapTop + (headerSize + alignUp size 16) + pageSize ≤ 2 ^ 64)
  unfold growAlloc
  rw [hneed]
  rcases hr : heapGrow s.heap f (headerSize + alignUp size 16) with ⟨h', ok⟩
  rw [hr] at hspec
  obtain ⟨hg, hmax, hok⟩ := hspec
  dsimp only at hg hmax hok
  cases ok with
  | false => exact Or.inl ⟨h', rfl, h.grow hg hmax, hscan, hr⟩
  | true =>
    have htop : h'.heapTop = s.heap.heapTop + headerSize +
        (alignUp size 16 + padding (alignUp size 16)) := by
      have := hok rfl
      unfold padding headerSize pageSize at *
      omega
    have hmax' := hmax
    unfold kheapMax at hmax'
    have hbsz : sub64 (sub64 h'.heapTop s.heap.heapTop) headerSize =
        alignUp size 16 + padding (alignUp size 16) := by
      unfold sub64 headerSize at *
      omega
    simp only [hbsz]
    obtain ⟨n, hn⟩ : ∃ n, n = alignUp size 16 + padding (alignUp size 16) := ⟨_, rfl⟩
    rw [← hn] at htop ⊢
    have hsizes : ∀ i ∈ s.issued, h'.size i.addr = s.heap.size i.addr := by
      intro i hi
      have hr' := h.issued_range hi
      have hend := (h.issued i hi).2.2.2.2
      exact hg.old _ (by unfold headerSize at hr'; omega)
    rcases List.eq_nil_or_concat fl with rfl | ⟨l₁, t, rfl⟩
    · have hhead : s.heap.head = 0 := h.seg
      obtain ⟨hp0, hp16, hp32⟩ := hpad (by simp [tailMeets, hhead])
      have hnull : h'.next s.heap.heapTop = f.word (s.heap.heapTop + 16) :=
        hg.new _ (by omega) (by unfold headerSize at *; omega)
      have hfresh := h.hole_fresh hg hmax htop.symm (by omega)
      obtain ⟨h'', mid, he, htaken, hinv⟩ := takeFresh_inv hfresh h0 h1 (by dsimp only; omega)
        (by dsimp only; omega) (by dsimp only; omega)
        (fun h32 => hnull.trans (hp32 (by dsimp only at h32; omega)))
      rw [if_pos (hg.head.trans hhead)]
      exact Or.inr ⟨_, h'', _, _, _, mid, congrArg some he, htaken, hinv, Or.inr ⟨rfl,
        ⟨rfl, hsizes, htop.symm, Or.inl ⟨rfl, rfl, hn, by simp [tailMeets, hhead]⟩⟩, hscan⟩⟩
    · rw [List.concat_eq_append] at h
      have hgrown := h.grow hg hmax
      have hsize : h'.size t.1 = t.2 := (hgrown.headers t (by simp)).1
      have hfree : h'.free t.1 = true := decide_eq_true (hgrown.headers t (by simp)).2
      obtain ⟨-, -, ht16, -, htend⟩ := h.block t (by simp)
      rw [if_neg hgrown.head_ne, hgrown.tailLink_eq]
      have hlink : h'.link (lastLink l₁) = t.1 := hgrown.link_eq
      by_cases hmeets : t.1 + headerSize + t.2 = s.heap.heapTop
      · have hopen := h.hole_merge hg hmax hmeets (n := t.2 + (headerSize + n)) (by omega)
          (t.2 + (headerSize + n))
        have hbig : alignUp size 16 + 48 ≤ t.2 + (headerSize + n) := by
          unfold headerSize
          omega
        obtain ⟨h'', mid, he, htaken, hinv⟩ := takeFresh_inv hopen h0 h1 (by dsimp only; omega)
          (by dsimp only; omega) (by dsimp only; omega)
          (fun h32 => absurd h32 (by dsimp only; omega))
        have hmerged : ∀ i ∈ s.issued,
            (h'.setSize t.1 (t.2 + (headerSize + n))).size i.addr = s.heap.size i.addr := by
          intro i hi
          have hap := h.apart_issued (List.mem_append_right _ (List.mem_singleton.mpr rfl)) hi
          have hr' := h.issued_range hi
          rw [Heap.size, Heap.setSize_mem, if_neg (by unfold headerSize at *; omega)]
          exact hsizes i hi
        have hplace : placeFresh h' (lastLink l₁) s.heap.heapTop n = _ :=
          placeFresh_merge hlink hfree hsize hmeets (by omega)
        have hself : (h'.setSize t.1 (t.2 + (headerSize + n))).size t.1 = t.2 + (headerSize + n) := by
          rw [Heap.size, Heap.setSize_mem, if_pos rfl]
        dsimp only
        rw [hplace]
        exact Or.inr ⟨_, h'', _, _, _, mid, congrArg some he, htaken, hinv, Or.inr ⟨rfl,
          ⟨rfl, hmerged, by dsimp only [Heap.setSize_heapTop]; omega,
            Or.inr ⟨hself, t.2, Nat.le_add_right _ _, by simp, hmeets⟩⟩, hscan⟩⟩
      · obtain ⟨hp0, hp16, hp32⟩ := hpad (by
          rw [Bool.eq_false_iff]
          exact fun hm => hmeets (h.tailMeets_iff.mp hm))
        have hopen := (h.hole_fresh hg hmax htop.symm (by omega)).setLink s.heap.heapTop
        rw [lastLink_concat] at hopen
        have hnull : (h'.setNext t.1 s.heap.heapTop).next s.heap.heapTop =
            f.word (s.heap.heapTop + 16) := by
          rw [Heap.next, Heap.setNext_mem, if_neg (by unfold headerSize at *; omega)]
          exact hg.new _ (by omega) (by unfold headerSize at *; omega)
        obtain ⟨h'', mid, he, htaken, hinv⟩ := takeFresh_inv hopen h0 h1 (by dsimp only; omega)
          (by dsimp only; omega) (by dsimp only; omega)
          (fun h32 => hnull.trans (hp32 (by dsimp only at h32; omega)))
        rw [lastLink_concat] at he
        have hlinked : ∀ i ∈ s.issued,
            (h'.setNext t.1 s.heap.heapTop).size i.addr = s.heap.size i.addr := by
          intro i hi
          have hap := h.apart_issued (List.mem_append_right _ (List.mem_singleton.mpr rfl)) hi
          have hr' := h.issued_range hi
          rw [Heap.size, Heap.setNext_mem, if_neg (by unfold headerSize at *; omega)]
          exact hsizes i hi
        have hplace : placeFresh h' (lastLink l₁) s.heap.heapTop n = _ :=
          placeFresh_append hlink hsize hmeets (by omega)
        dsimp only
        rw [hplace]
        refine Or.inr ⟨_, h'', _, _, _, mid, congrArg some he, htaken, hinv, Or.inr ⟨rfl,
          ⟨rfl, hlinked, htop.symm, Or.inl ⟨by simp, rfl, hn, ?_⟩⟩, hscan⟩⟩
        rw [Bool.eq_false_iff]
        exact fun hm => hmeets (h.tailMeets_iff.mp hm)

theorem kmalloc_inv (h : Inv s fl) (h0 : 0 < size) (h1 : size < 2 ^ 63)
    (hg : NoNearMiss s.heap (alignUp size 16) f
      (firstFit s.heap (alignUp size 16) s.heap.fuel .head)) :
    Outcome s fl f size (kmalloc s.heap f size) := by
  have hnil : Seg s.heap.mem s.heap.head [] (s.heap.link (lastLink [])) := rfl
  have hscan := firstFit_spec (alignUp size 16) hnil h.seg h.headers h.length_lt_fuel
  rw [lastLink_nil] at hscan
  unfold kmalloc
  rw [if_neg (Nat.pos_iff_ne_zero.mp h0)]
  rcases hscan with ⟨he, -⟩ | ⟨l₁, b, l₂, rfl, hfit, he⟩
  · rw [he] at hg
    simp only [he]
    exact growAlloc_inv h h0 h1 hg.1 hg.2 he
  · have hsize : s.heap.size b.1 = b.2 := (h.headers b (by simp)).1
    rw [List.nil_append] at he
    rw [he] at hg
    simp only [NoNearMiss, h.link_eq, hsize] at hg
    obtain ⟨h', mid, ht, htaken, hinv⟩ := takeFit_inv h h0 h1 hfit hg.1 hg.2
    simp only [he, ht]
    exact Or.inr ⟨s, h', l₁, b, l₂, mid, rfl, htaken, hinv, Or.inl ⟨rfl, rfl⟩⟩

end Kmalloc

end VoidOS.Kheap
