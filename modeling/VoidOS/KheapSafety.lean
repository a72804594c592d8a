import VoidOS.KheapList

namespace VoidOS.Kheap

/-- A block `kmalloc` has handed out, by its header and the size asked for. -/
structure Issued where
  addr : ℕ
  size : ℕ
  live : Bool

def Issued.ptr (i : Issued) : ℕ := i.addr + headerSize

/-- The bytes of an issued block, with its header and its padding to 16 bytes. -/
def Issued.range (i : Issued) : ℕ × ℕ := (i.addr, i.addr + headerSize + alignUp i.size 16)

/-- The allocator with the history of what it has handed out. -/
structure State where
  heap : Heap
  issued : List Issued

inductive Op
  | kmalloc (size : ℕ) (f : Frames)
  | kfree (ptr : ℕ)
  | store (a v : ℕ)

/-- The callers' side: sizes are positive and below `2 ^ 63`, `kfree` gets a pointer
`kmalloc` returned, and stores stay inside live blocks. -/
def Legal (s : State) : Op → Prop
  | .kmalloc size _ => 0 < size ∧ size < 2 ^ 63
  | .kfree ptr => ∃ i ∈ s.issued, i.ptr = ptr
  | .store a _ => ∃ i ∈ s.issued, i.live ∧ i.ptr ≤ a ∧ a + 8 ≤ i.ptr + i.size

def step (s : State) : Op → Option State
  | .kmalloc size f =>
    match kmalloc s.heap f size with
    | none => none
    | some (h, p) =>
      some ⟨h, if p = 0 then s.issued else ⟨p - headerSize, size, true⟩ :: s.issued⟩
  | .kfree ptr =>
    match kfree s.heap ptr with
    | none => none
    | some h => some ⟨h, s.issued.map fun i => if i.ptr = ptr then { i with live := false } else i⟩
  | .store a v => some { s with heap := { s.heap with mem := Function.update s.heap.mem a v } }

/-- The state `kheap_init` leaves, over any memory and any first frame. -/
def Init (s : State) : Prop := ∃ mem f, kheapInit mem f = some s.heap ∧ s.issued = []

def Safe (s : State) : Prop :=
  (∀ b ∈ s.heap.written, kheapStart ≤ b ∧ b + headerSize ≤ s.heap.heapTop) ∧
  (∀ i ∈ s.issued, i.ptr % 16 = 0 ∧ kheapStart ≤ i.ptr ∧ i.ptr + i.size ≤ s.heap.heapTop) ∧
  ∃ fl : List Block, Seg s.heap.mem s.heap.head fl 0 ∧
    (∀ b ∈ fl, s.heap.size b.1 = b.2 ∧ kheapStart ≤ b.1 ∧ b.1 + headerSize + b.2 ≤ s.heap.heapTop) ∧
    (fl.map Block.range ++ (s.issued.filter Issued.live).map Issued.range).Pairwise Apart

/-- The bytes a fresh block has beyond `size`, from rounding the growth up to pages. -/
def padding (size : ℕ) : ℕ := (pageSize - (headerSize + size) % pageSize) % pageSize

/-- The last block of the free list is free and ends at `heap_top`. -/
def tailMeets (h : Heap) : Bool :=
  h.head ≠ 0 && match tailLink h h.fuel .head with
    | none => false
    | some slot => h.free (h.link slot) &&
        (h.link slot + headerSize + h.size (h.link slot) = h.heapTop : Bool)

/-- Neighbours on the list from `p` are neighbours in memory. -/
def contiguous (h : Heap) : ℕ → ℕ → Bool
  | 0, _ => true
  | n + 1, p => p = 0 || h.next p = 0 ||
      (p + headerSize + h.size p = h.next p : Bool) && contiguous h n (h.next p)

/-- The condition under which `kmalloc` keeps the heap safe, by what its scan finds: a
block that is taken is not within 16 bytes of the size asked for, the growth target does
not wrap, and a fresh block that is popped whole has a null link word. -/
def NoNearMiss (h : Heap) (size : ℕ) (f : Frames) : Option (Option Link) → Prop
  | none => True
  | some (some scan) => h.size (h.link scan) ≠ size ∧ h.size (h.link scan) ≠ size + 16
  | some none =>
    h.heapTop + headerSize + size + pageSize ≤ 2 ^ 64 ∧
    (tailMeets h = false → padding size ≠ 0 ∧ padding size ≠ 16 ∧
      (padding size = 32 → f.word (h.heapTop + 16) = 0))

/-- The condition under which a call keeps the heap safe. `kfree` needs the blocks that
`coalesce` merges to be adjacent. -/
def Good (s : State) : Op → Prop
  | .kmalloc size f =>
    NoNearMiss s.heap (alignUp size 16) f
      (firstFit s.heap (alignUp size 16) s.heap.fuel .head)
  | .kfree ptr => s.heap.free (ptr - headerSize) = true ∨ contiguous s.heap s.heap.fuel s.heap.head
  | .store _ _ => True

theorem good_kmalloc (s : State) (size : ℕ) (f : Frames) :
    Good s (.kmalloc size f) = NoNearMiss s.heap (alignUp size 16) f
      (firstFit s.heap (alignUp size 16) s.heap.fuel .head) := rfl

/-- The ranges of the heap: the blocks `fl` and the issued blocks are aligned, inside
the mapped range and pairwise apart, and an issued block's mark says whether it is live. -/
structure Layout (s : State) (fl : List Block) : Prop where
  written : ∀ a ∈ s.heap.written, kheapStart ≤ a ∧ a + headerSize ≤ s.heap.heapTop
  top_lo : kheapStart + pageSize ≤ s.heap.heapTop
  top_hi : s.heap.heapTop ≤ kheapMax
  top_aligned : s.heap.heapTop % pageSize = 0
  block : ∀ b ∈ fl, b.1 % 16 = 0 ∧ b.2 % 16 = 0 ∧ 16 ≤ b.2 ∧ kheapStart ≤ b.1 ∧
    b.1 + headerSize + b.2 ≤ s.heap.heapTop
  issued : ∀ i ∈ s.issued, i.addr % 16 = 0 ∧ 0 < i.size ∧ i.size < 2 ^ 63 ∧ kheapStart ≤ i.addr ∧
    i.range.2 ≤ s.heap.heapTop
  mark : ∀ i ∈ s.issued, s.heap.free i.addr = !i.live
  apart : (fl.map Block.range ++ s.issued.map Issued.range).Pairwise Apart

/-- The representation invariant: the free list in memory is `fl`. -/
structure Inv (s : State) (fl : List Block) : Prop extends Layout s fl where
  seg : Seg s.heap.mem s.heap.head fl 0
  headers : Headers s.heap.mem fl

theorem alignUp_spec {size : ℕ} (h0 : 0 < size) (h : size < 2 ^ 63) :
    size ≤ alignUp size 16 ∧ alignUp size 16 < size + 16 ∧ alignUp size 16 % 16 = 0 ∧
      16 ≤ alignUp size 16 := by
  unfold alignUp
  omega

theorem Inv.safe {s : State} {fl : List Block} (h : Inv s fl) : Safe s := by
  refine ⟨h.written, fun i hi => ?_, fl, h.seg, fun b hb => ?_, ?_⟩
  · obtain ⟨ha, h0, hs, hl, ht⟩ := h.issued i hi
    have hsz := alignUp_spec h0 hs
    unfold Issued.range at ht
    unfold Issued.ptr headerSize at *
    dsimp only at ht
    omega
  · obtain ⟨-, -, -, hl, ht⟩ := h.block b hb
    exact ⟨(h.headers b hb).1, hl, ht⟩
  · exact List.Pairwise.sublist ((List.Sublist.refl _).append (List.filter_sublist.map _)) h.apart

theorem nodup_of_apart {l : List Block} (h : (l.map Block.range).Pairwise Apart) :
    (l.map Prod.fst).Nodup := by
  rw [List.pairwise_map] at h
  apply List.pairwise_map.mpr
  refine h.imp fun {a b} hab he => ?_
  unfold Apart Block.range headerSize at hab
  dsimp only at hab
  omega

theorem Inv.length_lt_fuel {s : State} {fl : List Block} (h : Inv s fl) :
    fl.length < s.heap.fuel := by
  have hnd : (fl.map Prod.fst).Nodup := nodup_of_apart (List.pairwise_append.mp h.apart).1
  let g : Block → ℕ := fun b => (b.1 - kheapStart) / 16
  have hg : (fl.map g).Nodup := by
    rw [List.nodup_map_iff_inj_on (List.Nodup.of_map _ hnd)]
    intro a ha b hb he
    obtain ⟨ha1, -, -, ha4, -⟩ := h.block a ha
    obtain ⟨hb1, -, -, hb4, -⟩ := h.block b hb
    have hab : a.1 = b.1 := by
      dsimp only [g] at he
      unfold kheapStart at *
      omega
    exact List.inj_on_of_nodup_map hnd ha hb hab
  have hsub : fl.map g ⊆ List.range ((s.heap.heapTop - kheapStart) / 16) := by
    intro x hx
    obtain ⟨b, hb, rfl⟩ := List.mem_map.mp hx
    obtain ⟨hb1, -, hb3, hb4, hb5⟩ := h.block b hb
    rw [List.mem_range]
    dsimp only [g]
    unfold headerSize at hb5
    omega
  have hle := (List.subperm_of_subset hg hsub).length_le
  rw [List.length_map, List.length_range] at hle
  unfold Heap.fuel
  omega

end VoidOS.Kheap
