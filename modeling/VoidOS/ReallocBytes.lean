import VoidOS.MallocBytes

namespace VoidOS.Malloc

open ByteMem LinkedList Transition

/-- A `realloc` of `x` to `n` bytes that returns a block carries over the bytes that both sizes
have; one that refuses leaves `x` live with all its bytes. The other blocks stay as they are. -/
def Preserves (s : State) (x : Allocation) (ans : Answer) (n : ℕ) : Prop :=
  ∀ h' q, realloc s.heap ans x.ptr n = .ok (h', q) →
    (∀ y ∈ s.live, y.ptr ≠ x.ptr → ∀ i < y.req, h'.mem (y.ptr + i) = s.heap.mem (y.ptr + i)) ∧
    (q ≠ 0 → ∀ i < min x.req n, h'.mem (q + i) = s.heap.mem (x.ptr + i)) ∧
    (q = 0 → HeapOk ⟨h', s.live⟩ ∧ ∀ i < x.req, h'.mem (x.ptr + i) = s.heap.mem (x.ptr + i))

/-- `realloc` to `n` bytes gives up a tail of the block of `x`. -/
def SplitsTail (s : State) (x : Allocation) (n : ℕ) : Prop :=
  x.mapped = false ∧ sizeToNeed n ≠ 0 ∧ sizeToNeed n + minBlock ≤ s.heap.size x.base

section Contents

variable {s : State} {h' : Heap} {x : Allocation} {ans : Answer} {n : ℕ} {m : Mem}

/-- The in-place part of `realloc` changes the payload only where a split puts the footer. -/
theorem shrink_bytes (hi : Inv s) (hx : x ∈ s.live) (hneed : sizeToNeed n ≠ 0)
    (hfit : sizeToNeed n ≤ s.heap.size x.base)
    (hfoot : SplitsTail s x n → min x.req n + 2 * headerSz ≤ sizeToNeed n) :
    ∀ i < min x.req n, (shrinkBlock s.heap x.base (sizeToNeed n)).mem (x.ptr + i) =
      s.heap.mem (x.ptr + i) := by
  intro i hlt
  by_cases hxm : x.mapped = true
  · rw [(hi.maps x hx hxm).shrink_eq]
  obtain ⟨h16, h48, hq, -, -⟩ := sizeToNeed_spec hneed
  obtain ⟨H, harena, howns⟩ := hi.arena
  obtain ⟨t, hb, hp, -⟩ := howns.block hx hxm
  have hsize := (harena.held hb).2.2.2.2.2.2.1
  by_cases hsplit : sizeToNeed n + minBlock ≤ s.heap.size x.base
  · -- the bytes that count lie before the footer
    have hfoot := hfoot ⟨(Bool.not_eq_true _).mp hxm, hneed, hsplit⟩
    obtain ⟨-, -, hbytes, -⟩ := shrinkBlock_inv harena hb h16 h48 (hsize ▸ hfit) hq
    unfold headerSz at *
    exact hbytes _ (by omega) (by omega)
  · have hlt := word_lt s.heap.mem x.base
    rw [shrinkBlock, sub64_of_le hfit hlt, if_neg (by omega)]

/-- The footer of a split: the word 16 bytes before the new end holds the new size. -/
theorem shrink_foot (hi : Inv s) (hx : x ∈ s.live) (hsplit : SplitsTail s x n) :
    word (shrinkBlock s.heap x.base (sizeToNeed n)).mem (x.base + sizeToNeed n - 16) =
      sizeToNeed n := by
  obtain ⟨hxm, hneed, hroom⟩ := hsplit
  obtain ⟨h16, h48, hq, -, -⟩ := sizeToNeed_spec hneed
  obtain ⟨H, harena, howns⟩ := hi.arena
  obtain ⟨t, hb, -, -⟩ := howns.block hx (by simp [hxm])
  have hsize := (harena.held hb).2.2.2.2.2.2.1
  obtain ⟨-, -, -, hfoot⟩ := shrinkBlock_inv harena hb h16 h48 (by omega) hq
  exact hfoot (by omega)

/-- A `realloc` whose footer, if it stores one, misses the bytes that count. -/
theorem preserves_of_foot (hi : Inv s) (hx : x ∈ s.live) (hn : n ≠ 0)
    (hcall : CallOk s.heap ans n) (hroom : Room s n)
    (hfoot : SplitsTail s x n → min x.req n + 2 * headerSz ≤ sizeToNeed n) :
    Preserves s x ans n := by
  intro h' q heq
  have hkeep := realloc_keeps hi hx hn hcall hroom heq
  refine ⟨fun y hy hne i hlt => ?_, ?_⟩
  · exact hkeep.bytes y (mem_without.mpr ⟨hy, hne⟩) _ (by omega) (by omega)
  have hpos := (hi.ptr_lt hx).1
  rcases realloc_cases hi hx hn heq with ⟨rfl, rfl⟩ | ⟨hneed, hfit, rfl, rfl⟩ |
    ⟨-, rfl, hnew⟩ | ⟨hgrow, hq, h₁, hnew, hf⟩
  · exact ⟨fun hc => absurd rfl hc, fun _ => ⟨hi.heapOk, fun _ _ => rfl⟩⟩
  · exact ⟨fun _ => shrink_bytes hi hx hneed hfit hfoot, fun hc => by omega⟩
  · -- `malloc` refused
    refine ⟨fun hc => absurd rfl hc, fun _ => ⟨?_, fun i hlt => ?_⟩⟩
    · exact (malloc_inv hi hcall hroom hnew).1.heapOk
    · exact (malloc_keeps hi hcall hroom hnew).bytes x hx _ (by omega) (by omega)
  · have hcopied := (move_keeps hi hx hcall hroom hgrow hq hnew hf).2
    exact ⟨fun _ i hlt => hcopied i (by omega), fun hc => absurd hc hq⟩

/-- A split whose footer lands in the bytes that count loses the byte there, unless it held the
low byte of the new size before. -/
theorem lost_byte (hi : Inv s) (hb : Backed s.heap) (hx : x ∈ s.live) (hn : n ≠ 0)
    (hsplit : SplitsTail s x n) (hshort : sizeToNeed n < min x.req n + 2 * headerSz)
    (hbyte : (s.heap.mem (x.base + sizeToNeed n - 16)).toNat ≠ sizeToNeed n % 256) :
    ¬ Preserves s x ans n := by
  intro hpres
  have hfoot := shrink_foot hi hx hsplit
  obtain ⟨-, hneed, hroom⟩ := hsplit
  obtain ⟨-, h48, -, -, -⟩ := sizeToNeed_spec hneed
  obtain ⟨hpos, -⟩ := hi.ptr_lt hx
  have heq : realloc s.heap ans x.ptr n =
      .ok (shrinkBlock s.heap x.base (sizeToNeed n), x.ptr) := by
    rw [realloc_eq hi hx hn, if_neg (not_not.mpr (hi.mapped_base hb hx)), if_neg hneed,
      if_pos (by omega)]
  obtain ⟨-, hsame, -⟩ := hpres _ _ heq
  have hptr : x.ptr = x.base + headerSz := by
    unfold Allocation.base
    omega
  unfold headerSz at *
  have hsame := hsame (by omega) (sizeToNeed n - 32) (by omega)
  have haddr : x.ptr + (sizeToNeed n - 32) = x.base + sizeToNeed n - 16 := by omega
  rw [haddr] at hsame
  apply hbyte
  rw [← hsame, toNat_of_word, hfoot]

/-- `realloc` preserves the contents, whatever they are, if and only if it does not split the
block or the bytes that count end before the last 16 of the block that stays. -/
theorem realloc_preserves_iff (h : Reach step (fun s op => Legal s op ∧ Tame s op) Init s)
    (hx : x ∈ s.live) (hn : n ≠ 0) (hl : Legal s (.realloc ans x.ptr n))
    (ht : Tame s (.realloc ans x.ptr n)) :
    (∀ m : Mem, (∀ a, (a < x.ptr ∨ x.ptr + x.req ≤ a) → m a = s.heap.mem a) →
      Preserves ⟨s.heap.setMem m, s.live⟩ x ans n) ↔
    (SplitsTail s x n → min x.req n + 2 * headerSz ≤ sizeToNeed n) := by
  obtain ⟨hi, hb⟩ := reach_backed h
  obtain ⟨-, -, hcall⟩ := hl
  have hptr : x.ptr = x.base + headerSz := by
    have := (hi.ptr_lt hx).1
    unfold Allocation.base
    omega
  -- what `x` holds is of no matter to the invariant, nor to the size of its block
  have hinv : ∀ m : Mem, (∀ a, (a < x.ptr ∨ x.ptr + x.req ≤ a) → m a = s.heap.mem a) →
      Inv ⟨s.heap.setMem m, s.live⟩ := fun m hm => hi.write fun a ha => hm a (ha x hx)
  have hsize : ∀ m : Mem, (∀ a, (a < x.ptr ∨ x.ptr + x.req ≤ a) → m a = s.heap.mem a) →
      (s.heap.setMem m).size x.base = s.heap.size x.base := by
    intro m hm
    apply word_congr
    intro a hlo hhi
    exact hm a (Or.inl (by unfold headerSz at hptr; omega))
  constructor
  · intro hall hsplit
    by_contra hshort
    obtain ⟨hxm, hneed, hroom⟩ := hsplit
    obtain ⟨-, h48, -, -, -⟩ := sizeToNeed_spec hneed
    have hm : ∀ a, (a < x.ptr ∨ x.ptr + x.req ≤ a) →
        Function.update s.heap.mem (x.base + sizeToNeed n - 16) (UInt8.ofNat (sizeToNeed n + 1)) a =
          s.heap.mem a := by
      intro a ha
      apply Function.update_of_ne
      unfold headerSz at *
      omega
    apply lost_byte (hinv _ hm) hb hx hn ⟨hxm, hneed, (hsize _ hm).symm ▸ hroom⟩ (by omega)
    · dsimp only [Heap.setMem]
      rw [Function.update_self, UInt8.toNat_ofNat']
      omega
    · exact hall _ hm
  · intro hfoot m hm
    apply preserves_of_foot (hinv m hm) hx hn hcall ht.1
    rintro ⟨hxm, hneed, hroom⟩
    exact hfoot ⟨hxm, hneed, (hsize m hm) ▸ hroom⟩

/-- A block that grows moves with whatever it holds. -/
theorem realloc_grow_preserves : ∃ s : State, ⟨0x401010, 24, false⟩ ∈ s.live ∧
    ∀ m : Mem, (∀ a, (a < 0x401010 ∨ 0x401010 + 24 ≤ a) → m a = s.heap.mem a) →
      Preserves ⟨s.heap.setMem m, s.live⟩ ⟨0x401010, 24, false⟩ ⟨0, -1⟩ 100 := by
  have hrun : (runIf step (fun s op => Legal s op ∧ Tame s op) emptyProcess
      [.malloc ⟨1, -1⟩ 24]).map (fun s => (decide (⟨0x401010, 24, false⟩ ∈ s.live),
        decide (Legal s (.realloc ⟨0, -1⟩ 0x401010 100) ∧
          Tame s (.realloc ⟨0, -1⟩ 0x401010 100)), s.heap.size 0x401000)) =
      some (true, true, 48) := by
    decide +kernel
  obtain ⟨s, hs, hrun⟩ := Option.map_eq_some_iff.mp hrun
  simp only [Prod.mk.injEq, decide_eq_true_eq] at hrun
  obtain ⟨hmem, ⟨hl, ht⟩, hsize⟩ := hrun
  refine ⟨s, hmem, (realloc_preserves_iff ((Reach.init emptyProcess_init).runIf hs) hmem
    (by decide) hl ht).mpr ?_⟩
  rintro ⟨-, hneed, hroom⟩
  have hbase : (⟨0x401010, 24, false⟩ : Allocation).base = 0x401000 := by decide
  have h48 := (sizeToNeed_spec hneed).2.1
  rw [hbase, hsize] at hroom
  unfold minBlock at hroom
  omega

/-- A block of 100 bytes that shrinks to 24 loses what the program stored at offset 16. -/
theorem realloc_shrink_loses : ∃ s, Reach step (fun s op => Legal s op ∧ Tame s op) Init s ∧
    ⟨0x401010, 100, false⟩ ∈ s.live ∧ ¬ Preserves s ⟨0x401010, 100, false⟩ ⟨0, -1⟩ 24 := by
  have hrun : ((runIf step (fun s op => Legal s op ∧ Tame s op) emptyProcess
      [.malloc ⟨1, -1⟩ 100, .store 0x401020 7]).bind fun s =>
      (realloc s.heap ⟨0, -1⟩ 0x401010 24).toOption.map fun r =>
        (decide (⟨0x401010, 100, false⟩ ∈ s.live), s.heap.mem (0x401010 + 16), r.2,
          r.1.mem (0x401010 + 16))) = some (true, 7, 0x401010, 48) := by
    decide +kernel
  obtain ⟨s, hs, hrun⟩ := Option.bind_eq_some_iff.mp hrun
  obtain ⟨⟨h', q⟩, heq, hrun⟩ := toOption_map_eq_some hrun
  simp only [Prod.mk.injEq, decide_eq_true_eq] at hrun
  obtain ⟨hmem, hold, rfl, hnew⟩ := hrun
  refine ⟨s, (Reach.init emptyProcess_init).runIf hs, hmem, fun hpres => ?_⟩
  have hsame := (hpres _ _ heq).2.1 (by decide) 16 (by decide)
  rw [hold, hnew] at hsame
  exact absurd hsame (by decide)

end Contents

end VoidOS.Malloc
