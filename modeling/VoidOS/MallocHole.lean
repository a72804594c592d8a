import VoidOS.MallocTiles

namespace VoidOS.Malloc

open ByteMem LinkedList

namespace Heap

variable {h : Heap} {n x v : ℕ} {m : Mem}

@[simp] theorem setMem_mem : (h.setMem m).mem = m := rfl
@[simp] theorem setMem_aStart : (h.setMem m).aStart = h.aStart := rfl
@[simp] theorem setMem_aEnd : (h.setMem m).aEnd = h.aEnd := rfl
@[simp] theorem setMem_freeHead : (h.setMem m).freeHead = h.freeHead := rfl

/-- The forward links with the head pointer as the link of node 0. -/
def fwd (h : Heap) (n : ℕ) : ℕ := if n = 0 then h.freeHead else h.next n

theorem fwd_of_ne (hn : n ≠ 0) : h.fwd n = h.next n := if_neg hn

theorem next_setNext_self (hv : v < 2 ^ 64) : (h.setNext n v).next n = v := word_setWord_self hv

theorem next_setNext_of_ne (hn : 16 ∣ n) (hx : 16 ∣ x) (hne : x ≠ n) :
    (h.setNext n v).next x = h.next x :=
  word_setWord_of_disjoint (by omega)

theorem next_setPrev (hn : 16 ∣ n) (hx : 16 ∣ x) : (h.setPrev n v).next x = h.next x :=
  word_setWord_of_disjoint (by omega)

theorem prev_setPrev_self (hv : v < 2 ^ 64) : (h.setPrev n v).prev n = v := word_setWord_self hv

theorem prev_setPrev_of_ne (hn : 16 ∣ n) (hx : 16 ∣ x) (hne : x ≠ n) :
    (h.setPrev n v).prev x = h.prev x :=
  word_setWord_of_disjoint (by omega)

theorem prev_setNext (hn : 16 ∣ n) (hx : 16 ∣ x) : (h.setNext n v).prev x = h.prev x :=
  word_setWord_of_disjoint (by omega)

theorem setNext_apply (hx : x < n ∨ n + 16 ≤ x) : (h.setNext n v).mem x = h.mem x :=
  setWord_apply (by omega)

theorem setPrev_apply (hx : x < n ∨ n + 16 ≤ x) : (h.setPrev n v).mem x = h.mem x :=
  setWord_apply (by omega)

theorem size_setSize_self (hv : v < 2 ^ 64) : (h.setSize n v).size n = v := word_setWord_self hv

theorem size_setSize_of (hx : x + 8 ≤ n ∨ n + 8 ≤ x) : (h.setSize n v).size x = h.size x :=
  word_setWord_of_disjoint hx

theorem flags_setSize (hx : x + 16 ≤ n ∨ n ≤ x) : (h.setSize n v).flags x = h.flags x :=
  word_setWord_of_disjoint (by omega)

theorem size_setFlags (hx : x ≤ n ∨ n + 16 ≤ x) : (h.setFlags n v).size x = h.size x :=
  word_setWord_of_disjoint (by omega)

theorem flags_setFlags_self (hv : v < 2 ^ 64) : (h.setFlags n v).flags n = v := word_setWord_self hv

theorem flags_setFlags_of (hx : x + 8 ≤ n ∨ n + 8 ≤ x) : (h.setFlags n v).flags x = h.flags x :=
  word_setWord_of_disjoint (by omega)

theorem setSize_apply (hx : x < n ∨ n + 8 ≤ x) : (h.setSize n v).mem x = h.mem x := setWord_apply hx

theorem setFlags_apply (hx : x < n + 8 ∨ n + 16 ≤ x) : (h.setFlags n v).mem x = h.mem x :=
  setWord_apply (by omega)

def putTag (h : Heap) (b size flags : ℕ) : Heap := (h.setSize b size).setFlags b flags

section Tag

variable {b s f : ℕ}

theorem size_putTag_self (hs : s < 2 ^ 64) : (h.putTag b s f).size b = s := by
  rw [putTag, size_setFlags (Or.inl le_rfl), size_setSize_self hs]

theorem flags_putTag_self (hf : f < 2 ^ 64) : (h.putTag b s f).flags b = f :=
  flags_setFlags_self hf

theorem size_putTag_of (hx : x + 16 ≤ b ∨ b + 16 ≤ x) : (h.putTag b s f).size x = h.size x := by
  rw [putTag, size_setFlags (by omega), size_setSize_of (by omega)]

theorem flags_putTag_of (hx : x + 16 ≤ b ∨ b + 16 ≤ x) : (h.putTag b s f).flags x = h.flags x := by
  rw [putTag, flags_setFlags_of (by omega), flags_setSize (by omega)]

theorem putTag_apply (hx : x < b ∨ b + 16 ≤ x) : (h.putTag b s f).mem x = h.mem x := by
  rw [putTag, setFlags_apply (by omega), setSize_apply (by omega)]

end Tag

/-- Stores a forward link; that of node 0 is the head pointer. -/
def setFwd (h : Heap) (n v : ℕ) : Heap :=
  if n ≠ 0 then h.setNext n v else { h with freeHead := v }

def setBack (h : Heap) (n v : ℕ) : Heap := if n ≠ 0 then h.setPrev n v else h

theorem setFwd_of_ne (hn : n ≠ 0) : h.setFwd n v = h.setNext n v := if_pos hn

theorem setBack_of_ne (hn : n ≠ 0) : h.setBack n v = h.setPrev n v := if_pos hn

theorem fwd_setFwd (hn : 16 ∣ n) (hx : 16 ∣ x) (hv : v < 2 ^ 64) :
    (h.setFwd n v).fwd x = if x = n then v else h.fwd x := by
  by_cases hn0 : n = 0
  · subst hn0
    by_cases hx0 : x = 0 <;> simp [setFwd, fwd, hx0, next]
  · rw [setFwd, if_pos hn0]
    by_cases hxn : x = n
    · rw [if_pos hxn, hxn, fwd_of_ne hn0, next_setNext_self hv]
    · rw [if_neg hxn, fwd, fwd, next_setNext_of_ne hn hx hxn]
      rfl

theorem prev_setFwd (hn : 16 ∣ n) (hx : 16 ∣ x) : (h.setFwd n v).prev x = h.prev x := by
  unfold setFwd
  split
  · exact prev_setNext hn hx
  · rfl

theorem fwd_setBack (hn : 16 ∣ n) (hx : 16 ∣ x) : (h.setBack n v).fwd x = h.fwd x := by
  unfold setBack
  split
  · rw [fwd, fwd, next_setPrev hn hx]
    rfl
  · rfl

theorem prev_setBack (hn : 16 ∣ n) (hx : 16 ∣ x) (hx0 : x ≠ 0) (hv : v < 2 ^ 64) :
    (h.setBack n v).prev x = if x = n then v else h.prev x := by
  unfold setBack
  by_cases hxn : x = n
  · subst hxn
    rw [if_pos hx0, if_pos rfl, prev_setPrev_self hv]
  · rw [if_neg hxn]
    split
    · exact prev_setPrev_of_ne hn hx hxn
    · rfl

theorem setFwd_apply (hx : n ≠ 0 → x < n ∨ n + 16 ≤ x) : (h.setFwd n v).mem x = h.mem x := by
  unfold setFwd
  split
  · exact setNext_apply (hx ‹_›)
  · rfl

theorem setBack_apply (hx : n ≠ 0 → x < n ∨ n + 16 ≤ x) : (h.setBack n v).mem x = h.mem x := by
  unfold setBack
  split
  · exact setPrev_apply (hx ‹_›)
  · rfl

end Heap

/-- Everything but the memory and the list head is kept. -/
structure SameStatics (h h' : Heap) : Prop where
  aStart : h'.aStart = h.aStart
  aEnd : h'.aEnd = h.aEnd
  present : h'.present = h.present
  heapStart : h'.heapStart = h.heapStart
  brkCurrent : h'.brkCurrent = h.brkCurrent
  brkCache : h'.brkCache = h.brkCache

theorem SameStatics.refl (h : Heap) : SameStatics h h := ⟨rfl, rfl, rfl, rfl, rfl, rfl⟩

theorem SameStatics.trans {h h' h'' : Heap} (h₁ : SameStatics h h') (h₂ : SameStatics h' h'') :
    SameStatics h h'' :=
  ⟨h₂.1.trans h₁.1, h₂.2.trans h₁.2, h₂.3.trans h₁.3, h₂.4.trans h₁.4, h₂.5.trans h₁.5,
    h₂.6.trans h₁.6⟩

theorem SameStatics.setMem (h : Heap) (m : Mem) : SameStatics h (h.setMem m) :=
  ⟨rfl, rfl, rfl, rfl, rfl, rfl⟩

theorem SameStatics.setFwd (h : Heap) (n v : ℕ) : SameStatics h (h.setFwd n v) := by
  unfold Heap.setFwd
  split <;> exact ⟨rfl, rfl, rfl, rfl, rfl, rfl⟩

theorem SameStatics.setBack (h : Heap) (n v : ℕ) : SameStatics h (h.setBack n v) := by
  unfold Heap.setBack
  split <;> exact ⟨rfl, rfl, rfl, rfl, rfl, rfl⟩

section Lists

variable {h : Heap} {n : ℕ} {k₁ k₂ fl : List ℕ}

/-- `fl_unlink` takes the node out of the list and stores to link words only. -/
theorem flUnlink_spec (hl : IsList h.fwd h.prev (k₁ ++ n :: k₂))
    (hal : ∀ k ∈ k₁ ++ n :: k₂, 16 ∣ k) :
    IsList (flUnlink h n).fwd (flUnlink h n).prev (k₁ ++ k₂) ∧ SameStatics h (flUnlink h n) ∧
      ∀ x, (∀ k ∈ k₁ ++ n :: k₂, x < k ∨ k + 16 ≤ x) → (flUnlink h n).mem x = h.mem x := by
  have hn0 : n ≠ 0 := hl.ne_zero (by simp)
  have hn : 16 ∣ n := hal n (by simp)
  have hsub : k₁ ++ k₂ ⊆ k₁ ++ n :: k₂ := ((List.sublist_cons_self n k₂).append_left k₁).subset
  have hother : ∀ k ∈ 0 :: (k₁ ++ k₂), 16 ∣ k ∧ k ≠ n := by
    intro k hk
    rcases List.mem_cons.mp hk with rfl | hk
    · exact ⟨by simp, hn0.symm⟩
    · refine ⟨hal k (hsub hk), ?_⟩
      rintro rfl
      exact (List.nodup_cons.mp (List.nodup_middle.mp hl.nodup)).1 hk
  obtain ⟨hpmem, hqmem⟩ := hl.neighbours
  obtain ⟨hp, hpn⟩ := hother _ hpmem
  obtain ⟨hq, hqn⟩ := hother _ hqmem
  have h064 : 0 < 2 ^ 64 := Nat.two_pow_pos 64
  have hp64 : h.prev n < 2 ^ 64 := word_lt _ _
  have hq64 : h.fwd n < 2 ^ 64 := by
    rw [Heap.fwd_of_ne hn0]
    exact word_lt _ _
  -- the node's own links are read after the first store, which is to another node
  have heq : flUnlink h n =
      ((((h.setFwd (h.prev n) (h.fwd n)).setBack (h.fwd n) (h.prev n)).setFwd n 0).setBack n
        0) := by
    have h₁ : (h.setFwd (h.prev n) (h.fwd n)).prev n = h.prev n := Heap.prev_setFwd hp hn
    have h₂ : (h.setFwd (h.prev n) (h.fwd n)).fwd n = h.fwd n := by
      rw [Heap.fwd_setFwd hp hn hq64, if_neg hpn.symm]
    rw [Heap.fwd_of_ne hn0, Heap.fwd_of_ne hn0] at h₂
    have h₃ : flUnlink h n = ((((h.setFwd (h.prev n) (h.next n)).setBack
        ((h.setFwd (h.prev n) (h.next n)).next n)
        ((h.setFwd (h.prev n) (h.next n)).prev n)).setNext n 0).setPrev n 0) := rfl
    rw [Heap.fwd_of_ne hn0] at h₁ ⊢
    rw [h₃, h₁, h₂, Heap.setBack_of_ne hn0, Heap.setFwd_of_ne hn0]
  rw [heq]
  refine ⟨?_, ?_, ?_⟩
  · apply hl.unlink
    · intro x hx
      obtain ⟨hx16, hxn⟩ := hother x hx
      rw [Heap.fwd_setBack hn hx16, Heap.fwd_setFwd hn hx16 h064, if_neg hxn,
        Heap.fwd_setBack hq hx16, Heap.fwd_setFwd hp hx16 hq64]
    · intro x hx
      obtain ⟨hx16, hxn⟩ := hother x (List.mem_cons_of_mem _ hx)
      have hx0 : x ≠ 0 := hl.ne_zero (hsub hx)
      rw [Heap.prev_setBack hn hx16 hx0 h064, if_neg hxn, Heap.prev_setFwd hn hx16,
        Heap.prev_setBack hq hx16 hx0 hp64, Heap.prev_setFwd hp hx16]
  · exact (((SameStatics.setFwd _ _ _).trans (SameStatics.setBack _ _ _)).trans
      (SameStatics.setFwd _ _ _)).trans (SameStatics.setBack _ _ _)
  · intro x hx
    have hnode : ∀ k ∈ 0 :: (k₁ ++ k₂), k ≠ 0 → x < k ∨ k + 16 ≤ x := by
      intro k hk hk0
      exact hx k (hsub ((List.mem_cons.mp hk).resolve_left hk0))
    have hxn : n ≠ 0 → x < n ∨ n + 16 ≤ x := fun _ => hx n (by simp)
    rw [Heap.setBack_apply hxn, Heap.setFwd_apply hxn, Heap.setBack_apply (hnode _ hqmem),
      Heap.setFwd_apply (hnode _ hpmem)]

theorem flLink_spec (hl : IsList h.fwd h.prev fl) (hal : ∀ k ∈ n :: fl, 16 ∣ k ∧ k < 2 ^ 64)
    (hn0 : n ≠ 0) (hnew : n ∉ fl) :
    IsList (flLink h n).fwd (flLink h n).prev (n :: fl) ∧ SameStatics h (flLink h n) ∧
      ∀ x, (∀ k ∈ n :: fl, x < k ∨ k + 16 ≤ x) → (flLink h n).mem x = h.mem x := by
  obtain ⟨hn, hn64⟩ := hal n (by simp)
  have h064 : 0 < 2 ^ 64 := Nat.two_pow_pos 64
  have hhead : h.fwd 0 = fl.headD 0 := hl.chain.first
  have hqmem : h.fwd 0 ≠ 0 → h.fwd 0 ∈ fl := by
    rw [hhead]
    cases fl <;> simp
  have hq : 16 ∣ h.fwd 0 ∧ h.fwd 0 < 2 ^ 64 := by
    by_cases h0 : h.fwd 0 = 0
    · rw [h0]
      exact ⟨by simp, h064⟩
    · exact hal _ (List.mem_cons_of_mem _ (hqmem h0))
  have heq : flLink h n =
      ((((h.setBack n 0).setFwd n (h.fwd 0)).setBack (h.fwd 0) n).setFwd 0 n) := by
    rw [Heap.setBack_of_ne hn0, Heap.setFwd_of_ne hn0]
    rfl
  rw [heq]
  refine ⟨?_, ?_, ?_⟩
  · have hother : ∀ x ∈ fl, x ≠ 0 ∧ x ≠ n ∧ 16 ∣ x := fun x hx =>
      ⟨hl.ne_zero hx, fun he => hnew (he ▸ hx), (hal x (List.mem_cons_of_mem _ hx)).1⟩
    have hz : 16 ∣ 0 := by simp
    apply hl.push hn0 hnew
    · rw [Heap.fwd_setFwd hz hz hn64, if_pos rfl]
    · rw [Heap.fwd_setFwd hz hn hn64, if_neg hn0, Heap.fwd_setBack hq.1 hn,
        Heap.fwd_setFwd hn hn hq.2, if_pos rfl]
    · have hqn : n ≠ h.fwd 0 := by
        intro he
        exact hnew (he ▸ hqmem (he ▸ hn0))
      rw [Heap.prev_setFwd hz hn, Heap.prev_setBack hq.1 hn hn0 hn64, if_neg hqn,
        Heap.prev_setFwd hn hn, Heap.prev_setBack hn hn hn0 h064, if_pos rfl]
    · intro x hx
      obtain ⟨hx0, hxn, hx16⟩ := hother x hx
      rw [Heap.fwd_setFwd hz hx16 hn64, if_neg hx0, Heap.fwd_setBack hq.1 hx16,
        Heap.fwd_setFwd hn hx16 hq.2, if_neg hxn, Heap.fwd_setBack hn hx16]
    · intro x hx
      obtain ⟨hx0, hxn, hx16⟩ := hother x hx
      rw [Heap.prev_setFwd hz hx16, Heap.prev_setBack hq.1 hx16 hx0 hn64,
        Heap.prev_setFwd hn hx16, Heap.prev_setBack hn hx16 hx0 h064, if_neg hxn]
  · exact (((SameStatics.setBack _ _ _).trans (SameStatics.setFwd _ _ _)).trans
      (SameStatics.setBack _ _ _)).trans (SameStatics.setFwd _ _ _)
  · intro x hx
    have hxn : n ≠ 0 → x < n ∨ n + 16 ≤ x := fun _ => hx n (by simp)
    rw [Heap.setFwd_apply (by simp), Heap.setBack_apply, Heap.setFwd_apply hxn,
      Heap.setBack_apply hxn]
    intro h0
    exact hx _ (List.mem_cons_of_mem _ (hqmem h0))

end Lists

structure SameArena (h h' : Heap) : Prop extends SameStatics h h' where
  outside : ∀ x, (x < h.aStart ∨ h.aEnd ≤ x) → h'.mem x = h.mem x

theorem SameArena.refl (h : Heap) : SameArena h h := ⟨SameStatics.refl h, fun _ _ => rfl⟩

theorem SameArena.trans {h h' h'' : Heap} (h₁ : SameArena h h') (h₂ : SameArena h' h'') :
    SameArena h h'' := by
  refine ⟨h₁.toSameStatics.trans h₂.toSameStatics, ?_⟩
  intro x hx
  rw [h₂.outside x (by rwa [h₁.aStart, h₁.aEnd]), h₁.outside x hx]

/-- Nothing changes outside the arena, nor in the quiet bytes of the tiles `l₁` at its start and
`l₂` from `e` on. -/
structure SameAround (h h' : Heap) (l₁ : List Tile) (e : ℕ) (l₂ : List Tile) : Prop
    extends SameArena h h' where
  quiet : ∀ x, Quiet h.aStart l₁ x ∨ Quiet e l₂ x → h'.mem x = h.mem x

section Around

variable {h h' h'' : Heap} {l₁ l₁' l₂ l₂' : List Tile} {e e' : ℕ}

theorem SameAround.refl (h : Heap) (l₁ : List Tile) (e : ℕ) (l₂ : List Tile) :
    SameAround h h l₁ e l₂ := ⟨SameArena.refl h, fun _ _ => rfl⟩

theorem SameAround.trans (h₁ : SameAround h h' l₁ e l₂) (h₂ : SameAround h' h'' l₁ e l₂) :
    SameAround h h'' l₁ e l₂ := by
  refine ⟨h₁.toSameArena.trans h₂.toSameArena, ?_⟩
  intro x hx
  rw [h₂.quiet x (by rwa [h₁.aStart]), h₁.quiet x hx]

theorem SameAround.mono (hs : SameAround h h' l₁ e l₂)
    (h₁ : ∀ x, Quiet h.aStart l₁' x → Quiet h.aStart l₁ x)
    (h₂ : ∀ x, Quiet e' l₂' x → Quiet e l₂ x) : SameAround h h' l₁' e' l₂' :=
  ⟨hs.toSameArena, fun x hx => hs.quiet x (hx.imp (h₁ x) (h₂ x))⟩

theorem SameAround.next {ds : List Tile} (hs : SameAround h h' l₁ e (ds ++ l₂)) :
    SameAround h h' l₁ (e + total ds) l₂ :=
  hs.mono (fun _ hx => hx) fun _ hx => quiet_append.mpr (Or.inr hx)

end Around

section Stores

variable {h : Heap} {b : ℕ}

theorem SameArena.setSize (v : ℕ) (hlo : h.aStart ≤ b) (hhi : b + 8 ≤ h.aEnd) :
    SameArena h (h.setSize b v) :=
  ⟨SameStatics.setMem _ _, fun _ _ => Heap.setSize_apply (by omega)⟩

theorem SameArena.setFlags (v : ℕ) (hlo : h.aStart ≤ b) (hhi : b + 16 ≤ h.aEnd) :
    SameArena h (h.setFlags b v) :=
  ⟨SameStatics.setMem _ _, fun _ _ => Heap.setFlags_apply (by omega)⟩

theorem SameArena.putTag (s f : ℕ) (hlo : h.aStart ≤ b) (hhi : b + 16 ≤ h.aEnd) :
    SameArena h (h.putTag b s f) :=
  ⟨SameStatics.setMem _ _, fun _ _ => Heap.putTag_apply (by omega)⟩

end Stores

/-- The arena is tiled by `ts`, and its free list is `fl`. -/
structure Whole (h : Heap) (ts : List Tile) (fl : List ℕ) : Prop where
  start : 16 ∣ h.aStart
  top : h.aEnd < 2 ^ 48
  tagged : Tagged h.mem false h.aStart ts
  span : h.aStart + total ts = h.aEnd
  list : IsList h.fwd h.prev fl
  nodes : ∀ n, n ∈ fl ↔ IsNode h.aStart ts n

/-- The `S` bytes from `b`, between the tiles `l₁` and `l₂`, are being worked on. The first
block of `l₂` still says `pf` of the block before it, and the list still holds the nodes
`pend` inside the hole. -/
structure Hole (h : Heap) (l₁ : List Tile) (b S : ℕ) (pf : Bool) (l₂ : List Tile)
    (fl pend : List ℕ) : Prop where
  start : 16 ∣ h.aStart
  top : h.aEnd < 2 ^ 48
  before : Tagged h.mem false h.aStart l₁
  place : b = h.aStart + total l₁
  after : Tagged h.mem pf (b + S) l₂
  span : b + S + total l₂ = h.aEnd
  aligned : 16 ∣ S
  list : IsList h.fwd h.prev fl
  nodes : ∀ n, n ∈ fl ↔ IsNode h.aStart l₁ n ∨ IsNode (b + S) l₂ n ∨ n ∈ pend
  inside : ∀ n ∈ pend, 16 ∣ n ∧ b + 16 ≤ n ∧ n + 16 ≤ b + S

theorem IsNode.aligned {m : Mem} {pf : Bool} {a n : ℕ} {ts : List Tile} (h : Tagged m pf a ts)
    (ha : 16 ∣ a) (hn : IsNode a ts n) : 16 ∣ n := by
  obtain ⟨b, t, hb, -, rfl⟩ := hn
  obtain ⟨l₁, l₂, rfl, rfl⟩ := hb.split
  have := total_dvd (tagged_append.mp h).1
  unfold headerSz
  omega

section Hole

variable {h h' : Heap} {l₁ l₂ : List Tile} {b S x n k r : ℕ} {pf : Bool} {t : Tile}
  {fl pend : List ℕ}

theorem Hole.base (hh : Hole h l₁ b S pf l₂ fl pend) : 16 ∣ b := by
  have := total_dvd hh.before
  have := hh.start
  rw [hh.place]
  omega

theorem Hole.range (hh : Hole h l₁ b S pf l₂ fl pend) : h.aStart ≤ b ∧ b + S ≤ h.aEnd := by
  have hplace := hh.place
  have hspan := hh.span
  omega

theorem Hole.node_range (hh : Hole h l₁ b S pf l₂ fl pend) (hk : k ∈ fl) :
    h.aStart ≤ k ∧ k + 16 ≤ h.aEnd := by
  have hspan := hh.span
  have hplace := hh.place
  rcases (hh.nodes k).mp hk with hk | hk | hk
  · have := hk.range hh.before
    omega
  · have := hk.range hh.after
    omega
  · have := hh.inside k hk
    omega

theorem Hole.node_aligned (hh : Hole h l₁ b S pf l₂ fl pend) (hk : k ∈ fl) :
    16 ∣ k ∧ k < 2 ^ 64 := by
  have htop := hh.top
  have hrange := hh.node_range hk
  refine ⟨?_, by omega⟩
  rcases (hh.nodes k).mp hk with hk | hk | hk
  · exact hk.aligned hh.before hh.start
  · exact hk.aligned hh.after (dvd_add hh.base hh.aligned)
  · exact (hh.inside k hk).1

theorem Hole.tag_off_links (hh : Hole h l₁ b S pf l₂ fl pend)
    (hx : TagByte h.aStart l₁ x ∨ TagByte (b + S) l₂ x) (hk : k ∈ fl) : x < k ∨ k + 16 ≤ x := by
  have hplace := hh.place
  by_contra hin
  have hlo : k ≤ x := by omega
  have hhi : x < k + 16 := by omega
  rcases (hh.nodes k).mp hk with hk | hk | hk
  · have hr := hk.range hh.before
    rcases hx with hx | hx
    · exact hk.not_tagByte hh.before hlo hhi hx
    · have := hx.range hh.after
      omega
  · have hr := hk.range hh.after
    rcases hx with hx | hx
    · have := hx.range hh.before
      omega
    · exact hk.not_tagByte hh.after hlo hhi hx
  · have hr := hh.inside k hk
    rcases hx with hx | hx
    · have := hx.range hh.before
      omega
    · have := hx.range hh.after
      omega

theorem Hole.quiet_outside (hh : Hole h l₁ b S pf l₂ fl pend)
    (hx : Quiet h.aStart l₁ x ∨ Quiet (b + S) l₂ x) : x < b ∨ b + S + 16 ≤ x := by
  have hplace := hh.place
  rcases hx with hx | hx
  · have := hx.range
    omega
  · exact Or.inr hx.range.1

theorem Hole.quiet_off_links (hh : Hole h l₁ b S pf l₂ fl pend)
    (hx : Quiet h.aStart l₁ x ∨ Quiet (b + S) l₂ x) (hk : k ∈ fl) : x < k ∨ k + 16 ≤ x := by
  have hplace := hh.place
  have hout := hh.quiet_outside hx
  rcases (hh.nodes k).mp hk with hk | hk | hk
  · rcases hx with hx | hx
    · exact hx.off_link hh.before hk
    · have hr := hk.range hh.before
      have := hx.range
      omega
  · rcases hx with hx | hx
    · have hr := hk.range hh.after
      have := hx.range
      omega
    · exact hx.off_link hh.after hk
  · have := hh.inside k hk
    omega

theorem list_frame (hl : IsList h.fwd h.prev fl) (hf : h'.freeHead = h.freeHead)
    (hm : ∀ k ∈ fl, ∀ x, k ≤ x → x < k + 16 → h'.mem x = h.mem x) :
    IsList h'.fwd h'.prev fl := by
  apply hl.congr
  · exact hf
  · intro k hk
    have hk0 := hl.ne_zero hk
    rw [Heap.fwd_of_ne hk0, Heap.fwd_of_ne hk0]
    apply word_congr
    intro x hlo hhi
    exact hm k hk x (by omega) (by omega)
  · intro k hk
    apply word_congr
    intro x hlo hhi
    exact hm k hk x hlo (by omega)

/-- Stores inside the hole and off the pending nodes keep what is around it. -/
theorem Hole.frame (hh : Hole h l₁ b S pf l₂ fl pend) (hs : h'.aStart = h.aStart)
    (he : h'.aEnd = h.aEnd) (hf : h'.freeHead = h.freeHead)
    (hm : ∀ x, (x < b ∨ b + S ≤ x ∨ ∃ n ∈ pend, n ≤ x ∧ x < n + 16) → h'.mem x = h.mem x) :
    Hole h' l₁ b S pf l₂ fl pend := by
  have hplace := hh.place
  have hlink : ∀ k ∈ fl, ∀ x, k ≤ x → x < k + 16 → h'.mem x = h.mem x := by
    intro k hk x hlo hhi
    apply hm
    rcases (hh.nodes k).mp hk with hk | hk | hk
    · have := hk.range hh.before
      omega
    · have := hk.range hh.after
      omega
    · exact Or.inr (Or.inr ⟨k, hk, hlo, hhi⟩)
  refine ⟨hs ▸ hh.start, he ▸ hh.top, ?_, hs ▸ hh.place, ?_, he ▸ hh.span, hh.aligned, ?_,
    hs ▸ hh.nodes, hh.inside⟩
  · rw [hs]
    apply hh.before.frame
    intro x hx
    have := hx.range hh.before
    exact hm x (by omega)
  · apply hh.after.frame
    intro x hx
    have := hx.range hh.after
    exact hm x (by omega)
  · exact list_frame hh.list hf hlink

theorem Hole.sameAround (hh : Hole h l₁ b S pf l₂ fl pend) (hs : SameArena h h')
    (hm : ∀ x, (x < b ∨ b + S ≤ x) → h'.mem x = h.mem x) : SameAround h h' l₁ (b + S) l₂ := by
  refine ⟨hs, ?_⟩
  intro x hx
  have := hh.quiet_outside hx
  exact hm x (by omega)

theorem Whole.hole (hw : Whole h (l₁ ++ t :: l₂) fl) :
    Hole h l₁ (h.aStart + total l₁) t.size t.free l₂ fl
      (if t.free then [h.aStart + total l₁ + headerSz] else []) := by
  obtain ⟨h₁, hok, h₂⟩ := tagged_append.mp hw.tagged
  have hspan := hw.span
  have hmin := hok.min
  have hd := total_dvd h₁
  have hst := hw.start
  rw [total_append, total_cons] at hspan
  unfold minBlock at hmin
  refine ⟨hw.start, hw.top, h₁, rfl, h₂, by omega, hok.aligned, hw.list, ?_, ?_⟩
  · intro n
    rw [hw.nodes, isNode_append, isNode_cons]
    cases t.free <;> simp [or_comm]
  · intro n hn
    have hn : n = h.aStart + total l₁ + headerSz := by
      cases hf : t.free <;> simp_all
    unfold headerSz at hn
    omega

theorem Hole.close (hh : Hole h l₁ b t.size t.free l₂ fl (if t.free then [b + headerSz] else []))
    (hok : TileOk h.mem (lastFree false l₁) b t) : Whole h (l₁ ++ t :: l₂) fl := by
  have hplace := hh.place
  have hspan := hh.span
  refine ⟨hh.start, hh.top, tagged_append.mpr ⟨hh.before, ?_⟩, ?_, hh.list, ?_⟩
  · rw [← hplace]
    exact ⟨hok, hh.after⟩
  · rw [total_append, total_cons]
    omega
  · intro n
    rw [hh.nodes, isNode_append, isNode_cons, ← hplace]
    cases t.free <;> simp [or_comm]

theorem Hole.shut (hh : Hole h l₁ b 0 (lastFree false l₁) l₂ fl []) : Whole h (l₁ ++ l₂) fl := by
  have hplace := hh.place
  have hspan := hh.span
  have hafter := hh.after
  have hnodes := hh.nodes
  rw [add_zero, hplace] at hafter
  simp only [add_zero, hplace, List.not_mem_nil, or_false] at hnodes
  refine ⟨hh.start, hh.top, tagged_append.mpr ⟨hh.before, hafter⟩, ?_, hh.list, ?_⟩
  · rw [total_append]
    omega
  · intro n
    rw [hnodes, isNode_append]

theorem Hole.joinNext (hh : Hole h l₁ b S pf (t :: l₂) fl []) (hf : t.free) :
    Hole h l₁ b (S + t.size) true l₂ fl [b + S + headerSz] := by
  obtain ⟨hok, hafter⟩ := hh.after
  have hspan := hh.span
  have hmin := hok.min
  have hb := hh.base
  have hS := hh.aligned
  unfold minBlock at hmin
  rw [total_cons] at hspan
  rw [hf, add_assoc] at hafter
  refine ⟨hh.start, hh.top, hh.before, hh.place, hafter, by omega, dvd_add hS hok.aligned,
    hh.list, ?_, ?_⟩
  · intro n
    rw [hh.nodes, isNode_cons, List.mem_singleton, ← add_assoc]
    simp only [hf, true_and, List.not_mem_nil, or_false]
    rw [or_comm (a := n = _)]
  · intro n hn
    rw [List.mem_singleton] at hn
    unfold headerSz at hn
    omega

theorem Hole.joinPrev (hh : Hole h (l₁ ++ [t]) b S pf l₂ fl []) (hf : t.free) :
    Hole h l₁ (b - t.size) (t.size + S) pf l₂ fl [b - t.size + headerSz] := by
  obtain ⟨hbefore, hok, -⟩ := tagged_append.mp hh.before
  have hspan := hh.span
  have hplace := hh.place
  have hmin := hok.min
  have hb := hh.base
  have hS := hh.aligned
  have hd := hok.aligned
  have hst := hh.start
  have hafter := hh.after
  unfold minBlock at hmin
  rw [total_append, total_cons, total_nil] at hplace
  have hb' : b - t.size = h.aStart + total l₁ := by omega
  have hsum : b - t.size + (t.size + S) = b + S := by omega
  refine ⟨hh.start, hh.top, hbefore, hb', by rwa [hsum], by omega, dvd_add hd hS, hh.list, ?_, ?_⟩
  · intro n
    rw [hh.nodes, isNode_append, isNode_cons, hsum, hb', List.mem_singleton]
    simp only [hf, true_and, List.not_mem_nil, or_false]
    have := @not_isNode_nil (h.aStart + total l₁ + t.size) n
    tauto
  · intro n hn
    rw [List.mem_singleton] at hn
    unfold headerSz at hn
    omega

end Hole

end VoidOS.Malloc
