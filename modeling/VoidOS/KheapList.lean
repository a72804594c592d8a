import VoidOS.Kheap

namespace VoidOS.Kheap

namespace Heap

variable (h : Heap) (b v a : ℕ) (f : Bool) (l : Link)

@[simp] theorem setSize_heapTop : (h.setSize b v).heapTop = h.heapTop := rfl
@[simp] theorem setFree_heapTop : (h.setFree b f).heapTop = h.heapTop := rfl
@[simp] theorem setNext_heapTop : (h.setNext b v).heapTop = h.heapTop := rfl
@[simp] theorem setSize_head : (h.setSize b v).head = h.head := rfl
@[simp] theorem setFree_head : (h.setFree b f).head = h.head := rfl
@[simp] theorem setNext_head : (h.setNext b v).head = h.head := rfl
@[simp] theorem setSize_written : (h.setSize b v).written = b :: h.written := rfl
@[simp] theorem setFree_written : (h.setFree b f).written = b :: h.written := rfl
@[simp] theorem setNext_written : (h.setNext b v).written = b :: h.written := rfl

theorem setSize_mem : (h.setSize b v).mem a = if a = b then v else h.mem a := by
  simp [setSize, Function.update_apply]

theorem setFree_mem : (h.setFree b f).mem a = if a = b + 8 then f.toNat else h.mem a := by
  simp [setFree, Function.update_apply]

theorem setNext_mem : (h.setNext b v).mem a = if a = b + 16 then v else h.mem a := by
  simp [setNext, Function.update_apply]

@[simp] theorem setLink_heapTop : (h.setLink l v).heapTop = h.heapTop := by cases l <;> rfl

end Heap

/-- The address of the word a link stores to; the static `head` is not in the heap. -/
def Link.cell : Link → Option ℕ
  | .head => none
  | .next b => some (b + 16)

theorem Heap.setLink_mem (h : Heap) (l : Link) (v a : ℕ) :
    (h.setLink l v).mem a = if l.cell = some a then v else h.mem a := by
  cases l with
  | head => simp [setLink, Link.cell]
  | next b => simp [setLink, Link.cell, setNext_mem, eq_comm]

theorem Heap.setLink_head (h : Heap) (l : Link) (v : ℕ) :
    (h.setLink l v).head = if l = .head then v else h.head := by
  cases l <;> simp [setLink]

theorem Heap.setLink_written (h : Heap) (l : Link) (v : ℕ) {a : ℕ}
    (ha : a ∈ (h.setLink l v).written) : l = .next a ∨ a ∈ h.written := by
  cases l with
  | head => exact Or.inr ha
  | next b =>
    rcases List.mem_cons.mp ha with rfl | ha
    · exact Or.inl rfl
    · exact Or.inr ha

def Apart (r s : ℕ × ℕ) : Prop := r.2 ≤ s.1 ∨ s.2 ≤ r.1

theorem Apart.symm {r s : ℕ × ℕ} (h : Apart r s) : Apart s r := Or.symm h

instance : Std.Symm Apart := ⟨fun _ _ => Apart.symm⟩

/-- A block of the free list: its header address and its usable size. -/
abbrev Block := ℕ × ℕ

/-- The bytes a block occupies, its header included. -/
def Block.range (b : Block) : ℕ × ℕ := (b.1, b.1 + headerSize + b.2)

/-- The `next` links lead from `p` through the blocks `l` to `q`. -/
def Seg (mem : ℕ → ℕ) : ℕ → List Block → ℕ → Prop
  | p, [], q => p = q
  | p, b :: l, q => p = b.1 ∧ b.1 ≠ 0 ∧ Seg mem (mem (b.1 + 16)) l q

/-- The headers of `l` are in memory: each is marked free and records its size. -/
def Headers (mem : ℕ → ℕ) (l : List Block) : Prop :=
  ∀ b ∈ l, mem b.1 = b.2 ∧ mem (b.1 + 8) ≠ 0

theorem seg_append {mem : ℕ → ℕ} {l l' : List Block} {p q : ℕ} :
    Seg mem p (l ++ l') q ↔ ∃ r, Seg mem p l r ∧ Seg mem r l' q := by
  induction l generalizing p with
  | nil => simp [Seg]
  | cons b l ih =>
    simp only [List.cons_append, Seg, ih]
    constructor
    · rintro ⟨hp, hb, r, h₁, h₂⟩
      exact ⟨r, ⟨hp, hb, h₁⟩, h₂⟩
    · rintro ⟨r, ⟨hp, hb, h₁⟩, h₂⟩
      exact ⟨hp, hb, r, h₁, h₂⟩

theorem Seg.congr {mem mem' : ℕ → ℕ} {l : List Block} {p q : ℕ} (h : Seg mem p l q)
    (hm : ∀ b ∈ l, mem' (b.1 + 16) = mem (b.1 + 16)) : Seg mem' p l q := by
  induction l generalizing p with
  | nil => exact h
  | cons b l ih =>
    obtain ⟨hp, hb, hs⟩ := h
    refine ⟨hp, hb, ?_⟩
    rw [hm b (List.mem_cons_self ..)]
    exact ih hs fun c hc => hm c (List.mem_cons_of_mem _ hc)

/-- The link that leads out of the last block of `pre`, or `head`. -/
def lastLink (pre : List Block) : Link :=
  match pre.getLast? with
  | none => .head
  | some b => .next b.1

@[simp] theorem lastLink_nil : lastLink [] = .head := rfl

@[simp] theorem lastLink_concat (pre : List Block) (b : Block) :
    lastLink (pre ++ [b]) = .next b.1 := by
  simp [lastLink]

theorem lastLink_mem {pre : List Block} {p : ℕ} (h : lastLink pre = .next p) :
    ∃ b ∈ pre, b.1 = p := by
  rcases List.eq_nil_or_concat pre with rfl | ⟨pre, b, rfl⟩
  · simp at h
  · rw [List.concat_eq_append, lastLink_concat] at h
    exact ⟨b, by simp, by simpa using h⟩

theorem lastLink_cell {pre : List Block} {a : ℕ} (h : (lastLink pre).cell = some a) :
    ∃ b ∈ pre, a = b.1 + 16 := by
  cases hl : lastLink pre with
  | head => simp [hl, Link.cell] at h
  | next p =>
    obtain ⟨b, hb, rfl⟩ := lastLink_mem hl
    rw [hl] at h
    exact ⟨b, hb, by simpa [Link.cell] using h.symm⟩

theorem link_lastLink {h : Heap} {pre : List Block} {q : ℕ} (hs : Seg h.mem h.head pre q) :
    h.link (lastLink pre) = q := by
  rcases List.eq_nil_or_concat pre with rfl | ⟨pre, b, rfl⟩
  · exact hs
  · rw [List.concat_eq_append] at hs ⊢
    obtain ⟨r, -, -, -, hr⟩ := seg_append.mp hs
    rw [lastLink_concat]
    exact hr

theorem Seg.setLink {h h' : Heap} {pre : List Block} {q r : ℕ} (hs : Seg h.mem h.head pre q)
    (hl : h'.link (lastLink pre) = r)
    (hh : lastLink pre ≠ .head → h'.head = h.head)
    (hm : ∀ b ∈ pre, lastLink pre ≠ .next b.1 → h'.mem (b.1 + 16) = h.mem (b.1 + 16))
    (hnd : (pre.map Prod.fst).Nodup) : Seg h'.mem h'.head pre r := by
  rcases List.eq_nil_or_concat pre with rfl | ⟨pre, b, rfl⟩
  · exact hl
  · rw [List.concat_eq_append] at *
    rw [lastLink_concat] at *
    obtain ⟨t, hs₁, ht, hb, -⟩ := seg_append.mp hs
    rw [hh (by simp)]
    refine seg_append.mpr ⟨t, hs₁.congr fun c hc => ?_, ht, hb, hl⟩
    apply hm c (List.mem_append_left _ hc)
    intro he
    rw [List.map_append, List.nodup_append] at hnd
    exact hnd.2.2 c.1 (List.mem_map_of_mem hc) b.1 (by simp) (by simpa using he.symm)

theorem firstFit_spec {h : Heap} (size : ℕ) {l pre : List Block} {n : ℕ}
    (hs : Seg h.mem h.head pre (h.link (lastLink pre)))
    (hr : Seg h.mem (h.link (lastLink pre)) l 0) (hd : Headers h.mem l) (hn : l.length < n) :
    (firstFit h size n (lastLink pre) = some none ∧ ∀ b ∈ l, b.2 < size) ∨
    ∃ l₁ b l₂, l = l₁ ++ b :: l₂ ∧ size ≤ b.2 ∧
      firstFit h size n (lastLink pre) = some (some (lastLink (pre ++ l₁))) := by
  induction l generalizing pre n with
  | nil =>
    left
    obtain ⟨n, rfl⟩ := Nat.exists_eq_succ_of_ne_zero (by omega : n ≠ 0)
    have h0 : h.link (lastLink pre) = 0 := hr
    simp [firstFit, h0]
  | cons b l ih =>
    obtain ⟨n, rfl⟩ := Nat.exists_eq_succ_of_ne_zero (by omega : n ≠ 0)
    obtain ⟨hp, hb, hr'⟩ := hr
    obtain ⟨hsz, hfr⟩ := hd b (List.mem_cons_self ..)
    by_cases hfit : size ≤ b.2
    · right
      refine ⟨[], b, l, rfl, hfit, ?_⟩
      simp [firstFit, hp, hb, Heap.free, hfr, Heap.size, hsz, hfit]
    · have hstep : firstFit h size (n + 1) (lastLink pre) =
          firstFit h size n (lastLink (pre ++ [b])) := by
        simp [firstFit, hp, hb, Heap.size, hsz, hfit]
      have hpre : Seg h.mem h.head (pre ++ [b]) (h.link (lastLink (pre ++ [b]))) := by
        rw [lastLink_concat]
        exact seg_append.mpr ⟨b.1, hp ▸ hs, rfl, hb, rfl⟩
      have hrest : Seg h.mem (h.link (lastLink (pre ++ [b]))) l 0 := by
        rw [lastLink_concat]
        exact hr'
      rw [Nat.succ_eq_add_one, hstep]
      rcases ih hpre hrest (fun c hc => hd c (List.mem_cons_of_mem _ hc)) (by simp at hn; omega) with
        ⟨he, hall⟩ | ⟨l₁, c, l₂, rfl, hc, he⟩
      · left
        refine ⟨he, fun c hc => ?_⟩
        rcases List.mem_cons.mp hc with rfl | hc
        · omega
        · exact hall c hc
      · right
        refine ⟨b :: l₁, c, l₂, rfl, hc, ?_⟩
        rw [he]
        simp

theorem tailLink_spec {h : Heap} {l pre : List Block} {b : Block} {n : ℕ}
    (hs : Seg h.mem h.head pre (h.link (lastLink pre)))
    (hr : Seg h.mem (h.link (lastLink pre)) (l ++ [b]) 0) (hn : l.length < n) :
    tailLink h n (lastLink pre) = some (lastLink (pre ++ l)) := by
  induction l generalizing pre n with
  | nil =>
    obtain ⟨n, rfl⟩ := Nat.exists_eq_succ_of_ne_zero (by omega : n ≠ 0)
    obtain ⟨hp, -, h0⟩ := hr
    have hnext : h.next b.1 = 0 := h0
    simp [tailLink, hp, hnext]
  | cons c l ih =>
    obtain ⟨n, rfl⟩ := Nat.exists_eq_succ_of_ne_zero (by omega : n ≠ 0)
    obtain ⟨hp, hc, hr'⟩ := hr
    have hpre : Seg h.mem h.head (pre ++ [c]) (h.link (lastLink (pre ++ [c]))) := by
      rw [lastLink_concat]
      exact seg_append.mpr ⟨c.1, hp ▸ hs, rfl, hc, rfl⟩
    have hrest : Seg h.mem (h.link (lastLink (pre ++ [c]))) (l ++ [b]) 0 := by
      rw [lastLink_concat]
      exact hr'
    have hne : h.next c.1 ≠ 0 := by
      intro h0
      have hz : Seg h.mem 0 (l ++ [b]) 0 := by
        have hr'' : Seg h.mem (h.next c.1) (l ++ [b]) 0 := hr'
        rwa [h0] at hr''
      cases l with
      | nil => exact hz.2.1 hz.1.symm
      | cons d l => exact hz.2.1 hz.1.symm
    have hstep : tailLink h (n + 1) (lastLink pre) = tailLink h n (lastLink (pre ++ [c])) := by
      simp [tailLink, hp, hne]
    rw [Nat.succ_eq_add_one, hstep, ih hpre hrest (by simp at hn; omega)]
    simp

end VoidOS.Kheap
