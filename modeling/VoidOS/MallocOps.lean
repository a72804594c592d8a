import VoidOS.MallocHole

namespace VoidOS.Malloc

open ByteMem LinkedList

section Edits

variable {h : Heap} {l₁ l₂ : List Tile} {b S x n r R : ℕ} {pf v : Bool} {t : Tile}
  {fl pend : List ℕ}

theorem Hole.setSize {v : ℕ} (hh : Hole h l₁ b S pf l₂ fl pend) (hlo : b ≤ x) (hhi : x + 8 ≤ b + S)
    (hp : ∀ n ∈ pend, x + 8 ≤ n ∨ n + 16 ≤ x) : Hole (h.setSize x v) l₁ b S pf l₂ fl pend := by
  have hm : ∀ y, (y < b ∨ b + S ≤ y ∨ ∃ n ∈ pend, n ≤ y ∧ y < n + 16) →
      (h.setSize x v).mem y = h.mem y := by
    intro y hy
    apply Heap.setSize_apply
    rcases hy with hy | hy | ⟨n, hn, hy⟩
    · omega
    · omega
    · have := hp n hn
      omega
  exact hh.frame rfl rfl rfl hm

theorem Hole.setFlags {v : ℕ} (hh : Hole h l₁ b S pf l₂ fl pend) (hlo : b ≤ x)
    (hhi : x + 16 ≤ b + S) (hp : ∀ n ∈ pend, x + 16 ≤ n ∨ n + 8 ≤ x) :
    Hole (h.setFlags x v) l₁ b S pf l₂ fl pend := by
  have hm : ∀ y, (y < b ∨ b + S ≤ y ∨ ∃ n ∈ pend, n ≤ y ∧ y < n + 16) →
      (h.setFlags x v).mem y = h.mem y := by
    intro y hy
    apply Heap.setFlags_apply
    rcases hy with hy | hy | ⟨n, hn, hy⟩
    · omega
    · omega
    · have := hp n hn
      omega
  exact hh.frame rfl rfl rfl hm

theorem Hole.putTag {s f : ℕ} (hh : Hole h l₁ b S pf l₂ fl []) (hlo : b ≤ x)
    (hhi : x + 16 ≤ b + S) : Hole (h.putTag x s f) l₁ b S pf l₂ fl [] := by
  apply Hole.setFlags _ hlo hhi (by simp)
  exact hh.setSize hlo (by omega) (by simp)

theorem Hole.unlink (hh : Hole h l₁ b S pf l₂ fl [n]) :
    ∃ fl', Hole (flUnlink h n) l₁ b S pf l₂ fl' [] ∧
      SameAround h (flUnlink h n) l₁ (b + S) l₂ ∧
      ∀ x, b ≤ x → x < b + S → (x < n ∨ n + 16 ≤ x) → (flUnlink h n).mem x = h.mem x := by
  have hn := hh.inside n (by simp)
  have hplace := hh.place
  obtain ⟨k₁, k₂, rfl⟩ := List.append_of_mem ((hh.nodes n).mpr (by simp))
  obtain ⟨hlist, hsame, hmem⟩ := flUnlink_spec hh.list fun k hk => (hh.node_aligned hk).1
  have hnd := List.nodup_cons.mp (List.nodup_middle.mp hh.list.nodup)
  have htags : ∀ x, TagByte h.aStart l₁ x ∨ TagByte (b + S) l₂ x →
      (flUnlink h n).mem x = h.mem x := by
    intro x hx
    apply hmem
    intro k hk
    exact hh.tag_off_links hx hk
  have hstart : 16 ∣ (flUnlink h n).aStart := by
    rw [hsame.aStart]
    exact hh.start
  refine ⟨k₁ ++ k₂, ⟨hstart, by rw [hsame.aEnd]; exact hh.top, ?_, by rw [hsame.aStart, hplace], ?_,
    by rw [hsame.aEnd, hh.span], hh.aligned, hlist, ?_, by simp⟩, ⟨⟨hsame, ?_⟩, ?_⟩, ?_⟩
  · rw [hsame.aStart]
    exact hh.before.frame fun x hx => htags x (Or.inl hx)
  · exact hh.after.frame fun x hx => htags x (Or.inr hx)
  · intro k
    rw [hsame.aStart]
    have hk := hh.nodes k
    rw [List.perm_middle.mem_iff, List.mem_cons, List.mem_singleton] at hk
    constructor
    · intro hkl
      have hkn : k ≠ n := fun he => hnd.1 (he ▸ hkl)
      rcases hk.mp (Or.inr hkl) with h₁ | h₁ | h₁
      · exact Or.inl h₁
      · exact Or.inr (Or.inl h₁)
      · exact absurd h₁ hkn
    · intro hkl
      have hkn : k ≠ n := by
        rintro rfl
        rcases hkl with h₁ | h₁ | h₁
        · have := h₁.range hh.before
          omega
        · have := h₁.range hh.after
          omega
        · simp at h₁
      apply (hk.mpr _).resolve_left hkn
      rcases hkl with h₁ | h₁ | h₁
      · exact Or.inl h₁
      · exact Or.inr (Or.inl h₁)
      · simp at h₁
  · intro x hx
    apply hmem
    intro k hk
    have := hh.node_range hk
    omega
  · intro x hx
    apply hmem
    intro k hk
    exact hh.quiet_off_links hx hk
  · intro x hlo hhi hxn
    apply hmem
    intro k hk
    rcases (hh.nodes k).mp hk with h₁ | h₁ | h₁
    · have := h₁.range hh.before
      omega
    · have := h₁.range hh.after
      omega
    · rw [List.mem_singleton] at h₁
      omega

theorem Hole.link (hh : Hole h l₁ b S pf l₂ fl []) (hn : 16 ∣ n) (hlo : b + 16 ≤ n)
    (hhi : n + 16 ≤ b + S) :
    Hole (flLink h n) l₁ b S pf l₂ (n :: fl) [n] ∧ SameAround h (flLink h n) l₁ (b + S) l₂ ∧
      ∀ x, b ≤ x → x < b + S → (x < n ∨ n + 16 ≤ x) → (flLink h n).mem x = h.mem x := by
  have hplace := hh.place
  have htop := hh.top
  have hspan := hh.span
  have hout : ∀ k ∈ fl, k + 16 ≤ b ∨ b + S ≤ k := by
    intro k hk
    rcases (hh.nodes k).mp hk with h₁ | h₁ | h₁
    · have := h₁.range hh.before
      omega
    · have := h₁.range hh.after
      omega
    · simp at h₁
  have hnew : n ∉ fl := by
    intro hmem
    have := hout n hmem
    omega
  have hal : ∀ k ∈ n :: fl, 16 ∣ k ∧ k < 2 ^ 64 := by
    intro k hk
    rcases List.mem_cons.mp hk with rfl | hk
    · exact ⟨hn, by omega⟩
    · exact hh.node_aligned hk
  obtain ⟨hlist, hsame, hmem⟩ := flLink_spec hh.list hal (by omega) hnew
  have htags : ∀ x, TagByte h.aStart l₁ x ∨ TagByte (b + S) l₂ x →
      (flLink h n).mem x = h.mem x := by
    intro x hx
    apply hmem
    intro k hk
    rcases List.mem_cons.mp hk with rfl | hk
    · rcases hx with hx | hx
      · have := hx.range hh.before
        omega
      · have := hx.range hh.after
        omega
    · exact hh.tag_off_links hx hk
  refine ⟨⟨hsame.aStart ▸ hh.start, hsame.aEnd ▸ hh.top, ?_, hsame.aStart ▸ hplace, ?_,
    hsame.aEnd ▸ hh.span, hh.aligned, hlist, ?_, ?_⟩, ⟨⟨hsame, ?_⟩, ?_⟩, ?_⟩
  · rw [hsame.aStart]
    exact hh.before.frame fun x hx => htags x (Or.inl hx)
  · exact hh.after.frame fun x hx => htags x (Or.inr hx)
  · intro k
    rw [hsame.aStart, List.mem_cons, hh.nodes k, List.mem_singleton]
    simp only [List.not_mem_nil, or_false]
    rw [or_comm, or_assoc]
  · intro k hk
    rw [List.mem_singleton] at hk
    subst hk
    exact ⟨hn, hlo, hhi⟩
  · intro x hx
    apply hmem
    intro k hk
    rcases List.mem_cons.mp hk with rfl | hk
    · omega
    · have := hh.node_range hk
      omega
  · intro x hx
    apply hmem
    intro k hk
    rcases List.mem_cons.mp hk with rfl | hk
    · have := hh.quiet_outside hx
      omega
    · exact hh.quiet_off_links hx hk
  · intro x hlo' hhi' hxn
    apply hmem
    intro k hk
    rcases List.mem_cons.mp hk with rfl | hk
    · exact hxn
    · have := hout k hk
      omega

theorem writeFoot_spec (hR : h.size r = R) (hmin : 48 ≤ R) (hr : r + R < 2 ^ 64) :
    SameStatics h (writeFoot h r) ∧ (writeFoot h r).freeHead = h.freeHead ∧
      word (writeFoot h r).mem (r + R - 16) = R ∧
      word (writeFoot h r).mem (r + R - 8) = h.flags r ∧
      ∀ x, (x < r + R - 16 ∨ r + R ≤ x) → (writeFoot h r).mem x = h.mem x := by
  have hf : h.foot r = r + R - 16 := by
    rw [Heap.foot, hR, add64_of_lt hr, headerSz, sub64_of_le (by omega) hr]
  have hflags : (h.setSize (h.foot r) (h.size r)).flags r = h.flags r := by
    apply Heap.flags_setSize
    omega
  have heq : writeFoot h r = (h.setSize (r + R - 16) R).setFlags (r + R - 16) (h.flags r) := by
    rw [writeFoot, hflags, hf, hR]
  have hR64 : R < 2 ^ 64 := by omega
  have hend : r + R - 16 + 8 = r + R - 8 := by omega
  rw [heq]
  refine ⟨SameStatics.setMem _ _, rfl, ?_, ?_, ?_⟩
  · refine (Heap.size_setFlags ?_).trans (Heap.size_setSize_self hR64)
    exact Or.inl le_rfl
  · rw [← hend]
    exact Heap.flags_setFlags_self (word_lt _ _)
  · intro x hx
    refine (Heap.setFlags_apply ?_).trans (Heap.setSize_apply ?_) <;> omega

theorem TileOk.setFlags (hok : TileOk h.mem pf b t) (ht : t.free = false) :
    TileOk (h.setFlags b (flagWord v false)).mem v b t := by
  have hv : flagWord v false < 2 ^ 64 := by cases v <;> decide
  refine { hok with
    size := (Heap.size_setFlags (Or.inl le_rfl)).trans hok.size
    flags := ?_
    apart := by simp [ht]
    foot := by simp [ht] }
  rw [ht]
  exact Heap.flags_setFlags_self hv

/-- The flags of the block after the hole say `v` of the block before them. -/
theorem Hole.setNextFlags (hh : Hole h l₁ b S pf (t :: l₂) fl pend) (ht : t.free = false) :
    Hole (h.setFlags (b + S) (flagWord v false)) l₁ b S v (t :: l₂) fl pend := by
  obtain ⟨hok, hafter⟩ := hh.after
  have hplace := hh.place
  have hmin := hok.min
  unfold minBlock at hmin
  have hmem : ∀ x, (x < b + S + 8 ∨ b + S + 16 ≤ x) →
      (h.setFlags (b + S) (flagWord v false)).mem x = h.mem x := fun x hx => Heap.setFlags_apply hx
  have hlink : ∀ k ∈ fl, k + 16 ≤ b + S ∨ b + S + 16 ≤ k := by
    intro k hk
    rcases (hh.nodes k).mp hk with h₁ | h₁ | h₁
    · have := h₁.range hh.before
      omega
    · have := h₁.range hh.after
      omega
    · have := hh.inside k h₁
      omega
  refine ⟨hh.start, hh.top, ?_, hplace, ⟨hok.setFlags ht, ?_⟩, hh.span, hh.aligned, ?_, hh.nodes,
    hh.inside⟩
  · apply hh.before.frame
    intro x hx
    have := hx.range hh.before
    exact hmem x (by omega)
  · apply hafter.frame
    intro x hx
    have := hx.range hafter
    exact hmem x (by omega)
  · apply list_frame hh.list
    · rfl
    · intro k hk x hlo hhi
      have := hlink k hk
      exact hmem x (by omega)

/-- What the code does to the flags of the block after the hole, if there is one. -/
def markNext (h : Heap) (nx : ℕ) (g : ℕ → ℕ) : Heap :=
  if nx < h.aEnd then h.setFlags nx (g (h.flags nx)) else h

theorem Hole.mark (hh : Hole h l₁ b S pf l₂ fl pend) (hal : ∀ t ∈ l₂.head?, t.free = false)
    {g : ℕ → ℕ} (hg : g (flagWord pf false) = flagWord v false) :
    Hole (markNext h (b + S) g) l₁ b S v l₂ fl pend ∧
      SameAround h (markNext h (b + S) g) l₁ (b + S) l₂ ∧
      ∀ x, x < b + S → (markNext h (b + S) g).mem x = h.mem x := by
  have hspan := hh.span
  unfold markNext
  cases l₂ with
  | nil =>
    rw [total_nil, add_zero] at hspan
    rw [if_neg (by omega)]
    exact ⟨{ hh with after := trivial }, SameAround.refl h _ _ _, fun x _ => rfl⟩
  | cons t l =>
    have ht : t.free = false := hal t (by simp)
    have hmin := hh.after.1.min
    have hflags : h.flags (b + S) = flagWord pf false := ht ▸ hh.after.1.flags
    unfold minBlock at hmin
    rw [total_cons] at hspan
    rw [if_pos (by omega), hflags, hg]
    have hrange := hh.range
    refine ⟨hh.setNextFlags ht, ⟨SameArena.setFlags _ (by omega) (by omega), ?_⟩, ?_⟩
    · intro x hx
      have := hh.quiet_outside hx
      exact Heap.setFlags_apply (by omega)
    · intro x hx
      exact Heap.setFlags_apply (by omega)

theorem Hole.cover (hh : Hole h l₁ b S true l₂ fl [r + headerSz]) (hbr : b ≤ r)
    (hR : r + R = b + S) (hok : TileOk h.mem false r ⟨R, none⟩) :
    Hole h l₁ b (r - b) false (⟨R, none⟩ :: l₂) fl [] := by
  have hspan := hh.span
  have hafter := hh.after
  have hb := hh.base
  have hin := (hh.inside _ (List.mem_singleton.mpr rfl)).1
  have hbr' : b + (r - b) = r := by omega
  unfold headerSz at hin
  rw [← hR] at hafter
  refine ⟨hh.start, hh.top, hh.before, hh.place, ?_, ?_, by omega, hh.list, ?_, by simp⟩
  · rw [hbr']
    exact ⟨hok, hafter⟩
  · rw [total_cons, hbr']
    dsimp only
    omega
  · intro n
    rw [hh.nodes, hbr', isNode_cons, List.mem_singleton, hR]
    simp only [Tile.free, Option.isNone_none, true_and, List.not_mem_nil, or_false]
    rw [or_comm (a := n = _)]

theorem Hole.insert (hh : Hole h l₁ b S pf l₂ fl []) (hal : ∀ t ∈ l₂.head?, t.free = false)
    (hbr : b ≤ r) (hr : 16 ∣ r) (hR : r + R = b + S) (hmin : 48 ≤ R) (hsize : h.size r = R)
    (hflags : h.flags r = 0) :
    Hole (flInsert h r) l₁ b (r - b) false (⟨R, none⟩ :: l₂) ((r + headerSz) :: fl) [] ∧
      SameAround h (flInsert h r) l₁ (b + S) l₂ ∧
      ∀ x, b ≤ x → x + 16 < b + S → (x < r + 16 ∨ r + 32 ≤ x) →
        (flInsert h r).mem x = h.mem x := by
  have hspan := hh.span
  have htop := hh.top
  have hR64 : r + R < 2 ^ 64 := by omega
  obtain ⟨hh₁, hs₁, hm₁⟩ := hh.link (n := r + headerSz) (by unfold headerSz; omega)
    (by unfold headerSz; omega) (by unfold headerSz; omega)
  have hm₁ : ∀ x, b ≤ x → x < b + S → (x < r + 16 ∨ r + 32 ≤ x) →
      (flLink h (r + headerSz)).mem x = h.mem x := fun x hlo hhi hx =>
    hm₁ x hlo hhi (by unfold headerSz; omega)
  have hsize₁ : (flLink h (r + headerSz)).size r = R := by
    refine (word_congr ?_).trans hsize
    intro x hlo hhi
    exact hm₁ x (by omega) (by omega) (by omega)
  have hflags₁ : (flLink h (r + headerSz)).flags r = 0 := by
    refine (word_congr ?_).trans hflags
    intro x hlo hhi
    exact hm₁ x (by omega) (by omega) (by omega)
  obtain ⟨hs₂, hf₂, hfs, hff, hm₂⟩ := writeFoot_spec hsize₁ hmin hR64
  rw [hflags₁] at hff
  have hh₂ := hh₁.frame hs₂.aStart hs₂.aEnd hf₂ (by
    intro x hx
    apply hm₂
    rcases hx with hx | hx | ⟨n, hn, hx⟩
    · omega
    · omega
    · rw [List.mem_singleton] at hn
      unfold headerSz at hn
      omega)
  have hsize₂ : (writeFoot (flLink h (r + headerSz)) r).size r = R := by
    refine (word_congr ?_).trans hsize₁
    intro x hlo hhi
    exact hm₂ x (by omega)
  have hflags₂ : (writeFoot (flLink h (r + headerSz)) r).flags r = 0 := by
    refine (word_congr ?_).trans hflags₁
    intro x hlo hhi
    exact hm₂ x (by omega)
  obtain ⟨hh₃, hs₃, hm₃⟩ := hh₂.mark (v := true) (g := fun f => f ||| bPrev) hal
    (by cases pf <;> decide)
  have heq : flInsert h r =
      markNext (writeFoot (flLink h (r + headerSz)) r) (b + S) (fun f => f ||| bPrev) := by
    have hnx : add64 r ((writeFoot (flLink h (r + headerSz)) r).size r) = b + S := by
      rw [hsize₂, add64_of_lt hR64, hR]
    rw [← hnx]
    rfl
  rw [heq]
  have hok : TileOk (markNext (writeFoot (flLink h (r + headerSz)) r) (b + S)
      (fun f => f ||| bPrev)).mem false r ⟨R, none⟩ := by
    have hR16 := hh.aligned
    have hb := hh.base
    refine ⟨by dsimp only; omega, hmin, ?_, ?_, by simp, fun _ => rfl, fun _ => ⟨?_, ?_⟩⟩
    · refine (word_congr ?_).trans hsize₂
      intro x hlo hhi
      exact hm₃ x (by omega)
    · refine (word_congr ?_).trans hflags₂
      intro x hlo hhi
      exact hm₃ x (by omega)
    · refine (word_congr ?_).trans hfs
      dsimp only
      intro x hlo hhi
      exact hm₃ x (by omega)
    · refine (word_congr ?_).trans hff
      dsimp only
      intro x hlo hhi
      exact hm₃ x (by omega)
  have hs₂ : SameAround (flLink h (r + headerSz)) (writeFoot (flLink h (r + headerSz)) r) l₁
      (b + S) l₂ := by
    have hrange := hh₁.range
    exact hh₁.sameAround ⟨hs₂, fun x hx => hm₂ x (by omega)⟩ fun x hx => hm₂ x (by omega)
  refine ⟨hh₃.cover hbr hR hok, (hs₁.trans hs₂).trans hs₃, ?_⟩
  intro x hlo hhi hx
  rw [hm₃ x (by omega), hm₂ x (by omega), hm₁ x hlo (by omega) hx]

end Edits

section Coalesce

variable {h : Heap} {l₁ l₂ : List Tile} {b S r R : ℕ} {pf : Bool} {fl : List ℕ}

theorem Tagged.head_alloc {m : Mem} {a : ℕ} (h : Tagged m true a l₂) :
    ∀ t ∈ l₂.head?, t.free = false := by
  intro t ht
  cases l₂ with
  | nil => simp at ht
  | cons u l =>
    simp only [List.head?_cons, Option.mem_def, Option.some.injEq] at ht
    subst ht
    by_contra hf
    have := h.1.apart (by simpa using hf)
    simp at this

/-- What is left of the tiles after the hole once a free one among them is absorbed. -/
theorem absorbNext_spec (hh : Hole h l₁ b S pf l₂ fl []) (hbr : b ≤ r) (hR : r + R = b + S)
    (hmin : 8 ≤ R) (hsize : h.size r = R) :
    ∃ ds l₂' pf' fl', l₂ = ds ++ l₂' ∧ (∀ d ∈ ds, d.free) ∧
      Hole (absorbNext h r) l₁ b (S + total ds) pf' l₂' fl' [] ∧
      (∀ t ∈ l₂'.head?, t.free = false) ∧ (absorbNext h r).size r = R + total ds ∧
      SameAround h (absorbNext h r) l₁ (b + (S + total ds)) l₂' ∧
      ∀ x, b ≤ x → x < b + S + total ds → (x < r ∨ r + 8 ≤ x) →
        (x < b + S + 16 ∨ b + S + 32 ≤ x) → (absorbNext h r).mem x = h.mem x := by
  have hspan := hh.span
  have htop := hh.top
  have hrange := hh.range
  have hnx : add64 r (h.size r) = b + S := by
    rw [hsize, add64_of_lt (by omega), hR]
  unfold absorbNext
  rw [hnx]
  cases l₂ with
  | nil =>
    rw [total_nil] at hspan
    rw [if_neg (by omega)]
    exact ⟨[], [], pf, fl, rfl, by simp, hh, by simp, by simpa using hsize,
      SameAround.refl h _ _ _, fun _ _ _ _ _ => rfl⟩
  | cons t l =>
    obtain ⟨hok, hafter⟩ := hh.after
    have hmin' := hok.min
    have hflags : h.flags (b + S) = flagWord pf t.free := hok.flags
    have hsz : h.size (b + S) = t.size := hok.size
    unfold minBlock at hmin'
    rw [total_cons] at hspan
    cases ht : t.free with
    | false =>
      have hbit : (h.flags (b + S)).testBit 0 = true := by
        rw [hflags, ht]
        cases pf <;> decide
      rw [if_neg (by simp [hbit])]
      exact ⟨[], t :: l, pf, fl, rfl, by simp, hh, by simpa using ht, by simpa using hsize,
        SameAround.refl h _ _ _, fun _ _ _ _ _ => rfl⟩
    | true =>
      have hbit : (h.flags (b + S)).testBit 0 = false := by
        rw [hflags, ht]
        cases pf <;> decide
      have hsum : R + t.size < 2 ^ 64 := by omega
      rw [if_pos ⟨by omega, by simp [hbit]⟩, hsz, hsize, add64_of_lt hsum]
      have hh₁ := hh.joinNext ht
      have hh₂ : Hole (h.setSize r (R + t.size)) l₁ b (S + t.size) true l fl
          [b + S + headerSz] := by
        apply hh₁.setSize hbr (by omega)
        intro n hn
        rw [List.mem_singleton] at hn
        omega
      obtain ⟨fl', hh₃, hs₃, hm₃⟩ := hh₂.unlink
      have hm₃ : ∀ x, b ≤ x → x < b + S + t.size → (x < b + S + 16 ∨ b + S + 32 ≤ x) →
          (flUnlink (h.setSize r (R + t.size)) (b + S + headerSz)).mem x =
            (h.setSize r (R + t.size)).mem x := fun x hlo hhi hx =>
        hm₃ x hlo (by omega) (by unfold headerSz; omega)
      have hs₂ : SameAround h (h.setSize r (R + t.size)) l₁ (b + (S + t.size)) l :=
        hh₁.sameAround (SameArena.setSize _ (by omega) (by omega)) fun x hx =>
          Heap.setSize_apply (by omega)
      refine ⟨[t], l, true, fl', rfl, by simpa using ht, ?_, hh₁.after.head_alloc, ?_,
        by simpa using hs₂.trans hs₃, ?_⟩
      · simpa using hh₃
      · have hword : (flUnlink (h.setSize r (R + t.size)) (b + S + headerSz)).size r =
            (h.setSize r (R + t.size)).size r := by
          apply word_congr
          intro x hlo hhi
          exact hm₃ x (by omega) (by omega) (by omega)
        rw [hword, Heap.size_setSize_self hsum, total_cons, total_nil, add_zero]
      · intro x hlo hhi hx hlink
        rw [total_cons, total_nil] at hhi
        rw [hm₃ x hlo hhi hlink, Heap.setSize_apply hx]

theorem lastFree_concat {pf : Bool} {t : Tile} : lastFree pf (l₁ ++ [t]) = t.free := by
  rw [lastFree_append]
  rfl

theorem absorbPrev_spec (hh : Hole h l₁ b S pf l₂ fl []) (hmin : 16 ≤ S) (hsize : h.size b = S)
    (hflags : h.flags b = flagWord (lastFree false l₁) false) :
    ∃ l₁' ds fl', l₁ = l₁' ++ ds ∧ ds.length ≤ 1 ∧ (∀ d ∈ ds, d.free) ∧
      lastFree false l₁' = false ∧
      Hole (absorbPrev h b).1 l₁' (absorbPrev h b).2 (total ds + S) pf l₂ fl' [] ∧
      (absorbPrev h b).1.size (absorbPrev h b).2 = total ds + S ∧
      clear ((absorbPrev h b).1.flags (absorbPrev h b).2) bAlloc = 0 ∧
      SameAround h (absorbPrev h b).1 l₁' (b + S) l₂ ∧
      ∀ x, (absorbPrev h b).2 + 32 ≤ x → x < b + S → (absorbPrev h b).1.mem x = h.mem x := by
  have hspan := hh.span
  have htop := hh.top
  have hplace := hh.place
  cases hlast : lastFree false l₁ with
  | false =>
    rw [hlast] at hflags
    have hbit : (h.flags b).testBit 1 = false := by
      rw [hflags]
      decide
    have heq : absorbPrev h b = (h, b) := by
      rw [absorbPrev, if_neg (by simp [hbit])]
    rw [heq]
    refine ⟨l₁, [], fl, by simp, by simp, by simp, hlast, by simpa using hh, by simpa using hsize,
      ?_,
      SameAround.refl h _ _ _, fun _ _ _ => rfl⟩
    dsimp only
    rw [hflags]
    decide
  | true =>
    rw [hlast] at hflags
    have hbit : (h.flags b).testBit 1 = true := by
      rw [hflags]
      decide
    rcases List.eq_nil_or_concat l₁ with rfl | ⟨l, t, rfl⟩
    · simp [lastFree] at hlast
    · rw [List.concat_eq_append] at *
      rw [lastFree_concat] at hlast
      obtain ⟨-, hok, -⟩ := tagged_append.mp hh.before
      have hmin' := hok.min
      unfold minBlock at hmin'
      have hpf : lastFree false l = false := hok.apart hlast
      have hplace' : b = h.aStart + total l + t.size := by
        rw [hplace, total_append, total_cons, total_nil]
        omega
      have hpb : b - t.size = h.aStart + total l := by omega
      -- the footer before the block gives the size of the free block that ends there
      have hfoot : word h.mem (sub64 b headerSz) = t.size := by
        rw [sub64_of_le (by unfold headerSz; omega) (by omega), hplace']
        exact (hok.foot hlast).1
      have hsz : h.size (b - t.size) = t.size := by
        rw [hpb]
        exact hok.size
      have hfl : h.flags (b - t.size) = 0 := by
        rw [hpb, Heap.flags, hok.flags, hlast, hpf]
        decide
      have hsum : t.size + S < 2 ^ 64 := by omega
      have heq : absorbPrev h b =
          (flUnlink (h.setSize (b - t.size) (t.size + S)) (b - t.size + headerSz), b - t.size) := by
        rw [absorbPrev, if_pos hbit]
        dsimp only
        rw [hfoot, sub64_of_le (by omega) (by omega), hsz, hsize, add64_of_lt hsum]
      rw [heq]
      have hh₁ := hh.joinPrev hlast
      have hh₂ : Hole (h.setSize (b - t.size) (t.size + S)) l (b - t.size) (t.size + S) pf l₂ fl
          [b - t.size + headerSz] := by
        apply hh₁.setSize le_rfl (by omega)
        intro n hn
        rw [List.mem_singleton] at hn
        unfold headerSz at hn
        omega
      obtain ⟨fl', hh₃, hs₃, hm₃⟩ := hh₂.unlink
      have hend : b - t.size + (t.size + S) = b + S := by omega
      have hm₃ : ∀ x, b - t.size ≤ x → x < b + S → (x < b - t.size + 16 ∨ b - t.size + 32 ≤ x) →
          (flUnlink (h.setSize (b - t.size) (t.size + S)) (b - t.size + headerSz)).mem x =
            (h.setSize (b - t.size) (t.size + S)).mem x := fun x hlo hhi hx =>
        hm₃ x hlo (by omega) (by unfold headerSz; omega)
      have hs₂ : SameAround h (h.setSize (b - t.size) (t.size + S)) l
          (b - t.size + (t.size + S)) l₂ :=
        hh₁.sameAround (SameArena.setSize _ (by omega) (by omega)) fun x hx =>
          Heap.setSize_apply (by omega)
      refine ⟨l, [t], fl', rfl, by simp, by simpa using hlast, hpf, by simpa using hh₃, ?_, ?_,
        hend ▸ hs₂.trans hs₃, ?_⟩
      · have hword : (flUnlink (h.setSize (b - t.size) (t.size + S)) (b - t.size + headerSz)).size
            (b - t.size) = (h.setSize (b - t.size) (t.size + S)).size (b - t.size) := by
          apply word_congr
          intro x hlo hhi
          exact hm₃ x hlo (by omega) (by omega)
        rw [hword, Heap.size_setSize_self hsum, total_cons, total_nil, add_zero]
      · have hword : (flUnlink (h.setSize (b - t.size) (t.size + S)) (b - t.size + headerSz)).flags
            (b - t.size) = (h.setSize (b - t.size) (t.size + S)).flags (b - t.size) := by
          apply word_congr
          intro x hlo hhi
          exact hm₃ x (by omega) (by omega) (by omega)
        dsimp only
        rw [hword, Heap.flags_setSize (Or.inr le_rfl), hfl]
        decide
      · intro x hlo hhi
        dsimp only at hlo ⊢
        rw [hm₃ x (by omega) hhi (by omega), Heap.setSize_apply (by omega)]

end Coalesce

end VoidOS.Malloc
