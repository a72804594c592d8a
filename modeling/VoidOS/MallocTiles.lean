import VoidOS.Malloc

namespace VoidOS.Malloc

open ByteMem LinkedList

/-- A block of the arena as the invariant sees it; `req` is the requested size of an
allocated block, and a free block has none. -/
structure Tile where
  size : ℕ
  req : Option ℕ
deriving DecidableEq

def Tile.free (t : Tile) : Bool := t.req.isNone

/-- The flags of a block: `PREV` after a free block, `ALLOC` unless it is free. -/
def flagWord (pf free : Bool) : ℕ := (if pf then bPrev else 0) + if free then 0 else bAlloc

/-- The tags of the block `t` at `a`; `pf` tells whether the block before it is free. -/
structure TileOk (m : Mem) (pf : Bool) (a : ℕ) (t : Tile) : Prop where
  aligned : 16 ∣ t.size
  min : minBlock ≤ t.size
  size : word m a = t.size
  flags : word m (a + 8) = flagWord pf t.free
  fits : ∀ r ∈ t.req, r + headerSz ≤ t.size
  apart : t.free → pf = false
  foot : t.free → word m (a + t.size - 16) = t.size ∧ word m (a + t.size - 8) = 0

def Tagged (m : Mem) : Bool → ℕ → List Tile → Prop
  | _, _, [] => True
  | pf, a, t :: ts => TileOk m pf a t ∧ Tagged m t.free (a + t.size) ts

def total (ts : List Tile) : ℕ := (ts.map Tile.size).sum

/-- Whether the block before the end of `ts` is free. -/
def lastFree : Bool → List Tile → Bool
  | pf, [] => pf
  | _, t :: ts => lastFree t.free ts

/-- The tile `t` sits at `b` among the tiles from `a` on. -/
def Has : ℕ → List Tile → ℕ → Tile → Prop
  | _, [], _, _ => False
  | a, u :: us, b, t => (b = a ∧ t = u) ∨ Has (a + u.size) us b t

/-- The address `n` is the list node of a free block. -/
def IsNode (a : ℕ) (ts : List Tile) (n : ℕ) : Prop :=
  ∃ b t, Has a ts b t ∧ t.free ∧ n = b + headerSz

/-- The bytes of the tags: headers, and footers of free blocks. -/
def TagByte : ℕ → List Tile → ℕ → Prop
  | _, [], _ => False
  | a, t :: ts, x =>
    (a ≤ x ∧ x < a + 16) ∨ (t.free ∧ a + t.size - 16 ≤ x ∧ x < a + t.size) ∨
      TagByte (a + t.size) ts x

/-- The bytes of the blocks that are neither tag nor link: the payload of a block that is handed
out, and what is left of a free one. -/
def Quiet (a : ℕ) (ts : List Tile) (x : ℕ) : Prop :=
  ∃ b t, Has a ts b t ∧ b + 16 ≤ x ∧ x < b + t.size ∧
    (t.free → b + 32 ≤ x ∧ x + 16 < b + t.size)

section Tiles

variable {m m' : Mem} {pf : Bool} {a b c x n : ℕ} {t u : Tile} {ts l₁ l₂ : List Tile}

@[simp] theorem total_nil : total [] = 0 := rfl
@[simp] theorem total_cons : total (t :: ts) = t.size + total ts := by simp [total]
@[simp] theorem total_append : total (l₁ ++ l₂) = total l₁ + total l₂ := by simp [total]

theorem lastFree_append : lastFree pf (l₁ ++ l₂) = lastFree (lastFree pf l₁) l₂ := by
  induction l₁ generalizing pf with
  | nil => rfl
  | cons t ts ih => exact ih

theorem tagged_append : Tagged m pf a (l₁ ++ l₂) ↔
    Tagged m pf a l₁ ∧ Tagged m (lastFree pf l₁) (a + total l₁) l₂ := by
  induction l₁ generalizing pf a with
  | nil => simp [Tagged, lastFree]
  | cons t ts ih => simp [Tagged, ih, lastFree, and_assoc, add_assoc]

theorem has_append : Has a (l₁ ++ l₂) b t ↔ Has a l₁ b t ∨ Has (a + total l₁) l₂ b t := by
  induction l₁ generalizing a with
  | nil => simp [Has]
  | cons u us ih => simp [Has, ih, or_assoc, add_assoc]

theorem isNode_append : IsNode a (l₁ ++ l₂) n ↔ IsNode a l₁ n ∨ IsNode (a + total l₁) l₂ n := by
  unfold IsNode
  simp only [has_append, or_and_right, exists_or]

theorem isNode_cons :
    IsNode a (t :: ts) n ↔ (t.free ∧ n = a + headerSz) ∨ IsNode (a + t.size) ts n := by
  constructor
  · rintro ⟨b, u, ⟨rfl, rfl⟩ | hb, hf, rfl⟩
    · exact Or.inl ⟨hf, rfl⟩
    · exact Or.inr ⟨b, u, hb, hf, rfl⟩
  · rintro (⟨hf, rfl⟩ | ⟨b, u, hb, hf, rfl⟩)
    · exact ⟨a, t, Or.inl ⟨rfl, rfl⟩, hf, rfl⟩
    · exact ⟨b, u, Or.inr hb, hf, rfl⟩

theorem not_isNode_nil : ¬ IsNode a [] n := by
  rintro ⟨b, u, hb, -⟩
  exact hb

theorem Has.mem (h : Has a ts b t) : t ∈ ts := by
  induction ts generalizing a with
  | nil => exact h.elim
  | cons u us ih =>
    rcases h with ⟨-, rfl⟩ | h
    · simp
    · exact List.mem_cons_of_mem _ (ih h)

theorem Has.split (h : Has a ts b t) : ∃ l₁ l₂, ts = l₁ ++ t :: l₂ ∧ b = a + total l₁ := by
  induction ts generalizing a with
  | nil => exact h.elim
  | cons u us ih =>
    rcases h with ⟨rfl, rfl⟩ | h
    · exact ⟨[], us, rfl, by simp⟩
    · obtain ⟨l₁, l₂, rfl, rfl⟩ := ih h
      exact ⟨u :: l₁, l₂, rfl, by simp [add_assoc]⟩

theorem has_middle : Has a (l₁ ++ t :: l₂) (a + total l₁) t :=
  has_append.mpr (Or.inr (Or.inl ⟨rfl, rfl⟩))

theorem Has.le (h : Has a ts b t) : a ≤ b ∧ b + t.size ≤ a + total ts := by
  obtain ⟨l₁, l₂, rfl, rfl⟩ := h.split
  simp only [total_append, total_cons]
  omega

theorem Tagged.has (h : Tagged m pf a ts) (hb : Has a ts b t) : ∃ pf', TileOk m pf' b t := by
  obtain ⟨l₁, l₂, rfl, rfl⟩ := hb.split
  exact ⟨_, (tagged_append.mp h).2.1⟩

theorem Has.apart (h : Has a ts b t) (h' : Has a ts c u) :
    (b = c ∧ t = u) ∨ b + t.size ≤ c ∨ c + u.size ≤ b := by
  induction ts generalizing a with
  | nil => exact h.elim
  | cons v vs ih =>
    rcases h with ⟨rfl, rfl⟩ | h
    · rcases h' with ⟨rfl, rfl⟩ | h'
      · exact Or.inl ⟨rfl, rfl⟩
      · exact Or.inr (Or.inl h'.le.1)
    · rcases h' with ⟨rfl, rfl⟩ | h'
      · exact Or.inr (Or.inr h.le.1)
      · exact ih h h'

theorem TagByte.has (h : TagByte a ts x) : ∃ b t, Has a ts b t ∧
    ((b ≤ x ∧ x < b + 16) ∨ (t.free ∧ b + t.size - 16 ≤ x ∧ x < b + t.size)) := by
  induction ts generalizing a with
  | nil => exact h.elim
  | cons u us ih =>
    rcases h with h | h | h
    · exact ⟨a, u, Or.inl ⟨rfl, rfl⟩, Or.inl h⟩
    · exact ⟨a, u, Or.inl ⟨rfl, rfl⟩, Or.inr h⟩
    · obtain ⟨b, t, hb, hx⟩ := ih h
      exact ⟨b, t, Or.inr hb, hx⟩

/-- The payload of an allocated block and the inside of a free one hold no tag. -/
theorem Tagged.not_tagByte (h : Tagged m pf a ts) (hb : Has a ts b t) (hl : b + 16 ≤ x)
    (hr : x < b + t.size) (hf : t.free → x < b + t.size - 16) : ¬ TagByte a ts x := by
  intro hx
  obtain ⟨c, u, hc, hx⟩ := hx.has
  obtain ⟨pf', hok⟩ := h.has hc
  have hmin := hok.min
  unfold minBlock at hmin
  rcases hb.apart hc with ⟨rfl, rfl⟩ | h' | h'
  · rcases hx with hx | hx
    · omega
    · have := hf hx.1
      omega
  · omega
  · rcases hx with hx | ⟨-, hx⟩ <;> omega

theorem TagByte.range (h : Tagged m pf a ts) (hx : TagByte a ts x) : a ≤ x ∧ x < a + total ts := by
  obtain ⟨b, t, hb, hx⟩ := hx.has
  obtain ⟨pf', hok⟩ := h.has hb
  have hmin := hok.min
  have hle := hb.le
  unfold minBlock at hmin
  rcases hx with hx | ⟨-, hx⟩ <;> omega

theorem IsNode.range (h : Tagged m pf a ts) (hn : IsNode a ts n) :
    a + 16 ≤ n ∧ n + 32 ≤ a + total ts := by
  obtain ⟨b, t, hb, -, rfl⟩ := hn
  obtain ⟨pf', hok⟩ := h.has hb
  have hmin := hok.min
  have hle := hb.le
  unfold minBlock at hmin
  unfold headerSz
  omega

theorem IsNode.not_tagByte (h : Tagged m pf a ts) (hn : IsNode a ts n) (hl : n ≤ x)
    (hr : x < n + 16) : ¬ TagByte a ts x := by
  obtain ⟨b, t, hb, hf, rfl⟩ := hn
  obtain ⟨pf', hok⟩ := h.has hb
  have hmin := hok.min
  unfold minBlock at hmin
  unfold headerSz at hl hr
  apply h.not_tagByte hb hl (by omega)
  intro
  omega

theorem quiet_append :
    Quiet a (l₁ ++ l₂) x ↔ Quiet a l₁ x ∨ Quiet (a + total l₁) l₂ x := by
  unfold Quiet
  simp only [has_append, or_and_right, exists_or]

theorem Quiet.range (hx : Quiet a ts x) : a + 16 ≤ x ∧ x < a + total ts := by
  obtain ⟨b, t, hb, hlo, hhi, -⟩ := hx
  have hle := hb.le
  omega

theorem Quiet.off_link (h : Tagged m pf a ts) (hx : Quiet a ts x) (hn : IsNode a ts n) :
    x < n ∨ n + 16 ≤ x := by
  obtain ⟨b, t, hb, hlo, hhi, hfree⟩ := hx
  obtain ⟨c, u, hc, hf, rfl⟩ := hn
  obtain ⟨pf', hok⟩ := h.has hc
  have hmin := hok.min
  unfold minBlock at hmin
  unfold headerSz
  rcases hb.apart hc with ⟨rfl, rfl⟩ | h' | h'
  · have := hfree hf
    omega
  · omega
  · omega

theorem TileOk.frame (h : TileOk m pf a t)
    (hm : ∀ x, TagByte a [t] x → m' x = m x) : TileOk m' pf a t := by
  have hmin := h.min
  unfold minBlock at hmin
  have hhead : ∀ x, a ≤ x → x < a + 16 → m' x = m x := fun x hl hr => hm x (Or.inl ⟨hl, hr⟩)
  refine { h with
    size := (word_congr ?_).trans h.size
    flags := (word_congr ?_).trans h.flags
    foot := ?_ }
  · intro x hl hr
    exact hhead x hl (by omega)
  · intro x hl hr
    exact hhead x (by omega) (by omega)
  · intro hf
    have hfoot : ∀ x, a + t.size - 16 ≤ x → x < a + t.size → m' x = m x :=
      fun x hl hr => hm x (Or.inr (Or.inl ⟨hf, hl, hr⟩))
    refine ⟨(word_congr ?_).trans (h.foot hf).1, (word_congr ?_).trans (h.foot hf).2⟩
    · intro x hl hr
      exact hfoot x hl (by omega)
    · intro x hl hr
      exact hfoot x (by omega) (by omega)

theorem Tagged.frame (h : Tagged m pf a ts) (hm : ∀ x, TagByte a ts x → m' x = m x) :
    Tagged m' pf a ts := by
  induction ts generalizing pf a with
  | nil => trivial
  | cons t ts ih =>
    refine ⟨h.1.frame ?_, ih h.2 ?_⟩
    · intro x hx
      apply hm
      rcases hx with hx | hx | hx
      · exact Or.inl hx
      · exact Or.inr (Or.inl hx)
      · exact hx.elim
    · intro x hx
      exact hm x (Or.inr (Or.inr hx))

theorem total_dvd (h : Tagged m pf a ts) : 16 ∣ total ts := by
  induction ts generalizing pf a with
  | nil => simp
  | cons t ts ih =>
    rw [total_cons]
    exact dvd_add h.1.aligned (ih h.2)

theorem length_le_total (h : Tagged m pf a ts) : ts.length * 48 ≤ total ts := by
  induction ts generalizing pf a with
  | nil => simp
  | cons t ts ih =>
    have hmin := h.1.min
    have hrest := ih h.2
    unfold minBlock at hmin
    rw [total_cons, List.length_cons]
    omega

end Tiles

end VoidOS.Malloc
