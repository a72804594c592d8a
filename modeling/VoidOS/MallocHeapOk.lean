import VoidOS.MallocSafety

namespace VoidOS.Malloc

open ByteMem LinkedList Transition

section Run

variable {s s' : State} {op : Op}

theorem toOption_map_eq_some {α β : Type} {e : Except Stop α} {f : α → β} {y : β}
    (h : e.toOption.map f = some y) : ∃ x, e = .ok x ∧ f x = y := by
  cases e with
  | error _ => cases h
  | ok x => exact ⟨x, rfl, Option.some.inj h⟩

/-- `realloc` of a live pointer to a size other than 0: an absurd size is refused, a block that
is large enough is kept, and any other one moves. -/
theorem realloc_eq {ans : Answer} {x : Allocation} {size : ℕ} (hi : Inv s) (hx : x ∈ s.live)
    (hs0 : size ≠ 0) :
    realloc s.heap ans x.ptr size = if ¬ s.heap.mapped x.base then .error .fault
      else if sizeToNeed size = 0 then .ok (s.heap, 0)
      else if sizeToNeed size ≤ s.heap.size x.base then
        .ok (shrinkBlock s.heap x.base (sizeToNeed size), x.ptr)
      else do
        let (h, p) ← malloc s.heap ans size
        if p = 0 then return (h, 0)
        let h ← free (h.setMem (memcpy h.mem p x.ptr (s.heap.size x.base - headerSz))) x.ptr
        return (h, p) := by
  obtain ⟨hpos, hlt⟩ := hi.ptr_lt hx
  have hsub : sub64 x.ptr headerSz = x.base := sub64_of_le (by omega) hlt
  have hold : sub64 (s.heap.size x.base) headerSz = s.heap.size x.base - headerSz := by
    have hmin := (hi.header hx).2.1
    have hle : headerSz ≤ s.heap.size x.base := by
      unfold minBlock at hmin
      unfold headerSz
      omega
    exact sub64_of_le hle (word_lt _ _)
  unfold realloc
  rw [if_neg (by omega), if_neg hs0]
  dsimp only
  rw [hsub, hold]

theorem realloc_cases {ans : Answer} {x : Allocation} {size p : ℕ} {h' : Heap} (hi : Inv s)
    (hx : x ∈ s.live) (hs0 : size ≠ 0) (heq : realloc s.heap ans x.ptr size = .ok (h', p)) :
    (h' = s.heap ∧ p = 0) ∨
    (sizeToNeed size ≠ 0 ∧ sizeToNeed size ≤ s.heap.size x.base ∧
      h' = shrinkBlock s.heap x.base (sizeToNeed size) ∧ p = x.ptr) ∨
    (s.heap.size x.base < sizeToNeed size ∧ p = 0 ∧ malloc s.heap ans size = .ok (h', 0)) ∨
    (s.heap.size x.base < sizeToNeed size ∧ p ≠ 0 ∧ ∃ h₁, malloc s.heap ans size = .ok (h₁, p) ∧
      free (h₁.setMem (memcpy h₁.mem p x.ptr (s.heap.size x.base - headerSz))) x.ptr =
        .ok h') := by
  rw [realloc_eq hi hx hs0] at heq
  split_ifs at heq with hmapped hneed hfit
  · cases heq
    exact Or.inl ⟨rfl, rfl⟩
  · cases heq
    exact Or.inr (Or.inl ⟨hneed, hfit, rfl, rfl⟩)
  right; right
  have hgrow := Nat.not_le.mp hfit
  cases hnew : malloc s.heap ans size with
  | error e =>
    rw [hnew] at heq
    cases heq
  | ok r =>
    obtain ⟨h₁, p₁⟩ := r
    rw [hnew] at heq
    by_cases hp : p₁ = 0
    · subst hp
      cases heq
      exact Or.inl ⟨hgrow, rfl, rfl⟩
    · have heq : (if p₁ = 0 then (.ok (h₁, 0) : Except Stop (Heap × ℕ)) else do
          let h ← free (h₁.setMem (memcpy h₁.mem p₁ x.ptr (s.heap.size x.base - headerSz))) x.ptr
          return (h, p₁)) = .ok (h', p) := heq
      rw [if_neg hp] at heq
      cases hf : free (h₁.setMem (memcpy h₁.mem p₁ x.ptr (s.heap.size x.base - headerSz))) x.ptr with
      | error e =>
        rw [hf] at heq
        cases heq
      | ok h₂ =>
        rw [hf] at heq
        cases heq
        exact Or.inr ⟨hgrow, hp, h₁, rfl, hf⟩

theorem realloc_inv {ans : Answer} {ptr size p : ℕ} {h' : Heap} (hi : Inv s)
    (hl : Legal s (.realloc ans ptr size)) (ht : Tame s (.realloc ans ptr size))
    (heq : realloc s.heap ans ptr size = .ok (h', p)) :
    Inv (if ptr = 0 then grant h' s.live p size
      else if size = 0 then ⟨h', without s.live ptr⟩
      else if p = 0 then ⟨h', s.live⟩
      else if p = ptr then ⟨h', resized s.live ptr size⟩
      else grant h' (without s.live ptr) p size) := by
  obtain ⟨hlive, -, hcall⟩ := hl
  obtain ⟨hroom, htop⟩ := ht
  by_cases h0 : ptr = 0
  · rw [realloc, if_pos h0] at heq
    rw [if_pos h0]
    exact (malloc_inv hi hcall hroom heq).1
  rw [if_neg h0]
  rcases hlive with hlive | ⟨x, hx, rfl⟩
  · exact absurd hlive h0
  by_cases hs0 : size = 0
  · rw [realloc, if_neg h0, if_pos hs0] at heq
    rw [if_pos hs0]
    cases hf : free s.heap x.ptr with
    | error e =>
      rw [hf] at heq
      cases heq
    | ok h₁ =>
      rw [hf] at heq
      cases heq
      exact free_inv hi hx (htop (Or.inl hs0)).1 hf
  rw [if_neg hs0]
  rcases realloc_cases hi hx hs0 heq with ⟨rfl, rfl⟩ | ⟨hneed, hfit, rfl, rfl⟩ |
    ⟨hgrow, rfl, hnew⟩ | ⟨hgrow, hp, h₁, hnew, hf⟩
  · exact hi
  · rw [if_neg h0, if_pos rfl]
    exact shrink_inv hi hx hneed hfit
  · exact (malloc_inv hi hcall hroom hnew).1
  · obtain ⟨htop, hbelow⟩ := htop (Or.inr hgrow)
    obtain ⟨hne, hinv⟩ := move_inv hi hx hcall hroom htop hbelow hgrow hp hnew hf
    rw [if_neg hp, if_neg hne]
    exact hinv

theorem step_inv (hi : Inv s) (hok : Legal s op ∧ Tame s op) (hs : step s op = some s') :
    Inv s' := by
  obtain ⟨hl, ht⟩ := hok
  cases op with
  | malloc ans size =>
    obtain ⟨⟨h, p⟩, heq, rfl⟩ := toOption_map_eq_some hs
    exact (malloc_inv hi hl.2 ht heq).1
  | calloc ans nmemb size =>
    obtain ⟨⟨h, p⟩, heq, rfl⟩ := toOption_map_eq_some hs
    exact calloc_inv hi hl.2.2 ht heq
  | realloc ans ptr size =>
    obtain ⟨⟨h, p⟩, heq, rfl⟩ := toOption_map_eq_some hs
    exact realloc_inv hi hl ht heq
  | free ptr =>
    obtain ⟨h, heq, rfl⟩ := toOption_map_eq_some hs
    rcases hl with rfl | ⟨x, hx, rfl⟩
    · rw [free, if_pos rfl] at heq
      cases heq
      rw [hi.without_zero]
      exact hi
    · exact free_inv hi hx ht heq
  | store a v =>
    rw [step] at hs
    split at hs
    · cases hs
      apply hi.write
      intro b hb
      obtain ⟨x, hx, hlo, hhi⟩ := hl
      have := hb x hx
      exact Function.update_of_ne (by omega) _ _
    · cases hs

theorem Init.inv (h0 : Init s) : Inv s := by
  obtain ⟨hst, hen, hfr, hca⟩ := h0.statics
  have hlive := h0.live
  refine ⟨⟨fun _ _ => False, ⟨⟨h0.page, h0.pos, h0.start, h0.top, Or.inl hca⟩, ?_, Or.inl ⟨hst, hen⟩,
    by rw [hst, hen]; exact Nat.zero_le _⟩, ?_⟩, ?_, ?_, ?_, h0.user⟩
  · refine ⟨[], [], ⟨by rw [hst]; exact dvd_zero _, by rw [hen]; exact Nat.two_pow_pos 48, trivial,
      by rw [hst, hen, total_nil], isList_nil (by rw [Heap.fwd, if_pos rfl, hfr]), ?_⟩, ?_⟩
    · intro n
      exact ⟨fun h => absurd h List.not_mem_nil, fun h => absurd h not_isNode_nil⟩
    · intro c u
      exact ⟨False.elim, fun h => h.1⟩
  · intro p q
    rw [hlive]
    simp
  · rw [hlive]
    simp
  · rw [hlive]
    simp
  · rw [hlive]
    simp

theorem reach_inv (h : Reach step (fun s op => Legal s op ∧ Tame s op) Init s) : Inv s :=
  h.invariant (fun _ h0 => h0.inv) fun _ _ _ hi hok hs => step_inv hi hok hs

end Run

section Selfcheck

variable {h : Heap} {ts : List Tile} {fl : List ℕ} {n : ℕ}

theorem Whole.checkNode (hw : Whole h ts fl) (hn : n ∈ fl) : checkNode h n = 0 := by
  obtain ⟨b, t, hb, hf, rfl⟩ := (hw.nodes n).mp hn
  obtain ⟨l₁, l₂, rfl, hbeq⟩ := hb.split
  have hle := hb.le
  have hspan := hw.span
  have htop := hw.top
  obtain ⟨-, hok, hrest⟩ := tagged_append.mp hw.tagged
  rw [← hbeq] at hok hrest
  have hmin := hok.min
  have hmod := hok.aligned
  have hsize : h.size b = t.size := hok.size
  have hflags : h.flags b = 0 := by
    rw [Heap.flags, hok.flags, hok.apart hf, hf]
    rfl
  have hblk : sub64 (b + headerSz) headerSz = b := by
    rw [sub64_of_le (Nat.le_add_left _ _) (by unfold headerSz; omega), Nat.add_sub_cancel]
  have hnx : add64 b t.size = b + t.size := add64_of_lt (by omega)
  have hfoot : h.foot b = b + t.size - 16 := by
    rw [Heap.foot, hsize, hnx]
    exact sub64_of_le (by unfold headerSz minBlock at *; omega) (by omega)
  have hfsize : h.size (b + t.size - 16) = t.size := (hok.foot hf).1
  have hfflags : h.flags (b + t.size - 16) = 0 := by
    have heq : b + t.size - 16 + 8 = b + t.size - 8 := by
      unfold minBlock at hmin
      omega
    rw [Heap.flags, heq]
    exact (hok.foot hf).2
  -- the block after a free block is handed out
  have hnext : ¬ (b + t.size < h.aEnd ∧ ¬ (h.flags (b + t.size)).testBit 0 = true) := by
    rintro ⟨hlt, hbit⟩
    cases l₂ with
    | nil =>
      simp only [total_append, total_cons, total_nil] at hspan
      omega
    | cons u us =>
      have huf : u.free = false := by
        by_contra huf
        have := hrest.1.apart (by simpa using huf)
        rw [hf] at this
        cases this
      apply hbit
      rw [Heap.flags, hrest.1.flags, hf, huf]
      decide
  unfold Malloc.checkNode
  dsimp only
  rw [hblk, hsize, hnx, hfoot, hfsize, hfflags, hflags, if_neg (by decide), if_neg (by omega),
    if_neg (by omega), if_neg (by omega), if_neg (by simp), if_neg (by simp), if_neg hnext]

theorem selfcheckFrom_chain {p k : ℕ} (hc : Chain h.fwd h.prev p fl 0)
    (hnode : ∀ n ∈ fl, checkNode h n = 0) (hk : fl.length ≤ k) :
    selfcheckFrom h k (h.fwd p) = 0 := by
  induction fl generalizing p k with
  | nil =>
    rw [hc.1]
    cases k <;> rfl
  | cons q l ih =>
    obtain ⟨hq, hpq, -, hl⟩ := hc
    obtain ⟨k, rfl⟩ := Nat.exists_eq_succ_of_ne_zero (by rw [List.length_cons] at hk; omega : k ≠ 0)
    rw [List.length_cons] at hk
    rw [hpq, selfcheckFrom, if_neg hq, hnode q List.mem_cons_self, if_neg (by simp),
      ← Heap.fwd_of_ne hq]
    exact ih hl (fun n hn => hnode n (List.mem_cons_of_mem _ hn)) (by omega)

theorem Whole.selfcheck (hw : Whole h ts fl)
    (hlimit : h.aEnd - h.aStart ≤ processMaxUmap * pageSz) : mallocSelfcheck h = 0 := by
  have hlen := hw.length_le
  have htot := length_le_total hw.tagged
  have hspan := hw.span
  have hhead : h.freeHead = h.fwd 0 := (if_pos rfl).symm
  rw [mallocSelfcheck, hhead]
  apply selfcheckFrom_chain hw.list.chain (fun n hn => hw.checkNode hn)
  unfold processMaxUmap pageSz at hlimit
  omega

theorem Whole.single (hw : Whole h ts fl) (hnone : ∀ b t, ¬ Held h.aStart ts b t)
    (hne : h.aStart < h.aEnd) : ∃ t, ts = [t] ∧ t.free = true := by
  have hspan := hw.span
  have htag := hw.tagged
  have hfree : ∀ b t, Has h.aStart ts b t → t.free = true := by
    intro b t hb
    by_contra hf
    exact hnone b t ⟨hb, by simpa using hf⟩
  match ts with
  | [] =>
    rw [total_nil] at hspan
    omega
  | [t] => exact ⟨t, rfl, hfree _ t (Or.inl ⟨rfl, rfl⟩)⟩
  | t :: u :: us =>
    have ht := hfree _ t (Or.inl ⟨rfl, rfl⟩)
    have hu := hfree _ u (Or.inr (Or.inl ⟨rfl, rfl⟩))
    have := htag.2.1.apart hu
    rw [ht] at this
    cases this

end Selfcheck

/-- What the allocator promises. The arena is tiled by tagged blocks, of sizes that are multiples
of 16 and at least 48, no two adjacent ones free, with `PREV` after free blocks only and with
footers on the free ones; the free list holds exactly the free blocks, once each (`Whole`). The
payloads of the live pointers into the arena are aligned, large enough and meet no tag and no
other payload. The self-check passes, and an arena without live pointers is one free block. -/
structure HeapOk (s : State) : Prop where
  tiled : ∃ ts fl, Whole s.heap ts fl ∧
    (∀ x ∈ s.live, x.mapped = false → ∃ t, Held s.heap.aStart ts x.base t ∧
      x.ptr = x.base + headerSz ∧ 16 ∣ x.ptr ∧ x.ptr + x.req ≤ x.base + t.size ∧
      ∀ a, x.ptr ≤ a → a < x.ptr + x.req → ¬ TagByte s.heap.aStart ts a) ∧
    ((∀ x ∈ s.live, x.mapped = true) → s.heap.aStart < s.heap.aEnd →
      ∃ t, ts = [t] ∧ t.free = true)
  distinct : (s.live.map Allocation.ptr).Nodup
  apart : ∀ x ∈ s.live, ∀ y ∈ s.live, x.mapped = false → x.ptr ≠ y.ptr →
    x.ptr + x.req ≤ y.base ∨ y.ptr + y.req ≤ x.base
  selfcheck : mallocSelfcheck s.heap = 0

theorem Inv.heapOk {s : State} (hi : Inv s) : HeapOk s := by
  obtain ⟨H, harena, howns⟩ := hi.arena
  obtain ⟨ts, fl, hw, hH⟩ := harena.tiling
  have hend := harena.end_le
  have hblock : ∀ x ∈ s.live, x.mapped = false →
      ∃ t, H x.base t ∧ x.ptr = x.base + headerSz ∧ t.req = some x.req :=
    fun x hx hxm => howns.block hx (by simp [hxm])
  refine ⟨⟨ts, fl, hw, ?_, ?_⟩, hi.distinct, ?_, hw.selfcheck harena.limit⟩
  · intro x hx hxm
    obtain ⟨t, hb, hp, hr⟩ := hblock x hx hxm
    obtain ⟨hd, -, -, -, -, -, -, -, hf, hfit⟩ := harena.held hb
    have hfit := hfit _ hr
    have hheld := (hH _ _).mp hb
    refine ⟨t, hheld, hp, ?_, by omega, ?_⟩
    · rw [hp]
      exact dvd_add hd (by decide)
    · intro a hlo hhi
      apply hw.tagged.not_tagByte hheld.1
      · unfold headerSz at hp
        omega
      · omega
      · intro ht
        rw [hf] at ht
        cases ht
  · intro hall hne
    apply hw.single _ hne
    intro b t hheld
    have hb := (hH b t).mpr hheld
    obtain ⟨r, hr⟩ : ∃ r, t.req = some r := by
      have hf := hheld.2
      unfold Tile.free at hf
      exact Option.isSome_iff_exists.mp (by simpa using hf)
    have := hall _ ((howns (b + headerSz) r).mpr ⟨b, t, hb, rfl, hr⟩)
    cases this
  · intro x hx y hy hxm hne
    obtain ⟨t, hb, hp, hr⟩ := hblock x hx hxm
    have hfit := (harena.held hb).2.2.2.2.2.2.2.2.2 _ hr
    have hxend := (harena.held hb).2.2.2.1
    by_cases hym : y.mapped = true
    · left
      have := (hi.maps y hy hym).base_ge
      omega
    · obtain ⟨u, hc, hq, hr'⟩ := hblock y hy (by simpa using hym)
      have hfit' := (harena.held hc).2.2.2.2.2.2.2.2.2 _ hr'
      rcases harena.apart hb hc with ⟨h, -⟩ | h | h
      · omega
      · left
        omega
      · right
        omega

/-- In every run whose calls keep mappings in order, the heap invariant holds throughout. -/
theorem heapOk_of_tame {s : State}
    (h : Reach step (fun s op => Legal s op ∧ Tame s op) Init s) : HeapOk s :=
  (reach_inv h).heapOk

/-- A process with nothing mapped and its break at the first page above the code. -/
def emptyProcess : State where
  heap :=
    { mem := fun _ => 0
      present := fun _ => false
      heapStart := 0x401000
      brkCurrent := 0x401000
      brkCache := 0
      aStart := 0
      aEnd := 0
      freeHead := 0 }
  live := []

theorem emptyProcess_init : Init emptyProcess :=
  ⟨rfl, ⟨rfl, rfl, rfl, rfl⟩, by decide, by decide, by decide, by decide, by simp [emptyProcess]⟩

/-- Two blocks, the first of which is freed, and a mapping. -/
def shortRun : List Op :=
  [.malloc ⟨1, -1⟩ 100, .malloc ⟨0, -1⟩ 24, .free 0x401010,
    .malloc ⟨0, userMmapTop - 33 * 4096⟩ 131072]

theorem shortRun_heapOk : ∃ s, s.live.length = 2 ∧ HeapOk s := by
  have hrun : (runIf step (fun s op => Legal s op ∧ Tame s op) emptyProcess shortRun).map
      (fun s => s.live.length) = some 2 := by
    decide +kernel
  obtain ⟨s, hs, hlen⟩ := Option.map_eq_some_iff.mp hrun
  exact ⟨s, hlen, heapOk_of_tame ((Reach.init emptyProcess_init).runIf hs)⟩

/-- Two mappings, of which the lower is freed; a larger one is placed over both, and the program
stores into it before it frees the upper one. -/
def overlapRun : List Op :=
  [.malloc ⟨0, userMmapTop - 33 * 4096⟩ 131072, .malloc ⟨0, userMmapTop - 66 * 4096⟩ 131072,
    .free (userMmapTop - 66 * 4096 + 16), .malloc ⟨0, userMmapTop - 66 * 4096⟩ 270320,
    .store (userMmapTop - 33 * 4096) 48, .store (userMmapTop - 33 * 4096 + 8) 1,
    .free (userMmapTop - 33 * 4096 + 16)]

theorem overlapRun_not_heapOk :
    Init emptyProcess ∧ ∃ s, runIf step Legal emptyProcess overlapRun = some s ∧ ¬ HeapOk s := by
  have hrun : (runIf step Legal emptyProcess overlapRun).map
      (fun s => mallocSelfcheck s.heap) = some (-5) := by
    decide +kernel
  obtain ⟨s, hs, hcheck⟩ := Option.map_eq_some_iff.mp hrun
  refine ⟨emptyProcess_init, s, hs, fun h => ?_⟩
  rw [h.selfcheck] at hcheck
  cases hcheck

end VoidOS.Malloc
