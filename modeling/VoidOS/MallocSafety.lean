import VoidOS.MallocRuns

namespace VoidOS.Malloc

open ByteMem LinkedList Transition

def Allocation.base (x : Allocation) : ℕ := x.ptr - headerSz

def Heap.mapEnd (h : Heap) (x : Allocation) : ℕ := x.base + h.size x.base

/-- A live mapping: whole present pages above the break, with the header that `mmap_alloc` stores
in front of the payload. -/
structure Mapping (h : Heap) (x : Allocation) : Prop where
  page : pageSz ∣ x.base
  brk : h.brkCurrent + headerSz ≤ x.ptr
  whole : pageSz ∣ h.size x.base
  flags : h.flags x.base = bAlloc ||| bMmap
  fits : x.ptr + x.req ≤ h.mapEnd x
  top : h.mapEnd x ≤ userMmapTop
  present : ∀ p, x.base ≤ p * pageSz → p * pageSz < h.mapEnd x → h.present p = true

/-- The live pointers into the arena are the payloads of the blocks `H`. -/
def Owns (H : ℕ → Tile → Prop) (live : List Allocation) : Prop :=
  ∀ p q, ⟨p, q, false⟩ ∈ live ↔ ∃ b t, H b t ∧ p = b + headerSz ∧ t.req = some q

structure Inv (s : State) : Prop where
  arena : ∃ H, ArenaInv s.heap H ∧ Owns H s.live
  maps : ∀ x ∈ s.live, x.mapped = true → Mapping s.heap x
  apart : ∀ x ∈ s.live, ∀ y ∈ s.live, x.mapped = true → y.mapped = true → x.ptr ≠ y.ptr →
    s.heap.mapEnd x ≤ y.base ∨ s.heap.mapEnd y ≤ x.base
  distinct : (s.live.map Allocation.ptr).Nodup
  user : ∀ p, s.heap.present p = true → p * pageSz < 2 ^ 47

section Owns

variable {H : ℕ → Tile → Prop} {live : List Allocation} {b q p size : ℕ} {t : Tile}

theorem mem_without {x : Allocation} : x ∈ without live p ↔ x ∈ live ∧ x.ptr ≠ p := by
  simp [without]

theorem Owns.adds (ho : Owns H live) (ht : t.req = some q) :
    Owns (Adds H b t) (⟨b + headerSz, q, false⟩ :: live) := by
  intro p r
  rw [List.mem_cons, ho p r]
  constructor
  · intro hx
    rcases hx with heq | ⟨c, u, hc, hp, hr⟩
    · injection heq with hp hr
      exact ⟨b, t, Or.inr ⟨rfl, rfl⟩, hp, by rw [ht, hr]⟩
    · exact ⟨c, u, Or.inl hc, hp, hr⟩
  · rintro ⟨c, u, hc | ⟨rfl, rfl⟩, hp, hr⟩
    · exact Or.inr ⟨c, u, hc, hp, hr⟩
    · left
      rw [ht] at hr
      rw [hp, Option.some.inj hr]

theorem Owns.drops (ho : Owns H live) : Owns (Drops H b) (without live (b + headerSz)) := by
  intro p r
  rw [mem_without, ho p r]
  constructor
  · rintro ⟨⟨c, u, hc, rfl, hr⟩, hne⟩
    exact ⟨c, u, ⟨hc, fun h => hne (by rw [h])⟩, rfl, hr⟩
  · rintro ⟨c, u, ⟨hc, hne⟩, rfl, hr⟩
    exact ⟨⟨c, u, hc, rfl, hr⟩, fun h => hne (by dsimp only at h; omega)⟩

theorem Owns.mapped (ho : Owns H live) : Owns H (⟨p, q, true⟩ :: live) := by
  intro p' q'
  rw [← ho p' q', List.mem_cons]
  simp

theorem Owns.without (ho : Owns H live) (hno : ∀ b t, H b t → b + headerSz ≠ p) :
    Owns H (without live p) := by
  intro p' q'
  rw [mem_without, ho p' q']
  constructor
  · exact fun h => h.1
  · rintro ⟨c, u, hc, rfl, hr⟩
    exact ⟨⟨c, u, hc, rfl, hr⟩, hno c u hc⟩

theorem mem_resized {x : Allocation} : x ∈ resized live p size ↔
    (x ∈ live ∧ x.ptr ≠ p) ∨ (x.ptr = p ∧ x.req = size ∧ ∃ r, ⟨p, r, x.mapped⟩ ∈ live) := by
  unfold resized
  rw [List.mem_map]
  constructor
  · rintro ⟨y, hy, rfl⟩
    by_cases hp : y.ptr = p
    · rw [if_pos hp]
      exact Or.inr ⟨hp, rfl, y.req, by rw [← hp]; exact hy⟩
    · rw [if_neg hp]
      exact Or.inl ⟨hy, hp⟩
  · rintro (⟨hx, hp⟩ | ⟨hp, hr, r, hx⟩)
    · exact ⟨x, hx, if_neg hp⟩
    · exact ⟨_, hx, by rw [if_pos rfl, ← hp, ← hr]⟩

theorem Owns.resized (ho : Owns H live) (hb : H b t) {t' : Tile} (ht : t'.req = some size)
    (hone : ∀ u, H b u → u = t) (hreq : ∃ r, t.req = some r) :
    Owns (Adds (Drops H b) b t') (resized live (b + headerSz) size) := by
  intro p q
  rw [mem_resized, ho p q]
  constructor
  · rintro (⟨⟨c, u, hc, rfl, hr⟩, hne⟩ | ⟨rfl, rfl, -⟩)
    · exact ⟨c, u, Or.inl ⟨hc, fun h => hne (by rw [h])⟩, rfl, hr⟩
    · exact ⟨b, t', Or.inr ⟨rfl, rfl⟩, rfl, ht⟩
  · rintro ⟨c, u, ⟨hc, hne⟩ | ⟨rfl, rfl⟩, rfl, hr⟩
    · exact Or.inl ⟨⟨c, u, hc, rfl, hr⟩, fun h => hne (by dsimp only at h; omega)⟩
    · obtain ⟨r, hr'⟩ := hreq
      refine Or.inr ⟨rfl, ?_, r, (ho _ _).mpr ⟨_, t, hb, rfl, hr'⟩⟩
      rw [ht] at hr
      exact (Option.some.inj hr).symm

end Owns

section Frame

variable {s s' : State} {h h' : Heap} {x y : Allocation} {live : List Allocation} {m : Mem}

theorem Allocation.eq_of_not_mapped (hx : ¬ x.mapped = true) : x = ⟨x.ptr, x.req, false⟩ := by
  rw [← (Bool.not_eq_true x.mapped).mp hx]

theorem Owns.block {H : ℕ → Tile → Prop} (ho : Owns H live) (hx : x ∈ live)
    (hxm : ¬ x.mapped = true) :
    ∃ t, H x.base t ∧ x.ptr = x.base + headerSz ∧ t.req = some x.req := by
  rw [Allocation.eq_of_not_mapped hxm] at hx
  obtain ⟨b, t, hb, hp, hr⟩ := (ho _ _).mp hx
  have hbase : x.base = b := by
    rw [Allocation.base, hp]
    exact Nat.add_sub_cancel _ _
  rw [hbase]
  exact ⟨t, hb, hp, hr⟩

theorem Mapping.ptr_eq (hx : Mapping h x) : x.ptr = x.base + headerSz := by
  have := hx.brk
  unfold Allocation.base
  omega

theorem Mapping.base_ge (hx : Mapping h x) : h.brkCurrent ≤ x.base := by
  have hbrk := hx.brk
  unfold Allocation.base
  omega

theorem Mapping.header_le (hx : Mapping h x) : x.base + headerSz ≤ h.mapEnd x := by
  have hptr := hx.ptr_eq
  have hfit := hx.fits
  omega

theorem Mapping.shrink_eq {need : ℕ} (hx : Mapping h x) : shrinkBlock h x.base need = h := by
  have hbit : (h.flags x.base).testBit 2 = true := by
    rw [hx.flags]
    decide
  rw [shrinkBlock, if_neg (fun hc => hc.2 hbit)]

theorem mapEnd_congr (hm : ∀ a, x.base ≤ a → a < x.base + headerSz → h'.mem a = h.mem a) :
    h'.mapEnd x = h.mapEnd x := by
  have hsize : h'.size x.base = h.size x.base := by
    apply word_congr
    intro a hlo hhi
    exact hm a hlo (by unfold headerSz; omega)
  rw [Heap.mapEnd, Heap.mapEnd, hsize]

theorem Mapping.frame (hx : Mapping h x)
    (hm : ∀ a, x.base ≤ a → a < x.base + headerSz → h'.mem a = h.mem a)
    (hbrk : h'.brkCurrent + headerSz ≤ x.ptr)
    (hp : ∀ p, x.base ≤ p * pageSz → p * pageSz < h.mapEnd x → h.present p = true →
      h'.present p = true) : Mapping h' x := by
  have hend := mapEnd_congr hm
  have hsize : h'.size x.base = h.size x.base := by
    unfold Heap.mapEnd at hend
    omega
  have hflags : h'.flags x.base = h.flags x.base := by
    apply word_congr
    intro a hlo hhi
    exact hm a (by omega) (by unfold headerSz; omega)
  refine ⟨hx.page, hbrk, by rw [hsize]; exact hx.whole, by rw [hflags]; exact hx.flags,
    by rw [hend]; exact hx.fits, by rw [hend]; exact hx.top, ?_⟩
  rw [hend]
  exact fun p hlo hhi => hp p hlo hhi (hx.present p hlo hhi)

/-- A step that leaves the headers and the pages of the mappings that stay live. -/
theorem Inv.update (hi : Inv s) (ha : ∃ H, ArenaInv s'.heap H ∧ Owns H s'.live)
    (hsub : ∀ x ∈ s'.live, x.mapped = true → x ∈ s.live)
    (hm : ∀ x ∈ s'.live, x.mapped = true → ∀ a, x.base ≤ a → a < x.base + headerSz →
      s'.heap.mem a = s.heap.mem a)
    (hbrk : ∀ x ∈ s'.live, x.mapped = true → s'.heap.brkCurrent + headerSz ≤ x.ptr)
    (hp : ∀ x ∈ s'.live, x.mapped = true → ∀ p, x.base ≤ p * pageSz →
      p * pageSz < s.heap.mapEnd x → s.heap.present p = true → s'.heap.present p = true)
    (hd : (s'.live.map Allocation.ptr).Nodup)
    (hu : ∀ p, s'.heap.present p = true → p * pageSz < 2 ^ 47) : Inv s' := by
  refine ⟨ha, ?_, ?_, hd, hu⟩
  · intro x hx hxm
    exact (hi.maps x (hsub x hx hxm) hxm).frame (hm x hx hxm) (hbrk x hx hxm) (hp x hx hxm)
  · intro x hx y hy hxm hym hne
    rw [mapEnd_congr (hm x hx hxm), mapEnd_congr (hm y hy hym)]
    exact hi.apart x (hsub x hx hxm) y (hsub y hy hym) hxm hym hne

/-- A live pointer into the arena: its block, and its place below the break. -/
theorem Inv.heapPtr (hi : Inv s) (hx : x ∈ s.live) (hxm : ¬ x.mapped = true) :
    x.ptr + x.req ≤ s.heap.aEnd ∧ x.ptr < s.heap.aEnd ∧ headerSz < x.ptr := by
  obtain ⟨H, harena, howns⟩ := hi.arena
  obtain ⟨t, hb, hp, hr⟩ := howns.block hx hxm
  obtain ⟨-, h0, hlo, hhi, hmin, -, -, -, -, hfit⟩ := harena.held hb
  have := hfit _ hr
  unfold headerSz minBlock at *
  omega

theorem Inv.end_le (hi : Inv s) : s.heap.aEnd ≤ s.heap.brkCurrent := by
  obtain ⟨H, harena, -⟩ := hi.arena
  exact harena.end_le

/-- A header is no payload byte: of its own mapping, of another one or of the arena. -/
theorem Inv.header_apart {a : ℕ} (hi : Inv s) (hx : x ∈ s.live) (hxm : x.mapped = true)
    (hy : y ∈ s.live) (hlo : x.base ≤ a) (hhi : a < x.base + headerSz) :
    a < y.ptr ∨ y.ptr + y.req ≤ a := by
  have hxmap := hi.maps x hx hxm
  have hxhead := hxmap.header_le
  have hxptr := hxmap.ptr_eq
  have hxbase := hxmap.base_ge
  by_cases hym : y.mapped = true
  · have hymap := hi.maps y hy hym
    have hyptr := hymap.ptr_eq
    have hyfit := hymap.fits
    by_cases hne : x.ptr = y.ptr
    · left
      omega
    · rcases hi.apart x hx y hy hxm hym hne with h | h <;> omega
  · have hyend := (hi.heapPtr hy hym).1
    have hend := hi.end_le
    right
    omega

theorem Inv.write (hi : Inv s)
    (hm : ∀ a, (∀ x ∈ s.live, a < x.ptr ∨ x.ptr + x.req ≤ a) → m a = s.heap.mem a) :
    Inv ⟨s.heap.setMem m, s.live⟩ := by
  have hend := hi.end_le
  have harena : ∃ H, ArenaInv (s.heap.setMem m) H ∧ Owns H s.live := by
    obtain ⟨H, harena, howns⟩ := hi.arena
    refine ⟨H, harena.write ?_, howns⟩
    intro a hlo hhi hout
    apply hm
    intro x hx
    by_cases hxm : x.mapped = true
    · have hbrk := (hi.maps x hx hxm).brk
      omega
    · obtain ⟨t, hb, hp, hr⟩ := howns.block hx hxm
      obtain ⟨-, -, -, -, -, -, -, -, -, hfit⟩ := harena.held hb
      have hfit := hfit x.req hr
      have hcase := hout x.base t hb
      omega
  refine hi.update harena (fun x hx _ => hx) ?_ (fun x hx hxm => (hi.maps x hx hxm).brk)
    (fun _ _ _ _ _ _ hp => hp) hi.distinct hi.user
  intro x hx hxm a hlo hhi
  apply hm
  intro y hy
  exact hi.header_apart hx hxm hy hlo hhi

theorem Inv.addMapping {p q : ℕ} (hi : Inv ⟨h, live⟩) (hx : Mapping h ⟨p, q, true⟩)
    (hap : ∀ y ∈ live, y.mapped = true →
      h.mapEnd ⟨p, q, true⟩ ≤ y.base ∨ h.mapEnd y ≤ (⟨p, q, true⟩ : Allocation).base) :
    Inv ⟨h, ⟨p, q, true⟩ :: live⟩ := by
  have hhead := hx.header_le
  refine ⟨?_, ?_, ?_, ?_, hi.user⟩
  · obtain ⟨H, harena, howns⟩ := hi.arena
    exact ⟨H, harena, howns.mapped⟩
  · intro x hx' hxm
    rcases List.mem_cons.mp hx' with rfl | hx'
    · exact hx
    · exact hi.maps x hx' hxm
  · intro x hx' y hy hxm hym hne
    rcases List.mem_cons.mp hx' with hxe | hx' <;> rcases List.mem_cons.mp hy with hye | hy
    · rw [hxe, hye] at hne
      exact absurd rfl hne
    · rw [hxe]
      exact hap y hy hym
    · rw [hye]
      exact (hap x hx' hxm).symm
    · exact hi.apart x hx' y hy hxm hym hne
  · -- the new pointer lies above the arena and apart from the other mappings
    rw [List.map_cons, List.nodup_cons]
    refine ⟨?_, hi.distinct⟩
    intro hmem
    obtain ⟨y, hy, hyp⟩ := List.mem_map.mp hmem
    have hxptr := hx.ptr_eq
    have hxb := hx.base_ge
    by_cases hym : y.mapped = true
    · have hymap := hi.maps y hy hym
      have hyhead := hymap.header_le
      have hyptr := hymap.ptr_eq
      have := hap y hy hym
      dsimp only at *
      unfold headerSz at *
      omega
    · have hyend := (hi.heapPtr hy hym).2.1
      have hend := hi.end_le
      dsimp only at *
      unfold headerSz at *
      omega

end Frame

section Calls

variable {s s' : State} {h h' : Heap} {H : ℕ → Tile → Prop} {x : Allocation}
  {live : List Allocation} {ans : Answer} {size p ptr : ℕ}

theorem ArenaInv.frame (hi : ArenaInv h H) (hs : h'.aStart = h.aStart) (he : h'.aEnd = h.aEnd)
    (hf : h'.freeHead = h.freeHead) (hst : h'.heapStart = h.heapStart)
    (hb : h'.brkCurrent = h.brkCurrent) (hc : h'.brkCache = h.brkCache)
    (hm : ∀ a, h.aStart ≤ a → a < h.aEnd → h'.mem a = h.mem a) : ArenaInv h' H := by
  obtain ⟨ts, fl, hw, hH⟩ := hi.tiling
  refine ⟨⟨?_, ?_, ?_, ?_, ?_⟩, ⟨ts, fl, hw.frame hs he hf hm, ?_⟩, ?_, ?_⟩
  · rw [hb]
    exact hi.page
  · rw [hb]
    exact hi.pos
  · rw [hb, hst]
    exact hi.start
  · rw [hb]
    exact hi.top
  · rw [hb, hc]
    exact hi.cache
  · rw [hs]
    exact hH
  · rw [hs, he, hb]
    exact hi.arena
  · rw [hs, he]
    exact hi.limit

theorem roundedOf_spec (h0 : sizeToNeed size ≠ 0) (hpos : 0 < roundedOf size) :
    pageSz ∣ roundedOf size ∧ size + headerSz ≤ roundedOf size ∧ roundedOf size < 2 ^ 64 := by
  obtain ⟨-, -, hq, -, hlt⟩ := sizeToNeed_spec h0
  unfold roundedOf at *
  rw [add64_eq_mod] at *
  unfold pageSz at *
  omega

theorem Mapping.apart_of_clear {a n : ℕ} (hx : Mapping h x) (ha : pageSz ∣ a) (hn : pageSz ∣ n)
    (hn0 : 0 < n) (hclear : ∀ i < n / pageSz, h.present (a / pageSz + i) = false) :
    a + n ≤ x.base ∨ h.mapEnd x ≤ a := by
  by_contra hmeet
  obtain ⟨i, hi⟩ := ha
  obtain ⟨k, hk⟩ := hn
  obtain ⟨j, hj⟩ := hx.page
  have hpos : 0 < pageSz := by decide
  have hai : a / pageSz = i := by rw [hi, Nat.mul_div_cancel_left _ hpos]
  have hnk : n / pageSz = k := by rw [hk, Nat.mul_div_cancel_left _ hpos]
  rw [hai, hnk] at hclear
  -- the first page that both have
  rcases Nat.le_total i j with hij | hij
  · have hclear := hclear (j - i) (by unfold pageSz at *; omega)
    rw [Nat.add_sub_cancel' hij, hx.present j] at hclear
    · cases hclear
    · rw [hj, Nat.mul_comm]
    · have := hx.header_le
      unfold pageSz headerSz at *
      omega
  · have hclear := hclear 0 (by unfold pageSz at *; omega)
    rw [Nat.add_zero, hx.present i] at hclear
    · cases hclear
    · unfold pageSz at *
      omega
    · unfold pageSz at *
      omega

/-- The kernel's new pages, `R` bytes from `a`, with the header of a mapping in front. -/
structure NewMapping (h h' : Heap) (a R : ℕ) : Prop where
  page : pageSz ∣ a
  whole : pageSz ∣ R
  brk : h.brkCurrent ≤ a
  top : a + R ≤ userMmapTop
  clear : ∀ i < R / pageSz, h.present (a / pageSz + i) = false
  size : h'.size a = R
  flags : h'.flags a = bAlloc ||| bMmap
  bytes : ∀ x, (x < a ∨ a + R ≤ x) → h'.mem x = h.mem x
  present : ∀ q, h'.present q = true ↔ h.present q = true ∨ (a ≤ q * pageSz ∧ q * pageSz < a + R)
  statics : h'.aStart = h.aStart ∧ h'.aEnd = h.aEnd ∧ h'.freeHead = h.freeHead ∧
    h'.heapStart = h.heapStart ∧ h'.brkCurrent = h.brkCurrent ∧ h'.brkCache = h.brkCache

/-- What `mmap_alloc` does when it returns: it refuses, or puts a header on new pages. -/
theorem mmapAlloc_cases (huser : ∀ p, h.present p = true → p * pageSz < 2 ^ 47)
    (hans : MapAnswerOk h ans (roundedOf size)) (heq : mmapAlloc h ans size = .ok (h', p)) :
    (h' = h ∧ p = 0) ∨
      ∃ a R : ℕ, (a : ℤ) = ans.map ∧ p = a + headerSz ∧ size + headerSz ≤ R ∧
        NewMapping h h' a R := by
  unfold mmapAlloc at heq
  by_cases hneed : sizeToNeed size = 0
  · rw [if_pos hneed] at heq
    cases heq
    exact Or.inl ⟨rfl, rfl⟩
  rw [if_neg hneed, sysMmap] at heq
  by_cases hneg : ans.map < 0
  · -- an error: -1 is refused, any other one is no mapped address
    rw [if_pos hneg] at heq
    dsimp only at heq
    split at heq
    · cases heq
      exact Or.inl ⟨rfl, rfl⟩
    · split at heq
      · cases heq
      · rename_i hmapped
        rw [not_not] at hmapped
        have huser := huser _ hmapped
        have hlow := hans.1
        unfold pageSz at huser
        omega
  right
  rw [if_neg hneg] at heq
  obtain ⟨hpage, hpos, hbrk, hcode, htop, hclear⟩ := hans.2 (by omega)
  obtain ⟨hR, hfit, hRlt⟩ := roundedOf_spec hneed hpos
  have hmap : (ans.map.toNat : ℤ) = ans.map := Int.toNat_of_nonneg (by omega)
  generalize roundedOf size = R at *
  generalize ans.map.toNat = a at *
  obtain ⟨m, pr, hg, hm, hpr⟩ := @mapPages_eq h a (R / pageSz) hpage
  rw [Nat.div_mul_cancel hR] at hm hpr
  generalize h.mapPages a (R / pageSz) = g at *
  dsimp only at heq
  have haR : a < 2 ^ 64 - 1 := by
    unfold userMmapTop at htop
    omega
  rw [if_neg (by omega)] at heq
  split at heq
  · cases heq
  injection heq with heq
  injection heq with hh hp
  have hh : g.putTag a R (bAlloc ||| bMmap) = h' := hh
  refine ⟨a, R, hmap, hp.symm, by omega, hpage, hR, hbrk, htop, hclear, ?_, ?_, ?_, ?_, ?_⟩
  · rw [← hh, Heap.size_putTag_self hRlt]
  · rw [← hh]
    exact Heap.flags_putTag_self (by decide)
  · -- only bytes of the new pages change
    intro x hx
    rw [← hh, Heap.putTag_apply (by unfold headerSz at hfit; omega), hg]
    exact hm x hx
  · intro q
    rw [← hpr, ← hh, hg]
    rfl
  · rw [← hh, hg]
    exact ⟨rfl, rfl, rfl, rfl, rfl, rfl⟩

theorem mmapAlloc_inv (hi : Inv s) (hans : MapAnswerOk s.heap ans (roundedOf size))
    (heq : mmapAlloc s.heap ans size = .ok (h', p)) :
    (h' = s.heap ∧ p = 0) ∨
      ((p : ℤ) = ans.map + headerSz ∧ Inv ⟨h', ⟨p, size, true⟩ :: s.live⟩) := by
  rcases mmapAlloc_cases hi.user hans heq with hno | ⟨a, R, hmap, hp, hfit, hnew⟩
  · exact Or.inl hno
  right
  obtain ⟨hst, hen, hfr, hhs, hbrk', hca⟩ := hnew.statics
  have hpos : 0 < R := by
    unfold headerSz at hfit
    omega
  have hap : ∀ y ∈ s.live, y.mapped = true → a + R ≤ y.base ∨ s.heap.mapEnd y ≤ a :=
    fun y hy hym => (hi.maps y hy hym).apart_of_clear hnew.page hnew.whole hpos hnew.clear
  have hhead : ∀ y ∈ s.live, y.mapped = true → ∀ b, y.base ≤ b → b < y.base + headerSz →
      h'.mem b = s.heap.mem b := by
    intro y hy hym b hlo hhi
    apply hnew.bytes
    have hyhead := (hi.maps y hy hym).header_le
    rcases hap y hy hym with h | h <;> omega
  have hold : Inv ⟨h', s.live⟩ := by
    refine hi.update ?_ (fun y hy _ => hy) hhead ?_ ?_ hi.distinct ?_
    · obtain ⟨H, harena, howns⟩ := hi.arena
      have hend := harena.end_le
      have hbrk := hnew.brk
      refine ⟨H, harena.frame hst hen hfr hhs hbrk' hca ?_, howns⟩
      intro b hlo hhi
      exact hnew.bytes b (by omega)
    · intro y hy hym
      rw [hbrk']
      exact (hi.maps y hy hym).brk
    · intro y hy hym q hlo hhi hq
      exact (hnew.present q).mpr (Or.inl hq)
    · intro q hq
      rcases (hnew.present q).mp hq with hq | hq
      · exact hi.user q hq
      · have htop := hnew.top
        unfold userMmapTop at htop
        omega
  have hbase : (⟨p, size, true⟩ : Allocation).base = a := by
    rw [hp]
    exact Nat.add_sub_cancel _ _
  have hend : h'.mapEnd ⟨p, size, true⟩ = a + R := by
    rw [Heap.mapEnd, hbase, hnew.size]
  refine ⟨by rw [hp, ← hmap, Nat.cast_add], hold.addMapping ⟨?_, ?_, ?_, ?_, ?_, ?_, ?_⟩ ?_⟩
  · rw [hbase]
    exact hnew.page
  · rw [hbrk', hp]
    exact Nat.add_le_add_right hnew.brk _
  · rw [hbase, hnew.size]
    exact hnew.whole
  · rw [hbase, hnew.flags]
  · rw [hend, hp]
    dsimp only
    omega
  · rw [hend]
    exact hnew.top
  · intro q hlo hhi
    rw [hbase] at hlo
    rw [hend] at hhi
    exact (hnew.present q).mpr (Or.inr ⟨hlo, hhi⟩)
  · intro y hy hym
    rw [hend, hbase, mapEnd_congr (hhead y hy hym)]
    exact hap y hy hym

theorem malloc_inv (hi : Inv s) (hcall : CallOk s.heap ans size) (hroom : Room s size)
    (heq : malloc s.heap ans size = .ok (h', p)) :
    Inv (grant h' s.live p size) ∧
      (mallocMmapThreshold ≤ size → p ≠ 0 → (p : ℤ) = ans.map + headerSz) := by
  unfold malloc at heq
  by_cases hbig : mallocMmapThreshold ≤ size
  · rw [if_pos hbig] at heq
    rcases mmapAlloc_inv hi hcall.2 heq with ⟨hh, hp⟩ | ⟨hp, hinv⟩
    · rw [grant, if_pos hp, hh]
      exact ⟨hi, fun _ hne => absurd hp hne⟩
    · have hne : p ≠ 0 := by
        have := (hinv.maps _ (List.mem_cons_self) rfl).brk
        unfold headerSz at this
        dsimp only at this
        omega
      rw [grant, if_neg hne, decide_eq_true hbig]
      exact ⟨hinv, fun _ _ => hp⟩
  rw [if_neg hbig] at heq
  refine ⟨?_, fun h => absurd h hbig⟩
  obtain ⟨H, harena, howns⟩ := hi.arena
  obtain ⟨h₁, p₁, heq₁, halloc, habove⟩ := heapAlloc_inv harena hcall.1 (Nat.not_le.mp hbig)
  rw [heq₁] at heq
  cases heq
  have hroom := hroom (Nat.not_le.mp hbig)
  have hbase : ∀ y ∈ s.live, y.mapped = true →
      s.heap.brkCurrent + chunkOf (sizeToNeed size) ≤ y.base := by
    intro y hy hym
    have := hroom y hy hym
    unfold Allocation.base
    omega
  have hmem : ∀ y ∈ s.live, y.mapped = true → ∀ b, y.base ≤ b → b < y.base + headerSz →
      h'.mem b = s.heap.mem b :=
    fun y hy hym b hlo _ => habove.mem b ((hbase y hy hym).trans hlo)
  have hbrk : ∀ y ∈ s.live, y.mapped = true → h'.brkCurrent + headerSz ≤ y.ptr := by
    intro y hy hym
    have := hroom y hy hym
    have := habove.hi
    omega
  have huser : ∀ q, h'.present q = true → q * pageSz < 2 ^ 47 := by
    intro q hq
    rcases habove.user q hq with hq | hq
    · exact hi.user q hq
    · exact hq
  rcases halloc with ⟨hp, harena'⟩ | ⟨b, t, hp, hnew, ht, harena'⟩
  · rw [grant, if_pos hp]
    exact hi.update ⟨H, harena', howns⟩ (fun y hy _ => hy) hmem hbrk
      (fun _ _ _ q _ _ hq => habove.present q hq) hi.distinct huser
  · have hne : p ≠ 0 := by
      rw [hp]
      unfold headerSz
      omega
    rw [grant, if_neg hne, decide_eq_false hbig, hp]
    have htail : ∀ y ∈ (⟨b + headerSz, size, false⟩ :: s.live : List Allocation),
        y.mapped = true → y ∈ s.live := by
      intro y hy hym
      rcases List.mem_cons.mp hy with rfl | hy
      · cases hym
      · exact hy
    refine hi.update ⟨Adds H b t, harena', howns.adds ht⟩ htail
      (fun y hy hym => hmem y (htail y hy hym) hym) (fun y hy hym => hbrk y (htail y hy hym) hym)
      (fun _ _ _ q _ _ hq => habove.present q hq) ?_ huser
    -- the block was free, so its payload is no live pointer
    rw [List.map_cons, List.nodup_cons]
    refine ⟨?_, hi.distinct⟩
    intro hmem'
    obtain ⟨y, hy, hyp⟩ := List.mem_map.mp hmem'
    by_cases hym : y.mapped = true
    · have := hbrk y hy hym
      obtain ⟨-, -, -, hle, hmin, -⟩ := harena'.held (Or.inr ⟨rfl, rfl⟩)
      have := harena'.end_le
      dsimp only at hyp
      unfold headerSz minBlock at *
      omega
    · rw [Allocation.eq_of_not_mapped hym] at hy
      obtain ⟨c, u, hc, hcp, -⟩ := (howns _ _).mp hy
      dsimp only at hyp
      have : c = b := by omega
      exact hnew u (this ▸ hc)

theorem Inv.ptr_lt (hi : Inv s) (hx : x ∈ s.live) : headerSz < x.ptr ∧ x.ptr < 2 ^ 64 := by
  have hpos : 0 < s.heap.brkCurrent ∧ s.heap.brkCurrent ≤ 2 ^ 47 := by
    obtain ⟨H, harena, -⟩ := hi.arena
    exact ⟨harena.pos, harena.top⟩
  by_cases hxm : x.mapped = true
  · have hmap := hi.maps x hx hxm
    have hbrk := hmap.brk
    have hfit := hmap.fits
    have htop := hmap.top
    unfold userMmapTop at htop
    omega
  · have hheap := hi.heapPtr hx hxm
    have hend := hi.end_le
    omega

theorem Inv.without_zero (hi : Inv s) : without s.live 0 = s.live := by
  unfold without
  rw [List.filter_eq_self]
  intro x hx
  have := (hi.ptr_lt hx).1
  exact decide_eq_true (by omega)

theorem nodup_without (hd : (live.map Allocation.ptr).Nodup) :
    ((without live ptr).map Allocation.ptr).Nodup :=
  hd.sublist (List.Sublist.map _ (List.filter_sublist))

/-- What `sys_munmap` can do: nothing, or release everything from its argument on. -/
theorem sysMunmap_cases (a n : ℕ) : sysMunmap h a n = h ∨ sysMunmap h a n = h.umReleaseFrom a := by
  unfold sysMunmap
  split
  · exact Or.inl rfl
  · dsimp only
    split
    · exact Or.inl rfl
    · exact Or.inr rfl

theorem munmap_inv (hi : Inv s) (hx : x ∈ s.live) (hxm : x.mapped = true)
    (htop : TopMapping s.live x.ptr) {n : ℕ} :
    Inv ⟨sysMunmap s.heap x.base n, without s.live x.ptr⟩ := by
  have hmap := hi.maps x hx hxm
  have hptr := hmap.ptr_eq
  have hbase := hmap.base_ge
  -- the statics, the break and the bytes stay; pages below the mapping stay
  have hsame : (sysMunmap s.heap x.base n).aStart = s.heap.aStart ∧
      (sysMunmap s.heap x.base n).aEnd = s.heap.aEnd ∧
      (sysMunmap s.heap x.base n).freeHead = s.heap.freeHead ∧
      (sysMunmap s.heap x.base n).heapStart = s.heap.heapStart ∧
      (sysMunmap s.heap x.base n).brkCurrent = s.heap.brkCurrent ∧
      (sysMunmap s.heap x.base n).brkCache = s.heap.brkCache ∧
      (sysMunmap s.heap x.base n).mem = s.heap.mem := by
    rcases sysMunmap_cases (h := s.heap) x.base n with h | h <;> rw [h] <;>
      exact ⟨rfl, rfl, rfl, rfl, rfl, rfl, rfl⟩
  have hpres : ∀ q, (q * pageSz < x.base → s.heap.present q = true →
      (sysMunmap s.heap x.base n).present q = true) ∧
      ((sysMunmap s.heap x.base n).present q = true → s.heap.present q = true) := by
    intro q
    rcases sysMunmap_cases (h := s.heap) x.base n with h | h <;> rw [h]
    · exact ⟨fun _ hq => hq, fun hq => hq⟩
    · dsimp only [Heap.umReleaseFrom]
      constructor
      · intro hlt hq
        rw [if_neg (by omega)]
        exact hq
      · intro hq
        split at hq
        · cases hq
        · exact hq
  obtain ⟨hs, he, hf, hst, hb, hc, hm⟩ := hsame
  have hsub : ∀ y ∈ without s.live x.ptr, y ∈ s.live := fun y hy => (mem_without.mp hy).1
  refine hi.update ?_ (fun y hy _ => hsub y hy) (fun _ _ _ _ _ _ => by rw [hm]) ?_ ?_
    (nodup_without hi.distinct) (fun q hq => hi.user q ((hpres q).2 hq))
  · obtain ⟨H, harena, howns⟩ := hi.arena
    refine ⟨H, harena.frame hs he hf hst hb hc (fun _ _ _ => by rw [hm]), howns.without ?_⟩
    intro b t hb
    obtain ⟨-, -, -, hle, hmin, -⟩ := harena.held hb
    have := harena.end_le
    unfold minBlock at hmin
    omega
  · intro y hy hym
    rw [hb]
    exact (hi.maps y (hsub y hy) hym).brk
  · intro y hy hym q hlo hhi hq
    apply (hpres q).1 _ hq
    have hle := htop x hx rfl hxm y (hsub y hy) hym
    have hyptr := (hi.maps y (hsub y hy) hym).ptr_eq
    have hhead := hmap.header_le
    have hne := (mem_without.mp hy).2
    rcases hi.apart y (hsub y hy) x hx hym hxm hne with h | h
    · omega
    · unfold headerSz at *
      omega

theorem free_of_header (hpos : headerSz ≤ x.ptr) (hlt : x.ptr < 2 ^ 64)
    (hbit : (h.flags x.base).testBit 2 = x.mapped) :
    free h x.ptr = if ¬ h.mapped x.base then .error .fault
      else if x.mapped then .ok (sysMunmap h x.base (h.size x.base)) else heapFree h x.ptr := by
  have hsub : sub64 x.ptr headerSz = x.base := sub64_of_le hpos hlt
  unfold free
  rw [if_neg (by unfold headerSz at hpos; omega)]
  dsimp only
  rw [hsub, hbit]

theorem free_eq (hi : Inv s) (hx : x ∈ s.live) :
    free s.heap x.ptr = if ¬ s.heap.mapped x.base then .error .fault
      else if x.mapped then .ok (sysMunmap s.heap x.base (s.heap.size x.base))
      else heapFree s.heap x.ptr := by
  obtain ⟨hpos, hlt⟩ := hi.ptr_lt hx
  apply free_of_header hpos.le hlt
  cases hxm : x.mapped with
  | true =>
    rw [(hi.maps x hx hxm).flags]
    decide
  | false =>
    obtain ⟨H, harena, howns⟩ := hi.arena
    obtain ⟨t, hb, -, -⟩ := howns.block hx (by simp [hxm])
    exact (harena.held hb).2.2.2.2.2.2.2.1

theorem free_inv (hi : Inv s) (hx : x ∈ s.live) (htop : TopMapping s.live x.ptr)
    (heq : free s.heap x.ptr = .ok h') : Inv ⟨h', without s.live x.ptr⟩ := by
  rw [free_eq hi hx] at heq
  split at heq
  · cases heq
  by_cases hxm : x.mapped = true
  · rw [if_pos hxm] at heq
    cases heq
    exact munmap_inv hi hx hxm htop
  · obtain ⟨H, harena, howns⟩ := hi.arena
    obtain ⟨t, hb, hp, -⟩ := howns.block hx hxm
    obtain ⟨h₁, heq₁, hsame, harena'⟩ := heapFree_inv harena hb
    rw [if_neg hxm, hp, heq₁] at heq
    injection heq with heq
    subst heq
    have hin : ∀ y ∈ without s.live x.ptr, y ∈ s.live := fun y hy => (mem_without.mp hy).1
    have hend := harena.end_le
    refine hi.update ⟨_, harena', ?_⟩ (fun y hy _ => hin y hy) ?_ ?_ ?_
      (nodup_without hi.distinct) ?_
    · rw [hp]
      exact howns.drops
    · intro y hy hym a hlo hhi
      have := (hi.maps y (hin y hy) hym).base_ge
      exact hsame.outside a (by omega)
    · intro y hy hym
      rw [hsame.brkCurrent]
      exact (hi.maps y (hin y hy) hym).brk
    · rw [hsame.present]
      exact fun _ _ _ _ _ _ hq => hq
    · rw [hsame.present]
      exact hi.user

theorem memset_apply {m : Mem} {d n a : ℕ} {c : UInt8} (h : a < d ∨ d + n ≤ a) :
    memset m d c n a = m a := by
  induction n with
  | zero => rfl
  | succ n ih => rw [memset, Function.update_of_ne (by omega), ih (by omega)]

theorem memcpy_apply {m : Mem} {d src n a : ℕ} (h : a < d ∨ d + n ≤ a) :
    memcpy m d src n a = m a := by
  induction n with
  | zero => rfl
  | succ n ih => rw [memcpy, Function.update_of_ne (by omega), ih (by omega)]

theorem grant_heap : (grant h live p size).heap = h := by
  unfold grant
  split <;> rfl

theorem grant_of_ne (hp : p ≠ 0) :
    grant h live p size = ⟨h, ⟨p, size, mallocMmapThreshold ≤ size⟩ :: live⟩ := if_neg hp

theorem Inv.writeGranted {m : Mem} (hi : Inv (grant h live p size)) (hp : p ≠ 0)
    (hm : ∀ a, (a < p ∨ p + size ≤ a) → m a = h.mem a) :
    Inv (grant (h.setMem m) live p size) := by
  rw [grant_of_ne hp] at *
  apply hi.write
  intro a ha
  exact hm a (ha _ List.mem_cons_self)

theorem calloc_cases {nmemb : ℕ} (heq : calloc h ans nmemb size = .ok (h', p)) :
    (h' = h ∧ p = 0) ∨ ∃ h₁, malloc h ans (nmemb * size) = .ok (h₁, p) ∧
      h' = if p ≠ 0 then h₁.setMem (memset h₁.mem p 0 (nmemb * size)) else h₁ := by
  unfold calloc at heq
  split at heq
  · cases heq
    exact Or.inl ⟨rfl, rfl⟩
  cases hr : malloc h ans (nmemb * size) with
  | error e =>
    rw [hr] at heq
    cases heq
  | ok r =>
    obtain ⟨h₁, p₁⟩ := r
    rw [hr] at heq
    injection heq with heq
    injection heq with hh hp
    subst hp
    exact Or.inr ⟨h₁, rfl, hh.symm⟩

theorem calloc_inv {nmemb : ℕ} (hi : Inv s) (hcall : CallOk s.heap ans (nmemb * size))
    (hroom : Room s (nmemb * size)) (heq : calloc s.heap ans nmemb size = .ok (h', p)) :
    Inv (grant h' s.live p (nmemb * size)) := by
  rcases calloc_cases heq with ⟨rfl, rfl⟩ | ⟨h₁, hnew, rfl⟩
  · exact hi
  have hinv := (malloc_inv hi hcall hroom hnew).1
  by_cases hp : p = 0
  · rw [if_neg (not_not.mpr hp)]
    exact hinv
  · rw [if_pos hp]
    exact hinv.writeGranted hp fun a ha => memset_apply ha

/-- The bytes `realloc` copies fit the new request, which is larger than the old block. -/
theorem copy_le {n : ℕ} (hn : 16 ∣ n) (hmin : minBlock ≤ n) (hlt : n < sizeToNeed size) :
    n - headerSz ≤ size := by
  unfold sizeToNeed at hlt
  split at hlt
  · omega
  · rename_i hsmall
    have halign : align16 size = (size + 15) / 16 * 16 := by
      rw [align16, add64_of_lt (by unfold headerSz at hsmall; omega)]
    rw [halign, add64_of_lt (by unfold headerSz at *; omega)] at hlt
    unfold headerSz minBlock at *
    omega

theorem Inv.header (hi : Inv s) (hx : x ∈ s.live) :
    16 ∣ s.heap.size x.base ∧ minBlock ≤ s.heap.size x.base ∧
      x.req + headerSz ≤ s.heap.size x.base := by
  by_cases hxm : x.mapped = true
  · have hmap := hi.maps x hx hxm
    have hwhole := hmap.whole
    have hptr := hmap.ptr_eq
    have hfit := hmap.fits
    have hpos : 0 < s.heap.size x.base := by
      unfold Heap.mapEnd headerSz at *
      omega
    have hpage := Nat.le_of_dvd hpos hwhole
    unfold Heap.mapEnd pageSz minBlock at *
    omega
  · obtain ⟨H, harena, howns⟩ := hi.arena
    obtain ⟨t, hb, hp, hr⟩ := howns.block hx hxm
    obtain ⟨-, -, -, -, hmin, hd, hsize, -, -, hfit⟩ := harena.held hb
    rw [hsize]
    exact ⟨hd, hmin, hfit _ hr⟩

theorem resized_ptr : (resized live ptr size).map Allocation.ptr = live.map Allocation.ptr := by
  unfold resized
  rw [List.map_map]
  apply List.map_congr_left
  intro x _
  dsimp only [Function.comp]
  split <;> rfl

theorem shrink_inv (hi : Inv s) (hx : x ∈ s.live) (h0 : sizeToNeed size ≠ 0)
    (hle : sizeToNeed size ≤ s.heap.size x.base) :
    Inv ⟨shrinkBlock s.heap x.base (sizeToNeed size), resized s.live x.ptr size⟩ := by
  obtain ⟨h16, h48, hq, -, -⟩ := sizeToNeed_spec h0
  by_cases hxm : x.mapped = true
  · -- a mapping stays as it is
    have hmap := hi.maps x hx hxm
    have hptr := hmap.ptr_eq
    rw [hmap.shrink_eq]
    have hold : ∀ y ∈ resized s.live x.ptr size, y.mapped = true →
        ∃ z ∈ s.live, z.mapped = true ∧ z.ptr = y.ptr ∧
          (z.req = y.req ∨ (y.ptr = x.ptr ∧ y.req = size)) := by
      intro y hy hym
      rcases mem_resized.mp hy with ⟨hy, -⟩ | ⟨hyp, hyr, r, hz⟩
      · exact ⟨y, hy, hym, rfl, Or.inl rfl⟩
      · exact ⟨_, hz, hym, hyp.symm, Or.inr ⟨hyp, hyr⟩⟩
    have hbase : ∀ y z : Allocation, z.ptr = y.ptr → z.base = y.base := by
      intro y z h
      rw [Allocation.base, h, Allocation.base]
    have hmapEnd : ∀ y z : Allocation, z.ptr = y.ptr → s.heap.mapEnd z = s.heap.mapEnd y := by
      intro y z h
      rw [Heap.mapEnd, hbase y z h, Heap.mapEnd]
    refine ⟨?_, ?_, ?_, by rw [resized_ptr]; exact hi.distinct, hi.user⟩
    · obtain ⟨H, harena, howns⟩ := hi.arena
      refine ⟨H, harena, ?_⟩
      intro p q
      rw [← howns p q, mem_resized]
      have hbelow : ∀ r, (⟨x.ptr, r, false⟩ : Allocation) ∉ s.live := by
        intro r hy
        have := (hi.heapPtr hy (by simp)).2.1
        have := hmap.brk
        have := hi.end_le
        dsimp only at *
        omega
      constructor
      · rintro (⟨hy, -⟩ | ⟨-, -, r, hy⟩)
        · exact hy
        · exact absurd hy (hbelow r)
      · intro hy
        refine Or.inl ⟨hy, fun hp => ?_⟩
        dsimp only at hp
        rw [hp] at hy
        exact hbelow q hy
    · intro y hy hym
      obtain ⟨z, hz, hzm, hzp, hzr⟩ := hold y hy hym
      have hzmap := hi.maps z hz hzm
      have hb := hbase y z hzp
      have he := hmapEnd y z hzp
      refine ⟨hb ▸ hzmap.page, hzp ▸ hzmap.brk, hb ▸ hzmap.whole, hb ▸ hzmap.flags, ?_,
        he ▸ hzmap.top, ?_⟩
      · dsimp only
        rcases hzr with hzr | ⟨hyx, hyr⟩
        · have := hzmap.fits
          omega
        · rw [hmapEnd x y hyx, hyx, hyr, Heap.mapEnd]
          omega
      · rw [← hb, ← he]
        exact hzmap.present
    · intro y hy z hz hym hzm hne
      obtain ⟨y', hy', hym', hyp, -⟩ := hold y hy hym
      obtain ⟨z', hz', hzm', hzp, -⟩ := hold z hz hzm
      rw [← hbase y y' hyp, ← hbase z z' hzp, ← hmapEnd y y' hyp, ← hmapEnd z z' hzp]
      exact hi.apart y' hy' z' hz' hym' hzm' (by rw [hyp, hzp]; exact hne)
  · obtain ⟨H, harena, howns⟩ := hi.arena
    obtain ⟨t, hb, hp, hr⟩ := howns.block hx hxm
    have hheld := harena.held hb
    rw [hheld.2.2.2.2.2.2.1] at hle
    obtain ⟨hsame, ⟨t', ht', harena'⟩, -⟩ := shrinkBlock_inv harena hb h16 h48 hle hq
    have hone : ∀ u, H x.base u → u = t := by
      intro u hu
      have hmin := hheld.2.2.2.2.1
      have hmin' := (harena.held hu).2.2.2.2.1
      unfold minBlock at *
      rcases harena.apart hu hb with h | h | h
      · exact h.2
      · omega
      · omega
    have hin : ∀ y ∈ resized s.live x.ptr size, y.mapped = true → y ∈ s.live := by
      intro y hy hym
      rcases mem_resized.mp hy with ⟨hy, -⟩ | ⟨-, -, r, hz⟩
      · exact hy
      · -- a mapping at the address of a block of the arena
        rw [hym] at hz
        have := (hi.maps _ hz rfl).brk
        have := (hi.heapPtr hx hxm).2.1
        have := hi.end_le
        dsimp only at *
        omega
    have hend := harena.end_le
    refine hi.update ⟨_, harena', ?_⟩ hin ?_ ?_ ?_ (by rw [resized_ptr]; exact hi.distinct) ?_
    · rw [hp]
      exact howns.resized hb ht' hone ⟨_, hr⟩
    · intro y hy hym a hlo hhi
      have := (hi.maps y (hin y hy hym) hym).base_ge
      exact hsame.outside a (by omega)
    · intro y hy hym
      rw [hsame.brkCurrent]
      exact (hi.maps y (hin y hy hym) hym).brk
    · rw [hsame.present]
      exact fun _ _ _ _ _ _ hq => hq
    · rw [hsame.present]
      exact hi.user

/-- The state of a `realloc` that moves a block after the copy: both blocks are live. -/
theorem copied_inv (hi : Inv s) (hx : x ∈ s.live) (hcall : CallOk s.heap ans size)
    (hroom : Room s size) (hgrow : s.heap.size x.base < sizeToNeed size) (hp : p ≠ 0)
    (hnew : malloc s.heap ans size = .ok (h', p)) :
    p ≠ x.ptr ∧ Inv ⟨h'.setMem (memcpy h'.mem p x.ptr (s.heap.size x.base - headerSz)),
      ⟨p, size, mallocMmapThreshold ≤ size⟩ :: s.live⟩ := by
  obtain ⟨hinv, -⟩ := malloc_inv hi hcall hroom hnew
  obtain ⟨h16, hmin, -⟩ := hi.header hx
  have hcopy := copy_le h16 hmin hgrow
  have hcopied := hinv.writeGranted hp fun a ha => @memcpy_apply h'.mem p x.ptr
    (s.heap.size x.base - headerSz) a (by omega)
  rw [grant_of_ne hp] at hcopied
  refine ⟨?_, hcopied⟩
  have hd := hcopied.distinct
  rw [List.map_cons, List.nodup_cons] at hd
  intro heq
  exact hd.1 (List.mem_map.mpr ⟨x, hx, heq.symm⟩)

theorem move_inv (hi : Inv s) (hx : x ∈ s.live) (hcall : CallOk s.heap ans size)
    (hroom : Room s size) (htop : TopMapping s.live x.ptr)
    (hbelow : ∀ y ∈ s.live, y.ptr = x.ptr → y.mapped → ans.map < x.ptr)
    (hgrow : s.heap.size x.base < sizeToNeed size) {h₁ : Heap} (hp : p ≠ 0)
    (hnew : malloc s.heap ans size = .ok (h₁, p))
    (hfree : free (h₁.setMem (memcpy h₁.mem p x.ptr (s.heap.size x.base - headerSz))) x.ptr =
      .ok h') : p ≠ x.ptr ∧ Inv (grant h' (without s.live x.ptr) p size) := by
  obtain ⟨-, hmap⟩ := malloc_inv hi hcall hroom hnew
  obtain ⟨hne, hcopied⟩ := copied_inv hi hx hcall hroom hgrow hp hnew
  generalize h₁.setMem (memcpy h₁.mem p x.ptr (s.heap.size x.base - headerSz)) = g at *
  refine ⟨hne, ?_⟩
  -- a mapping that moves goes below its old place, so the old place is still on top
  have htop' : TopMapping (⟨p, size, mallocMmapThreshold ≤ size⟩ :: s.live) x.ptr := by
    intro y hy hyp hym z hz hzm
    have hy : y ∈ s.live := by
      rcases List.mem_cons.mp hy with rfl | hy
      · exact absurd hyp hne
      · exact hy
    rcases List.mem_cons.mp hz with rfl | hz
    · have hpm := hmap (of_decide_eq_true hzm) hp
      have hlt := hbelow y hy hyp hym
      have hpage := (hcopied.maps _ List.mem_cons_self hzm).page
      have hypage := (hi.maps y hy hym).page
      have hyptr := (hi.maps y hy hym).ptr_eq
      unfold Allocation.base pageSz headerSz at *
      dsimp only at *
      omega
    · exact htop y hy hyp hym z hz hzm
  have hfreed := free_inv hcopied (List.mem_cons_of_mem _ hx) htop' hfree
  have hlist : without (⟨p, size, mallocMmapThreshold ≤ size⟩ :: s.live) x.ptr =
      ⟨p, size, mallocMmapThreshold ≤ size⟩ :: without s.live x.ptr :=
    List.filter_cons_of_pos (decide_eq_true hne)
  rw [grant_of_ne hp, ← hlist]
  exact hfreed

end Calls

end VoidOS.Malloc
