import VoidOS.MallocHeapOk

namespace VoidOS.Malloc

open ByteMem LinkedList Transition

/-- The bytes that the owners of `live` asked for stay as they are, and so do the pages of the
arena. -/
structure Keeps (h h' : Heap) (live : List Allocation) : Prop where
  bytes : ∀ x ∈ live, ∀ a, x.ptr ≤ a → a < x.ptr + x.req → h'.mem a = h.mem a
  backed : Backed h → Backed h'

section Keeps

variable {s s' : State} {h h' h'' : Heap} {H : ℕ → Tile → Prop} {x : Allocation}
  {live live' : List Allocation} {ans : Answer} {size p ptr : ℕ} {big : Bool}

theorem Keeps.refl (h : Heap) (live : List Allocation) : Keeps h h live :=
  ⟨fun _ _ _ _ _ => rfl, fun hb => hb⟩

theorem Keeps.trans (h₁ : Keeps h h' live) (h₂ : Keeps h' h'' live) : Keeps h h'' live := by
  refine ⟨?_, fun hb => h₂.backed (h₁.backed hb)⟩
  intro x hx a hlo hhi
  rw [h₂.bytes x hx a hlo hhi, h₁.bytes x hx a hlo hhi]

theorem Keeps.mono (hk : Keeps h h' live) (hsub : ∀ x ∈ live', x ∈ live) : Keeps h h' live' :=
  ⟨fun x hx => hk.bytes x (hsub x hx), hk.backed⟩

theorem without_subset : ∀ x ∈ without live ptr, x ∈ live := fun _ hx => (mem_without.mp hx).1

theorem Keeps.setMem {m : Mem}
    (hm : ∀ x ∈ live, ∀ a, x.ptr ≤ a → a < x.ptr + x.req → m a = h.mem a) :
    Keeps h (h.setMem m) live := ⟨hm, fun hb => hb.mono rfl rfl fun _ hp => hp⟩

theorem Owns.payload (harena : ArenaInv h H) (howns : Owns H live) (hx : x ∈ live)
    (hxm : ¬ x.mapped = true) : ∃ t, H x.base t ∧ x.ptr = x.base + headerSz ∧
      x.ptr + x.req ≤ x.base + t.size := by
  obtain ⟨t, hb, hp, hr⟩ := howns.block hx hxm
  have hfit := (harena.held hb).2.2.2.2.2.2.2.2.2 _ hr
  exact ⟨t, hb, hp, by omega⟩

theorem malloc_keeps (hi : Inv s) (hcall : CallOk s.heap ans size) (hroom : Room s size)
    (heq : malloc s.heap ans size = .ok (h', p)) : Keeps s.heap h' s.live := by
  unfold malloc at heq
  by_cases hbig : mallocMmapThreshold ≤ size
  · rw [if_pos hbig] at heq
    rcases mmapAlloc_cases hi.user hcall.2 heq with ⟨rfl, -⟩ | ⟨a, R, -, -, hfit, hnew⟩
    · exact Keeps.refl _ _
    obtain ⟨hst, hen, -⟩ := hnew.statics
    refine ⟨?_, fun hb => hb.mono hst hen fun q hq => (hnew.present q).mpr (Or.inl hq)⟩
    intro x hx b hlo hhi
    apply hnew.bytes
    by_cases hxm : x.mapped = true
    · have hmap := hi.maps x hx hxm
      have hptr := hmap.ptr_eq
      have hend := hmap.fits
      have hpos : 0 < R := by
        unfold headerSz at hfit
        omega
      rcases hmap.apart_of_clear hnew.page hnew.whole hpos hnew.clear with h | h <;> omega
    · have hend := (hi.heapPtr hx hxm).1
      have hle := hi.end_le
      have hbrk := hnew.brk
      omega
  · rw [if_neg hbig] at heq
    obtain ⟨H, harena, howns⟩ := hi.arena
    obtain ⟨h₁, p₁, heq₁, -, hgrows⟩ := heapAlloc_inv harena hcall.1 (Nat.not_le.mp hbig)
    rw [heq₁] at heq
    cases heq
    refine ⟨?_, hgrows.backed⟩
    intro x hx a hlo hhi
    by_cases hxm : x.mapped = true
    · have := hroom (Nat.not_le.mp hbig) x hx hxm
      exact hgrows.mem a (by omega)
    · obtain ⟨t, hb, hptr, hfit⟩ := howns.payload harena hx hxm
      exact hgrows.payload _ t hb a (by omega) (by omega)

/-- `sys_munmap` of a mapping keeps all bytes, and the pages of the arena lie below it. -/
theorem munmap_keeps (hi : Inv s) (hx : x ∈ s.live) (hxm : x.mapped = true) (n : ℕ) :
    Keeps s.heap (sysMunmap s.heap x.base n) s.live := by
  rcases sysMunmap_cases (h := s.heap) x.base n with h | h <;> rw [h]
  · exact Keeps.refl _ _
  · refine ⟨fun _ _ _ _ _ => rfl, ?_⟩
    intro hb a hlo hhi
    have hbase := (hi.maps x hx hxm).base_ge
    have hend := hi.end_le
    have hhi : a < s.heap.aEnd := hhi
    have hdiv := Nat.div_mul_le_self a pageSz
    have hpage := hb a hlo hhi
    unfold Heap.mapped Heap.umReleaseFrom at *
    dsimp only
    rw [if_neg (by omega)]
    exact hpage

theorem SameBlocks.keeps (hsame : SameBlocks s.heap h' (Drops H x.base)) (hi : Inv s)
    (harena : ArenaInv s.heap H) (howns : Owns H s.live) (hp : x.ptr = x.base + headerSz) :
    Keeps s.heap h' (without s.live x.ptr) := by
  refine ⟨?_, fun hb => hb.mono hsame.aStart hsame.aEnd fun q hq => by rwa [hsame.present]⟩
  intro y hy a hlo hhi
  obtain ⟨hy, hne⟩ := mem_without.mp hy
  by_cases hym : y.mapped = true
  · have := (hi.maps y hy hym).brk
    have := harena.end_le
    exact hsame.outside a (by omega)
  · obtain ⟨u, hc, hyp, hfit⟩ := howns.payload harena hy hym
    exact hsame.payload _ u ⟨hc, by omega⟩ a (by omega) (by omega)

theorem free_keeps (hi : Inv s) (hx : x ∈ s.live) (heq : free s.heap x.ptr = .ok h') :
    Keeps s.heap h' (without s.live x.ptr) := by
  rw [free_eq hi hx] at heq
  split at heq
  · cases heq
  by_cases hxm : x.mapped = true
  · rw [if_pos hxm] at heq
    cases heq
    exact (munmap_keeps hi hx hxm _).mono without_subset
  · obtain ⟨H, harena, howns⟩ := hi.arena
    obtain ⟨t, hb, hp, -⟩ := howns.block hx hxm
    obtain ⟨h₁, heq₁, hsame, -⟩ := heapFree_inv harena hb
    rw [if_neg hxm, hp, heq₁] at heq
    injection heq with heq
    subst heq
    exact hsame.keeps hi harena howns hp

theorem shrink_keeps (hi : Inv s) (hx : x ∈ s.live) (h0 : sizeToNeed size ≠ 0)
    (hle : sizeToNeed size ≤ s.heap.size x.base) :
    Keeps s.heap (shrinkBlock s.heap x.base (sizeToNeed size)) (without s.live x.ptr) := by
  obtain ⟨h16, h48, hq, -, -⟩ := sizeToNeed_spec h0
  by_cases hxm : x.mapped = true
  · rw [(hi.maps x hx hxm).shrink_eq]
    exact Keeps.refl _ _
  · obtain ⟨H, harena, howns⟩ := hi.arena
    obtain ⟨t, hb, hp, hr⟩ := howns.block hx hxm
    rw [(harena.held hb).2.2.2.2.2.2.1] at hle
    obtain ⟨hsame, -⟩ := shrinkBlock_inv harena hb h16 h48 hle hq
    exact hsame.keeps hi harena howns hp

theorem Inv.disjoint {y : Allocation} (hi : Inv s) (hx : x ∈ s.live) (hy : y ∈ s.live)
    (hne : x.ptr ≠ y.ptr) : x.ptr + x.req ≤ y.ptr ∨ y.ptr + y.req ≤ x.ptr := by
  have hbase : ∀ z : Allocation, z.base ≤ z.ptr := fun z => Nat.sub_le _ _
  have hxb := hbase x
  have hyb := hbase y
  by_cases hxm : x.mapped = true
  · by_cases hym : y.mapped = true
    · have hxf := (hi.maps x hx hxm).fits
      have hyf := (hi.maps y hy hym).fits
      rcases hi.apart x hx y hy hxm hym hne with h | h <;> omega
    · rcases hi.heapOk.apart y hy x hx (by simpa using hym) hne.symm with h | h <;> omega
  · rcases hi.heapOk.apart x hx y hy (by simpa using hxm) hne with h | h <;> omega

theorem memcpy_copied {m : Mem} {d src n i : ℕ} (hi : i < n) (hout : ∀ j < n, src + i ≠ d + j) :
    memcpy m d src n (d + i) = m (src + i) := by
  have hsrc : ∀ k ≤ n, memcpy m d src k (src + i) = m (src + i) := by
    intro k hk
    induction k with
    | zero => rfl
    | succ k ih => rw [memcpy, Function.update_of_ne (hout k (by omega)), ih (by omega)]
  induction n with
  | zero => omega
  | succ n ih =>
    rw [memcpy]
    by_cases h : i = n
    · subst h
      rw [Function.update_self]
      exact hsrc i (by omega)
    · rw [Function.update_of_ne (by omega)]
      exact ih (by omega) (fun j hj => hout j (by omega)) fun k hk => hsrc k (by omega)

theorem Inv.granted_apart {y : Allocation} (hi : Inv ⟨h, ⟨p, size, big⟩ :: live⟩)
    (hy : y ∈ live) : y.ptr + y.req ≤ p ∨ p + size ≤ y.ptr := by
  have hd := hi.distinct
  rw [List.map_cons, List.nodup_cons] at hd
  have hyp : y.ptr ≠ p := fun h => hd.1 (List.mem_map.mpr ⟨y, hy, h⟩)
  exact hi.disjoint (List.mem_cons_of_mem _ hy) List.mem_cons_self hyp

theorem calloc_keeps {nmemb : ℕ} (hi : Inv s) (hcall : CallOk s.heap ans (nmemb * size))
    (hroom : Room s (nmemb * size)) (heq : calloc s.heap ans nmemb size = .ok (h', p)) :
    Keeps s.heap h' s.live := by
  rcases calloc_cases heq with ⟨rfl, -⟩ | ⟨h₁, hnew, rfl⟩
  · exact Keeps.refl _ _
  have hkeep := malloc_keeps hi hcall hroom hnew
  by_cases hp : p = 0
  · rw [if_neg (not_not.mpr hp)]
    exact hkeep
  · rw [if_pos hp]
    have hinv := (malloc_inv hi hcall hroom hnew).1
    rw [grant_of_ne hp] at hinv
    apply hkeep.trans
    apply Keeps.setMem
    intro y hy a hlo hhi
    have := hinv.granted_apart hy
    exact memset_apply (by omega)

/-- The part of `realloc` that moves the block keeps the other blocks and carries over what was
asked for. -/
theorem move_keeps (hi : Inv s) (hx : x ∈ s.live) (hcall : CallOk s.heap ans size)
    (hroom : Room s size) (hgrow : s.heap.size x.base < sizeToNeed size) {h₁ : Heap} (hp : p ≠ 0)
    (hnew : malloc s.heap ans size = .ok (h₁, p))
    (hfree : free (h₁.setMem (memcpy h₁.mem p x.ptr (s.heap.size x.base - headerSz))) x.ptr =
      .ok h') :
    Keeps s.heap h' (without s.live x.ptr) ∧
      ∀ i < x.req, h'.mem (p + i) = s.heap.mem (x.ptr + i) := by
  obtain ⟨hne, hcopied⟩ := copied_inv hi hx hcall hroom hgrow hp hnew
  obtain ⟨h16, hmin, hfit⟩ := hi.header hx
  have hcopy := copy_le h16 hmin hgrow
  have hkeep := malloc_keeps hi hcall hroom hnew
  have hapart : ∀ y ∈ s.live, y.ptr + y.req ≤ p ∨ p + size ≤ y.ptr :=
    fun y hy => hcopied.granted_apart hy
  have hcopies : Keeps h₁ (h₁.setMem (memcpy h₁.mem p x.ptr (s.heap.size x.base - headerSz)))
      s.live := by
    apply Keeps.setMem
    intro y hy a hlo hhi
    have := hapart y hy
    exact memcpy_apply (by omega)
  have hbytes : ∀ i < x.req, memcpy h₁.mem p x.ptr (s.heap.size x.base - headerSz) (p + i) =
      s.heap.mem (x.ptr + i) := by
    intro i hi'
    have := hapart x hx
    rw [memcpy_copied (by omega) (by omega)]
    exact hkeep.bytes x hx _ (by omega) (by omega)
  have hfreed := free_keeps hcopied (List.mem_cons_of_mem _ hx) hfree
  constructor
  · apply ((hkeep.trans hcopies).mono without_subset).trans
    apply hfreed.mono
    intro y hy
    obtain ⟨hy, hne'⟩ := mem_without.mp hy
    exact mem_without.mpr ⟨List.mem_cons_of_mem _ hy, hne'⟩
  · intro i hi'
    rw [← hbytes i hi']
    exact hfreed.bytes ⟨p, size, _⟩ (mem_without.mpr ⟨List.mem_cons_self, hne⟩) _ (by simp)
      (by dsimp only; omega)

theorem realloc_keeps (hi : Inv s) (hx : x ∈ s.live) (hs0 : size ≠ 0)
    (hcall : CallOk s.heap ans size) (hroom : Room s size)
    (heq : realloc s.heap ans x.ptr size = .ok (h', p)) :
    Keeps s.heap h' (without s.live x.ptr) := by
  rcases realloc_cases hi hx hs0 heq with ⟨rfl, -⟩ | ⟨hneed, hfit, rfl, -⟩ | ⟨-, -, hnew⟩ |
    ⟨hgrow, hp, h₁, hnew, hf⟩
  · exact Keeps.refl _ _
  · exact shrink_keeps hi hx hneed hfit
  · exact (malloc_keeps hi hcall hroom hnew).mono without_subset
  · exact (move_keeps hi hx hcall hroom hgrow hp hnew hf).1

end Keeps

section Pages

variable {s s' : State} {op : Op} {x : Allocation}

theorem step_backed (hi : Inv s) (hb : Backed s.heap) (hok : Legal s op ∧ Tame s op)
    (hs : step s op = some s') : Backed s'.heap := by
  obtain ⟨hl, ht⟩ := hok
  have hfree : ∀ ptr h', (ptr = 0 ∨ Live s ptr) → free s.heap ptr = .ok h' → Backed h' := by
    intro ptr h' hlive heq
    rcases hlive with rfl | ⟨x, hx, rfl⟩
    · rw [free, if_pos rfl] at heq
      cases heq
      exact hb
    · exact (free_keeps hi hx heq).backed hb
  cases op with
  | malloc ans size =>
    obtain ⟨⟨h, p⟩, heq, rfl⟩ := toOption_map_eq_some hs
    rw [grant_heap]
    exact (malloc_keeps hi hl.2 ht heq).backed hb
  | calloc ans nmemb size =>
    obtain ⟨⟨h, p⟩, heq, rfl⟩ := toOption_map_eq_some hs
    rw [grant_heap]
    exact (calloc_keeps hi hl.2.2 ht heq).backed hb
  | realloc ans ptr size =>
    obtain ⟨⟨h, p⟩, heq, rfl⟩ := toOption_map_eq_some hs
    obtain ⟨hlive, -, hcall⟩ := hl
    have hback : Backed h := by
      by_cases h0 : ptr = 0
      · rw [realloc, if_pos h0] at heq
        exact (malloc_keeps hi hcall ht.1 heq).backed hb
      · by_cases hs0 : size = 0
        · rw [realloc, if_neg h0, if_pos hs0] at heq
          cases hf : free s.heap ptr with
          | error e =>
            rw [hf] at heq
            cases heq
          | ok h₁ =>
            rw [hf] at heq
            cases heq
            exact hfree ptr _ hlive hf
        · obtain ⟨x, hx, rfl⟩ := hlive.resolve_left h0
          exact (realloc_keeps hi hx hs0 hcall ht.1 heq).backed hb
    split_ifs <;> first | exact hback | (rw [grant_heap]; exact hback)
  | free ptr =>
    obtain ⟨h, heq, rfl⟩ := toOption_map_eq_some hs
    exact hfree ptr h hl heq
  | store a v =>
    rw [step] at hs
    split at hs
    · cases hs
      exact hb
    · cases hs

theorem reach_backed (h : Reach step (fun s op => Legal s op ∧ Tame s op) Init s) :
    Inv s ∧ Backed s.heap := by
  apply h.invariant
  · intro s h0
    refine ⟨h0.inv, fun a _ hhi => ?_⟩
    rw [h0.statics.2.1] at hhi
    exact absurd hhi (Nat.not_lt_zero a)
  · intro s s' op hi hok hs
    exact ⟨step_inv hi.1 hok hs, step_backed hi.1 hi.2 hok hs⟩

theorem Inv.mapped_base (hi : Inv s) (hb : Backed s.heap) (hx : x ∈ s.live) :
    s.heap.mapped x.base = true := by
  by_cases hxm : x.mapped = true
  · have hmap := hi.maps x hx hxm
    have hhead := hmap.header_le
    have hpage := hmap.page
    apply hmap.present
    · unfold pageSz at *
      omega
    · unfold pageSz headerSz at *
      omega
  · obtain ⟨H, harena, howns⟩ := hi.arena
    obtain ⟨t, ht, -, -⟩ := howns.block hx hxm
    obtain ⟨-, -, hlo, hhi, hmin, -⟩ := harena.held ht
    exact hb _ hlo (by unfold minBlock at hmin; omega)

end Pages

end VoidOS.Malloc
