import VoidOS.MallocBytes

namespace VoidOS.Malloc

open ByteMem LinkedList Transition

/-- The address `c` is the start of a free block or lies inside one, away from its tags and links
and with room for a block behind it. -/
def Buried (a : ℕ) (ts : List Tile) (c : ℕ) : Prop :=
  ∃ b t, Has a ts b t ∧ t.free = true ∧ (c = b ∨ b + minBlock ≤ c) ∧ c + minBlock ≤ b + t.size

section Buried

variable {h h' : Heap} {l₁ l₂ ds₁ ds₂ ts : List Tile} {t : Tile} {fl fl' : List ℕ} {a b c : ℕ}

theorem Whole.flags_free (hw : Whole h ts fl) (hb : Has h.aStart ts b t) (ht : t.free = true) :
    h.flags b = 0 := by
  obtain ⟨l₁, l₂, rfl, rfl⟩ := hb.split
  exact (hw.freeTag ht rfl).2.1

theorem flags_congr (hm : ∀ x, c + 8 ≤ x → x < c + 16 → h'.mem x = h.mem x) :
    h'.flags c = h.flags c := by
  apply word_congr
  intro x hlo hhi
  exact hm x hlo (by omega)

theorem quiet_of_deep {x : ℕ} (hb : Has a ts b t) (hlo : b + minBlock ≤ c)
    (hhi : c + minBlock ≤ b + t.size) (hx : c + 8 ≤ x) (hx' : x < c + 16) : Quiet a ts x := by
  unfold minBlock at *
  exact ⟨b, t, hb, by omega, by omega, fun _ => ⟨by omega, by omega⟩⟩

theorem Quiet.of_has {x : ℕ} (hx : Quiet b [t] x) (hb : Has a ts b t) : Quiet a ts x := by
  obtain ⟨d, u, ⟨rfl, rfl⟩ | hd, hin⟩ := hx
  · exact ⟨d, u, hb, hin⟩
  · exact hd.elim

theorem Has.start_of_single (hb : Has a ts b t) (hlen : ts.length ≤ 1) : b = a := by
  obtain ⟨l₁, l₂, rfl, rfl⟩ := hb.split
  rw [List.length_append, List.length_cons] at hlen
  have hnil : l₁ = [] := List.eq_nil_of_length_eq_zero (by omega)
  rw [hnil, total_nil, add_zero]

theorem Has.start_or {m : Mem} {pf : Bool} (h : Tagged m pf a ts) (hb : Has a ts b t) :
    b = a ∨ a + minBlock ≤ b := by
  obtain ⟨l₁, l₂, rfl, rfl⟩ := hb.split
  have hlen := length_le_total (tagged_append.mp h).1
  cases l₁ with
  | nil => exact Or.inl rfl
  | cons u us =>
    rw [List.length_cons] at hlen
    unfold minBlock
    omega

/-- `heap_free` of another block leaves a buried header buried, with the flags it has. -/
theorem Merged.buried (hm : Merged h h' l₁ ds₁ t ds₂ l₂ fl')
    (hw : Whole h (l₁ ++ ds₁ ++ t :: (ds₂ ++ l₂)) fl) (ht : t.free = false)
    (hc : Buried h.aStart (l₁ ++ ds₁ ++ t :: (ds₂ ++ l₂)) c) :
    Buried h.aStart (l₁ ++ mergedTile ds₁ t ds₂ :: l₂) c ∧ h'.flags c = h.flags c := by
  have hsize : (mergedTile ds₁ t ds₂).size = total ds₁ + (t.size + total ds₂) := rfl
  have hn : (mergedTile ds₁ t ds₂).free = true := rfl
  have hw' := hm.whole
  generalize mergedTile ds₁ t ds₂ = n at *
  obtain ⟨htag₁, hok, htag₂⟩ := tagged_append.mp hw.tagged
  have htagd := (tagged_append.mp htag₂).1
  have hmin := hok.min
  have hblock : minBlock = 48 := rfl
  have hsum : h.aStart + total l₁ + n.size =
      h.aStart + total (l₁ ++ ds₁) + t.size + total ds₂ := by
    rw [hsize, total_append]
    omega
  have hs := hm.around
  have hnew : Has h.aStart (l₁ ++ n :: l₂) (h.aStart + total l₁) n := has_middle
  have hflags : ∀ {d u}, Has h.aStart (l₁ ++ n :: l₂) d u → u.free = true → h'.flags d = 0 :=
    fun hd hu => hw'.flags_free (by rwa [hs.aStart]) hu
  obtain ⟨d, u, hd, hu, hpos, hend⟩ := hc
  have hold := hw.flags_free hd hu
  have hdeep : ∀ x, d + minBlock ≤ c → c + 8 ≤ x → x < c + 16 → Quiet d [u] x :=
    fun x hlo => quiet_of_deep (Or.inl ⟨rfl, rfl⟩) hlo hend
  have stays : Has h.aStart (l₁ ++ n :: l₂) d u → (∀ x, Quiet d [u] x → h'.mem x = h.mem x) →
      Buried h.aStart (l₁ ++ n :: l₂) c ∧ h'.flags c = h.flags c := by
    intro hhas hq
    refine ⟨⟨d, u, hhas, hu, hpos, hend⟩, ?_⟩
    rcases hpos with rfl | hpos
    · rw [hold, hflags hhas hu]
    · apply flags_congr
      intro x hlo hhi
      exact hq x (hdeep x hpos hlo hhi)
  rw [has_append, has_append, Has, has_append] at hd
  rcases hd with (hd | hd) | ⟨rfl, rfl⟩ | hd | hd
  · -- the header lies in a block before the place that is worked on
    apply stays (has_append.mpr (Or.inl hd))
    intro x hx
    exact hs.quiet x (Or.inl (hx.of_has hd))
  · -- it lies in the free block before the one that goes, with which the new block starts
    have hle := hd.le
    obtain rfl : d = h.aStart + total l₁ := hd.start_of_single hm.one
    refine ⟨⟨_, n, hnew, hn, hpos, by omega⟩, ?_⟩
    rcases hpos with rfl | hpos
    · rw [hold, hflags hnew hn]
    · apply flags_congr
      intro x hlo hhi
      have hquiet := quiet_append.mpr (Or.inr ((hdeep x hpos hlo hhi).of_has hd))
      exact hm.inside x (by omega) (by omega) (Or.inl hquiet) (by omega)
  · rw [ht] at hu
    cases hu
  · -- it lies in a free block after it, with which the new block ends
    have hle := hd.le
    have hstart := hd.start_or htagd
    refine ⟨⟨_, n, hnew, hn, Or.inr (by omega), by omega⟩, ?_⟩
    apply flags_congr
    intro x hlo hhi
    exact hm.inside x (by omega) (by omega) (Or.inr (by omega)) (by omega)
  · -- it lies in a block after that place
    apply stays
    · rw [has_append, Has, hsum]
      exact Or.inr (Or.inr hd)
    · intro x hx
      exact hs.quiet x (Or.inr (hx.of_has hd))

/-- The header of the block that goes is buried. It keeps both its flags when a free block before
it absorbs the block, and loses them otherwise. -/
theorem Merged.own (hm : Merged h h' l₁ ds₁ t ds₂ l₂ fl')
    (hw : Whole h (l₁ ++ ds₁ ++ t :: (ds₂ ++ l₂)) fl) (ht : t.free = false)
    (hb : b = h.aStart + total (l₁ ++ ds₁)) :
    Buried h.aStart (l₁ ++ mergedTile ds₁ t ds₂ :: l₂) b ∧
      h'.flags b = if (h.flags b).testBit 1 then bAlloc ||| bPrev else 0 := by
  have hsize : (mergedTile ds₁ t ds₂).size = total ds₁ + (t.size + total ds₂) := rfl
  have hn : (mergedTile ds₁ t ds₂).free = true := rfl
  have hw' := hm.whole
  generalize mergedTile ds₁ t ds₂ = n at *
  obtain ⟨htag₁, hok, htag₂⟩ := tagged_append.mp hw.tagged
  have hmin := hok.min
  have hblock : minBlock = 48 := rfl
  have hflags : h.flags b = flagWord (lastFree false (l₁ ++ ds₁)) false := by
    rw [hb]
    exact hok.flags.trans (by rw [ht])
  have hnew : Has h.aStart (l₁ ++ n :: l₂) (h.aStart + total l₁) n := has_middle
  have hs := hm.around
  rw [total_append] at hb
  cases hds : ds₁ with
  | nil =>
    rw [hds, total_nil] at hb hsize
    rw [hds, List.append_nil, hm.apart] at hflags
    refine ⟨⟨_, n, hnew, hn, Or.inl hb, by omega⟩, ?_⟩
    rw [hflags, hb, hw'.flags_free (by rwa [hs.aStart]) hn]
    rfl
  | cons u us =>
    have hlen := length_le_total (tagged_append.mp htag₁).2
    have hpf : lastFree false (l₁ ++ ds₁) = true := by
      have hone := hm.one
      rw [hds, List.length_cons] at hone
      have hnil : us = [] := List.eq_nil_of_length_eq_zero (by omega)
      rw [hds, hnil, lastFree_append]
      exact hm.before u (by simp [hds])
    have hkeep : h'.flags b = h.flags b := by
      apply flags_congr
      intro x hlo hhi
      rw [hds, List.length_cons, ← hds] at hlen
      exact hm.inside x (by omega) (by rw [total_append]; omega)
        (Or.inr (by rw [total_append]; omega)) (Or.inl (by rw [total_append]; omega))
    rw [hds, List.length_cons, ← hds] at hlen
    refine ⟨⟨_, n, hnew, hn, Or.inr (by omega), by omega⟩, ?_⟩
    rw [hkeep, hflags, hpf]
    rfl

end Buried

/-- Between the two frees of a pointer nothing is allocated. -/
def Releases : Op → Prop
  | .free _ => True
  | .store _ _ => True
  | _ => False

/-- What frees rely on: the tiling, its owners, and the headers of the mappings. The pages of the
mappings are left out, since `munmap` may take those of live ones. -/
structure Freeing (s : State) (ts : List Tile) : Prop where
  tiling : ∃ fl, Whole s.heap ts fl
  owns : Owns (Held s.heap.aStart ts) s.live
  below : s.heap.aEnd ≤ s.heap.brkCurrent
  maps : ∀ x ∈ s.live, x.mapped = true → x.ptr = x.base + headerSz ∧ x.ptr < 2 ^ 64 ∧
    s.heap.brkCurrent ≤ x.base ∧ (s.heap.flags x.base).testBit 2 = true
  heads : ∀ x ∈ s.live, x.mapped = true → ∀ y ∈ s.live, ∀ a, x.base ≤ a →
    a < x.base + headerSz → a < y.ptr ∨ y.ptr + y.req ≤ a

def Stale (s : State) (c v : ℕ) : Prop :=
  ∃ ts, Freeing s ts ∧ Buried s.heap.aStart ts c ∧ s.heap.flags c = v ∧ s.heap.mapped c = true

section Freeing

variable {s s' : State} {h' : Heap} {ts ts' : List Tile} {x : Allocation} {op : Op} {c v : ℕ}

theorem Inv.freeing (hi : Inv s) : ∃ ts, Freeing s ts := by
  obtain ⟨H, harena, howns⟩ := hi.arena
  obtain ⟨ts, fl, hw, hH⟩ := harena.tiling
  have hHeld : H = Held s.heap.aStart ts := by
    ext c u
    exact hH c u
  refine ⟨ts, ⟨fl, hw⟩, hHeld ▸ howns, hi.end_le, ?_, ?_⟩
  · intro x hx hxm
    have hmap := hi.maps x hx hxm
    refine ⟨hmap.ptr_eq, (hi.ptr_lt hx).2, hmap.base_ge, ?_⟩
    rw [hmap.flags]
    decide
  · intro x hx hxm y hy a hlo hhi
    exact hi.header_apart hx hxm hy hlo hhi

theorem Freeing.next (hf : Freeing s ts) (hw : ∃ fl, Whole s'.heap ts' fl)
    (ho : Owns (Held s'.heap.aStart ts') s'.live) (hend : s'.heap.aEnd = s.heap.aEnd)
    (hbrk : s'.heap.brkCurrent = s.heap.brkCurrent) (hsub : ∀ x ∈ s'.live, x ∈ s.live)
    (hheads : ∀ x ∈ s'.live, x.mapped = true → s'.heap.flags x.base = s.heap.flags x.base) :
    Freeing s' ts' := by
  refine ⟨hw, ho, by rw [hend, hbrk]; exact hf.below, ?_, ?_⟩
  · intro x hx hxm
    rw [hbrk, hheads x hx hxm]
    exact hf.maps x (hsub x hx) hxm
  · intro x hx hxm y hy
    exact hf.heads x (hsub x hx) hxm y (hsub y hy)

theorem Freeing.block (hf : Freeing s ts) (hx : x ∈ s.live) (hxm : ¬ x.mapped = true) :
    ∃ l₁ t l₂, ts = l₁ ++ t :: l₂ ∧ t.free = false ∧ x.base = s.heap.aStart + total l₁ ∧
      x.ptr = x.base + headerSz ∧ x.ptr + x.req ≤ x.base + t.size ∧
      x.base + t.size ≤ s.heap.aEnd := by
  obtain ⟨fl, hw⟩ := hf.tiling
  obtain ⟨t, ⟨hhas, hfree⟩, hp, hr⟩ := hf.owns.block hx hxm
  obtain ⟨pf, hok⟩ := hw.tagged.has hhas
  have hfit := hok.fits _ hr
  have hle := hhas.le
  have hspan := hw.span
  obtain ⟨l₁, l₂, rfl, hb⟩ := hhas.split
  exact ⟨l₁, t, l₂, rfl, hfree, hb, hp, by omega, by omega⟩

theorem Freeing.free_eq (hf : Freeing s ts) (hx : x ∈ s.live) :
    free s.heap x.ptr = if ¬ s.heap.mapped x.base then .error .fault
      else if x.mapped then .ok (sysMunmap s.heap x.base (s.heap.size x.base))
      else heapFree s.heap x.ptr := by
  by_cases hxm : x.mapped = true
  · obtain ⟨hptr, hlt, -, hbit⟩ := hf.maps x hx hxm
    exact free_of_header (by omega) hlt (by rw [hbit, hxm])
  · obtain ⟨fl, hw⟩ := hf.tiling
    obtain ⟨l₁, t, l₂, rfl, hfree, hb, hp, hfit, hend⟩ := hf.block hx hxm
    obtain ⟨-, hok, -⟩ := tagged_append.mp hw.tagged
    have hbit : (s.heap.flags x.base).testBit 2 = false := by
      rw [hb, Heap.flags, hok.flags, hfree]
      cases lastFree false l₁ <;> decide
    have htop := hw.top
    exact free_of_header (by omega) (by omega) (by rw [hbit, (Bool.not_eq_true _).mp hxm])

/-- `heap_free` of a live pointer: what becomes of the headers inside free blocks, and of the
pointer's own one. -/
theorem Freeing.heapFree (hf : Freeing s ts) (hx : x ∈ s.live) (hxm : ¬ x.mapped = true) :
    ∃ h' ts', heapFree s.heap x.ptr = .ok h' ∧ SameArena s.heap h' ∧
      Freeing ⟨h', without s.live x.ptr⟩ ts' ∧
      (∀ c, Buried s.heap.aStart ts c →
        Buried s.heap.aStart ts' c ∧ h'.flags c = s.heap.flags c) ∧
      Buried s.heap.aStart ts' x.base ∧
      h'.flags x.base = if (s.heap.flags x.base).testBit 1 then bAlloc ||| bPrev else 0 := by
  obtain ⟨fl, hw⟩ := hf.tiling
  obtain ⟨l₁, t, l₂, rfl, hfree, hb, hp, -, -⟩ := hf.block hx hxm
  obtain ⟨h', l₁', ds₁, ds₂, l₂', fl', rfl, rfl, heq, hm⟩ := heapFree_spec hw hfree
  have hs := hm.around.toSameArena
  have howns : Owns (Held s.heap.aStart (l₁' ++ mergedTile ds₁ t ds₂ :: l₂'))
      (without s.live x.ptr) := by
    have hdrops : Held s.heap.aStart (l₁' ++ mergedTile ds₁ t ds₂ :: l₂') =
        Drops (Held s.heap.aStart (l₁' ++ ds₁ ++ t :: (ds₂ ++ l₂'))) x.base := by
      ext c u
      rw [hm.held, hb]
      rfl
    rw [hdrops, hp]
    exact hf.owns.drops
  refine ⟨h', _, by rw [hp, hb]; exact heq, hs, ?_, fun c => hm.buried hw hfree,
    hm.own hw hfree hb⟩
  refine hf.next ⟨fl', hm.whole⟩ (by rw [hs.aStart]; exact howns) hs.aEnd hs.brkCurrent
    without_subset ?_
  -- the headers of mappings lie above the arena
  intro y hy hym
  obtain ⟨-, -, hbrk, -⟩ := hf.maps y (without_subset y hy) hym
  have hbelow := hf.below
  apply flags_congr
  intro a hlo hhi
  exact hs.outside a (by omega)

theorem Freeing.buried_lt (hf : Freeing s ts) (hc : Buried s.heap.aStart ts c) :
    c + minBlock ≤ s.heap.aEnd ∧ s.heap.aEnd < 2 ^ 48 := by
  obtain ⟨fl, hw⟩ := hf.tiling
  obtain ⟨b, t, hb, -, -, hend⟩ := hc
  have hle := hb.le
  have hspan := hw.span
  exact ⟨by omega, hw.top⟩

theorem Stale.munmap (hs : Stale s c v) (hx : x ∈ s.live) (hxm : x.mapped = true) (n : ℕ) :
    Stale ⟨sysMunmap s.heap x.base n, without s.live x.ptr⟩ c v := by
  obtain ⟨ts, hf, hc, hv, hmap⟩ := hs
  obtain ⟨hptr, -, hbrk, -⟩ := hf.maps x hx hxm
  obtain ⟨hend, -⟩ := hf.buried_lt hc
  have hbelow := hf.below
  have howns : Owns (Held s.heap.aStart ts) (without s.live x.ptr) := by
    obtain ⟨fl, hw⟩ := hf.tiling
    apply hf.owns.without
    intro b t hb
    have hle := hb.1.le
    have hspan := hw.span
    obtain ⟨pf, hok⟩ := hw.tagged.has hb.1
    have hmin := hok.min
    unfold minBlock at hmin
    omega
  rcases sysMunmap_cases (h := s.heap) x.base n with h | h <;> rw [h]
  · exact ⟨ts, hf.next hf.tiling howns rfl rfl without_subset fun _ _ _ => rfl, hc, hv, hmap⟩
  · refine ⟨ts, hf.next ?_ howns rfl rfl without_subset fun _ _ _ => rfl, hc, hv, ?_⟩
    · obtain ⟨fl, hw⟩ := hf.tiling
      exact ⟨fl, hw.frame rfl rfl rfl fun _ _ _ => rfl⟩
    · have hdiv := Nat.div_mul_le_self c pageSz
      unfold minBlock at hend
      unfold Heap.mapped Heap.umReleaseFrom at *
      dsimp only
      rw [if_neg (by omega)]
      exact hmap

theorem Stale.store {a : ℕ} {w : UInt8} (hs : Stale s c v) (hx : x ∈ s.live) (hlo : x.ptr ≤ a)
    (hhi : a < x.ptr + x.req) :
    Stale ⟨s.heap.setMem (Function.update s.heap.mem a w), s.live⟩ c v := by
  obtain ⟨ts, hf, hc, hv, hmap⟩ := hs
  obtain ⟨fl, hw⟩ := hf.tiling
  obtain ⟨hend, -⟩ := hf.buried_lt hc
  have hbelow := hf.below
  -- the byte is payload of a block that is handed out, or lies above the arena
  have hplace : s.heap.aEnd ≤ a ∨ ∃ b t, Held s.heap.aStart ts b t ∧ b + headerSz ≤ a ∧
      a < b + t.size := by
    by_cases hxm : x.mapped = true
    · obtain ⟨hptr, -, hbrk, -⟩ := hf.maps x hx hxm
      exact Or.inl (by omega)
    · obtain ⟨l₁, t, l₂, rfl, hfree, hb, hp, hfit, -⟩ := hf.block hx hxm
      exact Or.inr ⟨x.base, t, ⟨hb ▸ has_middle, hfree⟩, by omega, by omega⟩
  have hwhole : Whole (s.heap.setMem (Function.update s.heap.mem a w)) ts fl := by
    apply hw.write
    intro y hylo hyhi hout
    apply Function.update_of_ne
    rintro rfl
    rcases hplace with h | ⟨b, t, hb, hblo, hbhi⟩
    · omega
    · have := hout b t hb hblo
      omega
  refine ⟨ts, hf.next ⟨fl, hwhole⟩ hf.owns rfl rfl (fun _ hy => hy) ?_, hc, ?_, hmap⟩
  · intro y hy hym
    apply flags_congr
    intro z hzlo hzhi
    apply Function.update_of_ne
    rintro rfl
    have := hf.heads y hy hym x hx z (by omega) (by unfold headerSz; omega)
    omega
  · rw [← hv]
    apply flags_congr
    intro z hzlo hzhi
    apply Function.update_of_ne
    rintro rfl
    obtain ⟨d, u, hd, hu, hpos, hdend⟩ := hc
    unfold minBlock at hend hdend hpos
    rcases hplace with h | ⟨b, t, ⟨hb, hfree⟩, hblo, hbhi⟩
    · omega
    · rcases hd.apart hb with ⟨rfl, rfl⟩ | h | h
      · rw [hu] at hfree
        cases hfree
      · omega
      · omega

theorem stale_step (hs : Stale s c v) (hok : Legal s op ∧ Releases op)
    (heq : step s op = some s') : Stale s' c v := by
  obtain ⟨hl, hr⟩ := hok
  cases op with
  | malloc ans size => exact hr.elim
  | calloc ans nmemb size => exact hr.elim
  | realloc ans ptr size => exact hr.elim
  | free ptr =>
    obtain ⟨h', hfree, rfl⟩ := toOption_map_eq_some heq
    rcases hl with rfl | ⟨x, hx, rfl⟩
    · -- `free(NULL)`
      rw [free, if_pos rfl] at hfree
      cases hfree
      obtain ⟨ts, hf, hrest⟩ := hs
      refine ⟨ts, hf.next hf.tiling ?_ rfl rfl without_subset fun _ _ _ => rfl, hrest⟩
      apply hf.owns.without
      intro b t _
      unfold headerSz
      omega
    · have hs' := hs
      obtain ⟨ts, hf, hc, hv, hmap⟩ := hs
      rw [hf.free_eq hx] at hfree
      split at hfree
      · cases hfree
      by_cases hxm : x.mapped = true
      · rw [if_pos hxm] at hfree
        cases hfree
        exact hs'.munmap hx hxm _
      · obtain ⟨h₁, ts', heq₁, hsame, hf', hkeep, -⟩ := hf.heapFree hx hxm
        rw [if_neg hxm, heq₁] at hfree
        injection hfree with hfree
        subst hfree
        obtain ⟨hc', hflags⟩ := hkeep c hc
        refine ⟨ts', hf', by rw [hsame.aStart]; exact hc', hflags.trans hv, ?_⟩
        rw [Heap.mapped, hsame.present]
        exact hmap
  | store a w =>
    obtain ⟨x, hx, hlo, hhi⟩ := hl
    rw [step] at heq
    split at heq
    · cases heq
      exact hs.store hx hlo hhi
    · cases heq

/-- The first `free` of a pointer into the arena returns and leaves its header stale. -/
theorem free_stale (hi : Inv s) (hb : Backed s.heap) (hx : x ∈ s.live)
    (hxm : ¬ x.mapped = true) : ∃ s', step s (.free x.ptr) = some s' ∧
      Stale s' x.base (if (s.heap.flags x.base).testBit 1 then bAlloc ||| bPrev else 0) := by
  obtain ⟨ts, hf⟩ := hi.freeing
  have hmap := hi.mapped_base hb hx
  obtain ⟨h', ts', heq, hsame, hf', -, hown, hflags⟩ := hf.heapFree hx hxm
  refine ⟨⟨h', without s.live x.ptr⟩, ?_, ts', hf', by rw [hsame.aStart]; exact hown, hflags, ?_⟩
  · rw [step, hf.free_eq hx, if_neg (not_not.mpr hmap), if_neg hxm, heq]
    rfl
  · rw [Heap.mapped, hsame.present]
    exact hmap

theorem Stale.free_eq (hs : Stale s c v) (hbit : v.testBit 2 = false) :
    free s.heap (c + headerSz) = .error .doubleFree ↔ v.testBit 0 = false := by
  obtain ⟨ts, hf, hc, rfl, hmap⟩ := hs
  obtain ⟨hend, htop⟩ := hf.buried_lt hc
  have hsub : sub64 (c + headerSz) headerSz = c := by
    rw [sub64_of_le (by omega) (by unfold headerSz minBlock at *; omega), Nat.add_sub_cancel]
  rw [free, if_neg (by unfold headerSz; omega)]
  dsimp only
  rw [hsub, hmap, if_neg (by simp), hbit, if_neg (by simp), Malloc.heapFree, hsub]
  cases (s.heap.flags c).testBit 0 <;> simp

end Freeing

section Twice

variable {s : State} {x : Allocation}

/-- Whether a second `free` of a pointer into the arena stops the process as a double free is
decided when it is freed first: it does if and only if the block before it is not free then. -/
theorem double_free_iff (h : Reach step (fun s op => Legal s op ∧ Tame s op) Init s)
    (hx : x ∈ s.live) (hxm : x.mapped = false) :
    ∃ s₁, step s (.free x.ptr) = some s₁ ∧
      ∀ s₂, Reach step (fun s op => Legal s op ∧ Releases op) (· = s₁) s₂ →
        (free s₂.heap x.ptr = .error .doubleFree ↔ (s.heap.flags x.base).testBit 1 = false) := by
  obtain ⟨hi, hb⟩ := reach_backed h
  obtain ⟨s₁, heq, hstale⟩ := free_stale hi hb hx (by simp [hxm])
  refine ⟨s₁, heq, fun s₂ hrun => ?_⟩
  have hstale₂ : Stale s₂ x.base
      (if (s.heap.flags x.base).testBit 1 then bAlloc ||| bPrev else 0) := by
    apply hrun.invariant
    · intro s' hs'
      rw [hs']
      exact hstale
    · intro s' s'' op hs' hok hstep
      exact stale_step hs' hok hstep
  have hptr : x.ptr = x.base + headerSz := by
    have := (hi.ptr_lt hx).1
    unfold Allocation.base
    omega
  rw [hptr, hstale₂.free_eq]
  · cases (s.heap.flags x.base).testBit 1 <;> decide
  · cases (s.heap.flags x.base).testBit 1 <;> decide

/-- Two blocks of which the second is freed between the two frees of the first. -/
theorem double_free_second_between : ∃ s s₁ s₂, step s (.free 0x401010) = some s₁ ∧
    step s₁ (.free 0x401040) = some s₂ ∧ free s₂.heap 0x401010 = .error .doubleFree := by
  have hrun : ((runIf step (fun s op => Legal s op ∧ Tame s op) emptyProcess
      [.malloc ⟨1, -1⟩ 24, .malloc ⟨0, -1⟩ 24]).bind fun s =>
      (step s (.free 0x401010)).bind fun s₁ =>
      (step s₁ (.free 0x401040)).map fun _ =>
        (decide (⟨0x401010, 24, false⟩ ∈ s.live), (s.heap.flags 0x401000).testBit 1,
          decide (Legal s₁ (.free 0x401040)))) = some (true, false, true) := by
    decide +kernel
  obtain ⟨s, hs, hrun⟩ := Option.bind_eq_some_iff.mp hrun
  obtain ⟨s₁, hs₁, hrun⟩ := Option.bind_eq_some_iff.mp hrun
  obtain ⟨s₂, hs₂, hrun⟩ := Option.map_eq_some_iff.mp hrun
  simp only [Prod.mk.injEq, decide_eq_true_eq] at hrun
  obtain ⟨hmem, hprev, hlegal⟩ := hrun
  obtain ⟨s₁', hs₁', hall⟩ :=
    double_free_iff ((Reach.init emptyProcess_init).runIf hs) hmem rfl
  obtain rfl : s₁' = s₁ := Option.some.inj (hs₁'.symm.trans hs₁)
  refine ⟨s, s₁', s₂, hs₁, hs₂, (hall s₂ ?_).mpr hprev⟩
  exact Reach.step (Reach.init rfl) ⟨hlegal, trivial⟩ hs₂

/-- Of three blocks the first is free when the second goes. The second `free` of the second one
returns, and the free block it makes runs over the third, which is in use. All of it happens in
the first page of the arena. -/
theorem double_free_undetected : ∃ s s₁ h, Reach step (fun s op => Legal s op ∧ Tame s op) Init s ∧
    ⟨0x401040, 24, false⟩ ∈ s.live ∧ step s (.free 0x401040) = some s₁ ∧
    ⟨0x401070, 24, false⟩ ∈ s₁.live ∧ free s₁.heap 0x401040 = .ok h ∧
    h.freeHead = 0x401010 ∧ h.size 0x401000 = 144 := by
  have hrun : ((runIf step (fun s op => Legal s op ∧ Tame s op) emptyProcess
      [.malloc ⟨1, -1⟩ 24, .malloc ⟨0, -1⟩ 24, .malloc ⟨0, -1⟩ 24, .free 0x401010]).bind fun s =>
      (step s (.free 0x401040)).bind fun s₁ =>
      (free s₁.heap 0x401040).toOption.map fun h =>
        (decide (⟨0x401040, 24, false⟩ ∈ s.live), decide (⟨0x401070, 24, false⟩ ∈ s₁.live),
          h.freeHead, h.size 0x401000)) = some (true, true, 0x401010, 144) := by
    decide +kernel
  obtain ⟨s, hs, hrun⟩ := Option.bind_eq_some_iff.mp hrun
  obtain ⟨s₁, hs₁, hrun⟩ := Option.bind_eq_some_iff.mp hrun
  obtain ⟨h, hfree, hrun⟩ := toOption_map_eq_some hrun
  simp only [Prod.mk.injEq, decide_eq_true_eq] at hrun
  exact ⟨s, s₁, h, (Reach.init emptyProcess_init).runIf hs, hrun.1, hs₁, hrun.2.1, hfree, hrun.2.2⟩

end Twice

end VoidOS.Malloc
