import VoidOS.MallocArena

namespace VoidOS.Malloc

open ByteMem LinkedList

section Kernel

variable {h : Heap} {va n c : ℕ} {ans : Answer}

theorem mapPages_eq (hva : pageSz ∣ va) :
    ∃ m pr, h.mapPages va n = { h with mem := m, present := pr } ∧
      (∀ x, (x < va ∨ va + n * pageSz ≤ x) → m x = h.mem x) ∧
      ∀ p, pr p = true ↔ h.present p = true ∨ (va ≤ p * pageSz ∧ p * pageSz < va + n * pageSz) := by
  induction n generalizing h va with
  | zero =>
    refine ⟨h.mem, h.present, rfl, fun _ _ => rfl, ?_⟩
    intro p
    constructor
    · exact Or.inl
    · rintro (hp | hp)
      · exact hp
      · omega
  | succ n ih =>
    have hdiv : va / pageSz * pageSz = va := Nat.div_mul_cancel hva
    obtain ⟨m, pr, heq, hm, hp⟩ := @ih (h.mapPage va) (va + pageSz) (dvd_add hva (dvd_refl _))
    refine ⟨m, pr, heq, ?_, ?_⟩
    · intro x hx
      rw [Nat.succ_mul] at hx
      have hmem : (h.mapPage va).mem x = zeros h.mem va pageSz x := by
        rw [Heap.mapPage, hdiv]
      rw [hm x (by omega), hmem]
      exact zeros_apply (by omega)
    · intro p
      have hpres : (h.mapPage va).present p = if p = va / pageSz then true else h.present p :=
        Function.update_apply _ _ _ _
      have hpage : p = va / pageSz ↔ va ≤ p * pageSz ∧ p * pageSz < va + pageSz := by
        clear hm hp heq ih
        unfold pageSz at *
        omega
      rw [hp, hpres, Nat.succ_mul]
      by_cases hpv : p = va / pageSz
      · have := hpage.mp hpv
        simp only [if_pos hpv, true_or, true_iff]
        right
        omega
      · have hn : ¬ (va ≤ p * pageSz ∧ p * pageSz < va + pageSz) := fun hc => hpv (hpage.mpr hc)
        have hps : 0 < pageSz := by decide
        have hiff : (va + pageSz ≤ p * pageSz ∧ p * pageSz < va + pageSz + n * pageSz) ↔
            (va ≤ p * pageSz ∧ p * pageSz < va + (n * pageSz + pageSz)) := by omega
        rw [if_neg hpv, hiff]

structure BreakOk (h : Heap) : Prop where
  page : pageSz ∣ h.brkCurrent
  pos : 0 < h.brkCurrent
  start : h.heapStart ≤ h.brkCurrent
  top : h.brkCurrent ≤ 2 ^ 47
  cache : h.brkCache = 0 ∨ h.brkCache = h.brkCurrent

theorem sysSbrk_eq (hk : BreakOk h) (hc : pageSz ∣ c) (hc0 : 0 < c) (hclt : c ≤ 2 ^ 40) :
    sysSbrk h ans c =
      if c / pageSz ≤ ans.pages then
        ({ ({ h with brkCache := h.brkCurrent } : Heap).mapPages h.brkCurrent (c / pageSz) with
           brkCurrent := h.brkCurrent + c
           brkCache := h.brkCurrent + c }, some h.brkCurrent)
      else (({ h with brkCache := h.brkCurrent } : Heap).mapPages h.brkCurrent ans.pages, none) := by
  have hpos := hk.pos
  have htop := hk.top
  have hstart := hk.start
  generalize hg : ({ h with brkCache := h.brkCurrent } : Heap) = g
  have hgc : g.brkCurrent = h.brkCurrent := by rw [← hg]
  have hgs : g.heapStart = h.heapStart := by rw [← hg]
  have hgk : g.brkCache = h.brkCurrent := by rw [← hg]
  have hcache : (if h.brkCache = 0 then { h with brkCache := h.brkCurrent } else h) = g := by
    rcases hk.cache with h0 | h0
    · rw [if_pos h0, hg]
    · rw [if_neg (by omega), ← hg]
      exact congrArg (fun k => ({ h with brkCache := k } : Heap)) h0
  have hadd : add64 h.brkCurrent c = h.brkCurrent + c := add64_of_lt (by omega)
  have hpages : (h.brkCurrent + c - h.brkCurrent + (pageSz - 1)) / pageSz = c / pageSz := by
    unfold pageSz at *
    omega
  have hset : sysBrk g ans (h.brkCurrent + c) =
      if c / pageSz ≤ ans.pages then
        ({ g.mapPages h.brkCurrent (c / pageSz) with brkCurrent := h.brkCurrent + c },
          some (h.brkCurrent + c))
      else (g.mapPages h.brkCurrent ans.pages, none) := by
    unfold sysBrk umBrkSet
    rw [if_neg (by omega), if_neg (by omega), if_neg (by omega), if_pos (by omega), hgc, hpages]
    by_cases hle : c / pageSz ≤ ans.pages
    · simp only [if_pos hle]
    · simp only [if_neg hle]
  unfold sysSbrk
  rw [if_neg (by omega), hcache]
  dsimp only
  rw [hgk, hadd, if_neg (by omega), hset]
  by_cases hle : c / pageSz ≤ ans.pages
  · simp only [if_pos hle, if_true]
  · simp only [if_neg hle, reduceCtorEq, if_false]

/-- `sys_sbrk` fails, or extends the break contiguously; bytes change above the old break only. -/
theorem sysSbrk_spec (hk : BreakOk h) (hans : h.brkCurrent + ans.pages * pageSz ≤ 2 ^ 47)
    (hc : pageSz ∣ c) (hc0 : 0 < c) (hclt : c ≤ 2 ^ 40) :
    ∃ m pr, (∀ x, (x < h.brkCurrent ∨ h.brkCurrent + c ≤ x) → m x = h.mem x) ∧
      (∀ p, h.present p = true → pr p = true) ∧
      (∀ p, pr p = true → h.present p = true ∨ p * pageSz < 2 ^ 47) ∧
      ((∃ k, (k = 0 ∨ k = h.brkCurrent) ∧ ans.pages * pageSz < c ∧
          sysSbrk h ans c = ({ h with mem := m, present := pr, brkCache := k }, none)) ∨
        (c ≤ ans.pages * pageSz ∧
          (∀ p, h.brkCurrent ≤ p * pageSz → p * pageSz < h.brkCurrent + c → pr p = true) ∧
          sysSbrk h ans c =
          ({ h with
             mem := m
             present := pr
             brkCache := h.brkCurrent + c
             brkCurrent := h.brkCurrent + c }, some h.brkCurrent))) := by
  have hpage := hk.page
  have hcdiv : c / pageSz * pageSz = c := Nat.div_mul_cancel hc
  rw [sysSbrk_eq hk hc hc0 hclt]
  generalize hg : ({ h with brkCache := h.brkCurrent } : Heap) = g
  by_cases hle : c / pageSz ≤ ans.pages
  · obtain ⟨m, pr, heq, hm, hp⟩ := @mapPages_eq g h.brkCurrent (c / pageSz) hpage
    have hle' : c ≤ ans.pages * pageSz := by
      rw [← hcdiv]
      exact Nat.mul_le_mul_right _ hle
    rw [hcdiv] at hm hp
    refine ⟨m, pr, ?_, fun p h0 => (hp p).mpr (Or.inl (by rw [← hg]; exact h0)), ?_,
      Or.inr ⟨hle', fun p hlo hhi => (hp p).mpr (Or.inr ⟨hlo, hhi⟩), ?_⟩⟩
    · intro x hx
      rw [hm x hx, ← hg]
    · intro p h0
      rcases (hp p).mp h0 with h0 | h0
      · exact Or.inl (by rw [← hg] at h0; exact h0)
      · exact Or.inr (by omega)
    · rw [if_pos hle, heq, ← hg]
  · obtain ⟨m, pr, heq, hm, hp⟩ := @mapPages_eq g h.brkCurrent ans.pages hpage
    have hsmall : ans.pages * pageSz < c := by
      rw [← hcdiv]
      exact Nat.mul_lt_mul_of_pos_right (by omega) (by decide)
    refine ⟨m, pr, ?_, fun p h0 => (hp p).mpr (Or.inl (by rw [← hg]; exact h0)), ?_,
      Or.inl ⟨h.brkCurrent, Or.inr rfl, hsmall, ?_⟩⟩
    · intro x hx
      rw [hm x (by omega), ← hg]
    · intro p h0
      rcases (hp p).mp h0 with h0 | h0
      · exact Or.inl (by rw [← hg] at h0; exact h0)
      · exact Or.inr (by omega)
    · rw [if_neg hle, heq, ← hg]

end Kernel

/-- The arena is tiled, the blocks handed out are those of `H`, and the arena ends at the break. -/
structure ArenaInv (h : Heap) (H : ℕ → Tile → Prop) : Prop extends BreakOk h where
  tiling : ∃ ts fl, Whole h ts fl ∧ ∀ c u, H c u ↔ Held h.aStart ts c u
  arena : (h.aStart = 0 ∧ h.aEnd = 0) ∨ (0 < h.aStart ∧ h.aEnd = h.brkCurrent)
  limit : h.aEnd - h.aStart ≤ processMaxUmap * pageSz

def Adds (H : ℕ → Tile → Prop) (b : ℕ) (t : Tile) (c : ℕ) (u : Tile) : Prop :=
  H c u ∨ (c = b ∧ u = t)

def Drops (H : ℕ → Tile → Prop) (b c : ℕ) (u : Tile) : Prop := H c u ∧ c ≠ b

/-- Bounds the kernel keeps to when it grants pages to the break: user addresses, and the number
of pages it records for a process. -/
def AnswerOk (h : Heap) (ans : Answer) : Prop :=
  h.brkCurrent + ans.pages * pageSz ≤ 2 ^ 47 ∧
    h.aEnd - h.aStart + ans.pages * pageSz ≤ processMaxUmap * pageSz

section Inv

variable {h h' : Heap} {H H' : ℕ → Tile → Prop} {ts : List Tile} {fl : List ℕ} {b c need q : ℕ}
  {t u : Tile} {ans : Answer}

theorem Whole.frame (hw : Whole h ts fl) (hs : h'.aStart = h.aStart) (he : h'.aEnd = h.aEnd)
    (hf : h'.freeHead = h.freeHead)
    (hm : ∀ x, h.aStart ≤ x → x < h.aEnd → h'.mem x = h.mem x) : Whole h' ts fl := by
  have hspan := hw.span
  refine ⟨hs ▸ hw.start, he ▸ hw.top, ?_, by rw [hs, he, hspan], ?_, by rw [hs]; exact hw.nodes⟩
  · rw [hs]
    apply hw.tagged.frame
    intro x hx
    have := hx.range hw.tagged
    exact hm x (by omega) (by omega)
  · apply list_frame hw.list hf
    intro k hk x hlo hhi
    have := ((hw.nodes k).mp hk).range hw.tagged
    exact hm x (by omega) (by omega)

theorem ArenaInv.step (hi : ArenaInv h H) (hs : SameArena h h')
    (ht : ∃ ts fl, Whole h' ts fl ∧ ∀ c u, H' c u ↔ Held h'.aStart ts c u) : ArenaInv h' H' := by
  refine ⟨⟨?_, ?_, ?_, ?_, ?_⟩, ht, ?_, ?_⟩
  · rw [hs.brkCurrent]
    exact hi.page
  · rw [hs.brkCurrent]
    exact hi.pos
  · rw [hs.brkCurrent, hs.heapStart]
    exact hi.start
  · rw [hs.brkCurrent]
    exact hi.top
  · rw [hs.brkCurrent, hs.brkCache]
    exact hi.cache
  · rw [hs.brkCurrent, hs.aStart, hs.aEnd]
    exact hi.arena
  · rw [hs.aStart, hs.aEnd]
    exact hi.limit

theorem ArenaInv.held (hi : ArenaInv h H) (hb : H b t) :
    16 ∣ b ∧ 0 < h.aStart ∧ h.aStart ≤ b ∧ b + t.size ≤ h.aEnd ∧ minBlock ≤ t.size ∧ 16 ∣ t.size ∧
      h.size b = t.size ∧ (h.flags b).testBit 2 = false ∧ t.free = false ∧
      ∀ r ∈ t.req, r + headerSz ≤ t.size := by
  obtain ⟨ts, fl, hw, hH⟩ := hi.tiling
  obtain ⟨hhas, hf⟩ := (hH b t).mp hb
  obtain ⟨pf, hok⟩ := hw.tagged.has hhas
  have hle := hhas.le
  have hspan := hw.span
  have hmin := hok.min
  have hst := hw.start
  obtain ⟨l₁, l₂, rfl, hbeq⟩ := hhas.split
  have hd := total_dvd (tagged_append.mp hw.tagged).1
  refine ⟨by omega, ?_, hle.1, by omega, hok.min, hok.aligned, hok.size, ?_, hf, hok.fits⟩
  · rcases hi.arena with ⟨h0, h0'⟩ | h0
    · unfold minBlock at hmin
      omega
    · exact h0.1
  · rw [Heap.flags, hok.flags, hf]
    cases pf <;> decide

theorem ArenaInv.apart (hi : ArenaInv h H) (hb : H b t) (hc : H c u) :
    (b = c ∧ t = u) ∨ b + t.size ≤ c ∨ c + u.size ≤ b := by
  obtain ⟨ts, fl, hw, hH⟩ := hi.tiling
  exact ((hH b t).mp hb).1.apart ((hH c u).mp hc).1

/-- Stores that stay inside the payload of one block, or outside the arena, keep the tiling. -/
theorem Whole.write {m : Mem} (hw : Whole h ts fl)
    (hm : ∀ x, h.aStart ≤ x → x < h.aEnd →
      (∀ b t, Held h.aStart ts b t → b + headerSz ≤ x → b + t.size ≤ x) → m x = h.mem x) :
    Whole (h.setMem m) ts fl := by
  have hspan := hw.span
  -- a byte of a payload is no tag and no link word
  have htag : ∀ x, TagByte h.aStart ts x → m x = h.mem x := by
    intro x hx
    have hr := hx.range hw.tagged
    apply hm x (by omega) (by omega)
    rintro b t ⟨hhas, hf⟩ hlo
    by_contra hhi
    exact hw.tagged.not_tagByte hhas hlo (by omega) (by simp [hf]) hx
  have hlink : ∀ k ∈ fl, ∀ x, k ≤ x → x < k + 16 → m x = h.mem x := by
    intro k hk x hlo hhi
    have hn := (hw.nodes k).mp hk
    have hr := hn.range hw.tagged
    apply hm x (by omega) (by omega)
    rintro b t ⟨hhas, hf⟩ hbx
    obtain ⟨d, v, hd, hv, rfl⟩ := hn
    obtain ⟨pf, hok⟩ := hw.tagged.has hd
    have hmin := hok.min
    unfold minBlock at hmin
    unfold headerSz at *
    rcases hd.apart hhas with ⟨rfl, rfl⟩ | h₁ | h₁
    · simp_all
    · omega
    · omega
  exact ⟨hw.start, hw.top, hw.tagged.frame htag, hspan, list_frame hw.list rfl hlink, hw.nodes⟩

theorem ArenaInv.write {m : Mem} (hi : ArenaInv h H)
    (hm : ∀ x, h.aStart ≤ x → x < h.aEnd →
      (∀ b t, H b t → b + headerSz ≤ x → b + t.size ≤ x) → m x = h.mem x) :
    ArenaInv (h.setMem m) H := by
  obtain ⟨ts, fl, hw, hH⟩ := hi.tiling
  refine { hi with tiling := ⟨ts, fl, hw.write ?_, hH⟩ }
  intro x hlo hhi hout
  exact hm x hlo hhi fun b t hb => hout b t ((hH b t).mp hb)

theorem arenaInit_inv (hi : ArenaInv h H) :
    ArenaInv (arenaInit h) H ∧ 0 < (arenaInit h).aStart ∧ (arenaInit h).mem = h.mem ∧
      (arenaInit h).present = h.present ∧ (arenaInit h).brkCurrent = h.brkCurrent ∧
      (arenaInit h).aEnd - (arenaInit h).aStart = h.aEnd - h.aStart := by
  unfold arenaInit
  by_cases h0 : h.aStart = 0
  · rw [if_pos h0]
    have hend : h.aEnd = 0 := by
      rcases hi.arena with ⟨-, he⟩ | ⟨hs, -⟩
      · exact he
      · omega
    refine ⟨?_, hi.pos, rfl, rfl, rfl, by dsimp only; omega⟩
    obtain ⟨ts, fl, hw, hH⟩ := hi.tiling
    have hspan := hw.span
    have hlen := length_le_total hw.tagged
    have hts : ts = [] := List.length_eq_zero_iff.mp (by omega)
    subst hts
    have hpage := hi.page
    have htop := hi.top
    refine ⟨⟨hi.page, hi.pos, hi.start, hi.top, hi.cache⟩,
      ⟨[], fl, ⟨?_, ?_, trivial, by simp, hw.list, hw.nodes⟩, hH⟩,
      Or.inr ⟨hi.pos, rfl⟩, by simp⟩
    · unfold pageSz at hpage
      dsimp only
      omega
    · dsimp only
      omega
  · rw [if_neg h0]
    exact ⟨hi, by omega, rfl, rfl, rfl, rfl⟩

/-- The block size for a request covers it, its header and the smallest block. -/
theorem sizeToNeed_spec {size : ℕ} (h0 : sizeToNeed size ≠ 0) :
    16 ∣ sizeToNeed size ∧ 48 ≤ sizeToNeed size ∧ size + headerSz ≤ sizeToNeed size ∧
      sizeToNeed size ≤ max 48 (size + 31) ∧ sizeToNeed size < 2 ^ 64 := by
  unfold sizeToNeed headerSz at *
  split at h0
  · exact absurd rfl h0
  · rename_i hlt
    have halign : align16 size = (size + 15) / 16 * 16 := by
      rw [align16, add64_of_lt (by omega)]
    rw [if_neg hlt, halign, add64_of_lt (by omega)]
    unfold minBlock
    omega

theorem chunkOf_spec {need : ℕ} (hlt : need ≤ 2 ^ 30) :
    pageSz ∣ chunkOf need ∧ 0 < chunkOf need ∧ chunkOf need ≤ 2 ^ 40 := by
  unfold chunkOf
  rw [add64_of_lt (by unfold pageSz; omega)]
  unfold pageSz
  omega

/-- `cut_first_fit` serves the request from a free block, or changes nothing. -/
theorem cutFirstFit_inv (hi : ArenaInv h H) (h0 : 0 < h.aStart) (h16 : 16 ∣ need)
    (h48 : 48 ≤ need) (hq : q + headerSz ≤ need) :
    cutFirstFit h need = some (h, 0) ∨
      ∃ h' b t, cutFirstFit h need = some (h', b + headerSz) ∧ SameBlocks h h' H ∧
        (∀ u, ¬ H b u) ∧ t.req = some q ∧ ArenaInv h' (Adds H b t) := by
  obtain ⟨ts, fl, hw, hH⟩ := hi.tiling
  unfold cutFirstFit
  rcases findFree_spec hw fun blk => decide (need ≤ h.size blk) with
    ⟨hf, -⟩ | ⟨b, t, hf, hb, ht, hfb⟩
  · left
    rw [hf]
    rfl
  · right
    have hle := hb.le
    have hfit : need ≤ t.size := by
      obtain ⟨pf, hok⟩ := hw.tagged.has hb
      rw [← hok.size]
      exact of_decide_eq_true hfb
    have hnot : ∀ u, ¬ H b u := by
      intro u hu
      obtain ⟨hhas, huf⟩ := (hH b u).mp hu
      rcases hb.apart hhas with ⟨-, rfl⟩ | h₁ | h₁
      · simp_all
      · omega
      · have := (hi.held hu).2.2.2.2.1
        unfold minBlock at this
        omega
    obtain ⟨l₁, l₂, rfl, hbeq⟩ := hb.split
    obtain ⟨ts', fl', hw', hs, t', ht', hserve⟩ := cutBlock_spec hw ht hbeq h16 h48 hfit hq
    have hkeep : SameBlocks h (cutBlock h b need) H := by
      refine ⟨hs.toSameArena, fun c u hu => hs.payload c u ⟨(hH c u).mp hu, ?_⟩⟩
      rintro rfl
      exact hnot u hu
    refine ⟨cutBlock h b need, b, t', ?_, hkeep, hnot, ht',
      hi.step hs.toSameArena ⟨ts', fl', hw', ?_⟩⟩
    · rw [hf, Option.map_some, if_neg (by omega)]
    · intro c u
      rw [hs.aStart, hserve, Adds, hH]
      constructor
      · rintro (hc | hc)
        · refine Or.inl ⟨hc, ?_⟩
          rintro rfl
          exact hnot u ((hH _ _).mpr hc)
        · exact Or.inr hc
      · rintro (hc | hc)
        · exact Or.inl hc.1
        · exact Or.inr hc

theorem heapFree_inv (hi : ArenaInv h H) (hb : H b t) :
    ∃ h', heapFree h (b + headerSz) = .ok h' ∧ SameBlocks h h' (Drops H b) ∧
      ArenaInv h' (Drops H b) := by
  obtain ⟨ts, fl, hw, hH⟩ := hi.tiling
  obtain ⟨hhas, hf⟩ := (hH b t).mp hb
  obtain ⟨l₁, l₂, rfl, rfl⟩ := hhas.split
  obtain ⟨h', l₁', ds₁, ds₂, l₂', fl', rfl, rfl, heq, hmerged⟩ := heapFree_spec hw hf
  have hs := hmerged.around
  refine ⟨h', heq, ⟨hs.toSameArena, fun c u hu => ?_⟩,
    hi.step hs.toSameArena ⟨_, fl', hmerged.whole, fun c u => ?_⟩⟩
  · exact (hs.blocks hmerged.before hmerged.after rfl rfl).payload c u ⟨(hH c u).mp hu.1, hu.2⟩
  · rw [hs.aStart, hmerged.held, Drops, hH]

theorem shrinkBlock_inv (hi : ArenaInv h H) (hb : H b t) (h16 : 16 ∣ need) (h48 : 48 ≤ need)
    (hle : need ≤ t.size) (hq : q + headerSz ≤ need) :
    SameBlocks h (shrinkBlock h b need) (Drops H b) ∧
      (∃ t', t'.req = some q ∧ ArenaInv (shrinkBlock h b need) (Adds (Drops H b) b t')) ∧
      (∀ x, b + 8 ≤ x → x + 16 < b + need → (shrinkBlock h b need).mem x = h.mem x) ∧
      (minBlock ≤ t.size - need → word (shrinkBlock h b need).mem (b + need - 16) = need) := by
  obtain ⟨ts, fl, hw, hH⟩ := hi.tiling
  obtain ⟨hhas, hf⟩ := (hH b t).mp hb
  obtain ⟨l₁, l₂, rfl, hbeq⟩ := hhas.split
  obtain ⟨ts', fl', hw', hs, ⟨t', ht', hserve⟩, hbytes⟩ :=
    shrinkBlock_spec hw hf hbeq h16 h48 hle hq
  refine ⟨⟨hs.toSameArena, fun c u hu => hs.payload c u ⟨(hH c u).mp hu.1, hu.2⟩⟩,
    ⟨t', ht', hi.step hs.toSameArena ⟨ts', fl', hw', ?_⟩⟩, hbytes⟩
  intro c u
  rw [hs.aStart, hserve, Adds, Drops, hH]

/-- Nothing at or above `e` changes, no page goes, and the break stays below `e`. -/
structure Above (h h' : Heap) (e : ℕ) : Prop where
  mem : ∀ x, e ≤ x → h'.mem x = h.mem x
  present : ∀ p, h.present p = true → h'.present p = true
  user : ∀ p, h'.present p = true → h.present p = true ∨ p * pageSz < 2 ^ 47
  lo : h.brkCurrent ≤ h'.brkCurrent
  hi : h'.brkCurrent ≤ e

theorem Above.trans {h'' : Heap} {e : ℕ} (h₁ : Above h h' e) (h₂ : Above h' h'' e) :
    Above h h'' e := by
  refine ⟨?_, fun p hp => h₂.present p (h₁.present p hp), ?_, h₁.lo.trans h₂.lo, h₂.hi⟩
  · intro x hx
    rw [h₂.mem x hx, h₁.mem x hx]
  · intro p hp
    rcases h₂.user p hp with hp | hp
    · exact h₁.user p hp
    · exact Or.inr hp

theorem ArenaInv.end_le (hi : ArenaInv h H) : h.aEnd ≤ h.brkCurrent := by
  rcases hi.arena with ⟨-, he⟩ | ⟨-, he⟩ <;> omega

theorem SameArena.above {e : ℕ} (hi : ArenaInv h H) (hs : SameArena h h')
    (he : h.brkCurrent ≤ e) : Above h h' e := by
  have hend := hi.end_le
  refine ⟨fun x hx => hs.outside x (by omega), ?_, ?_, hs.brkCurrent.ge,
    by rw [hs.brkCurrent]; exact he⟩
  · rw [hs.present]
    exact fun _ hp => hp
  · rw [hs.present]
    exact fun _ hp => Or.inl hp

def Backed (h : Heap) : Prop := ∀ a, h.aStart ≤ a → a < h.aEnd → h.mapped a = true

/-- Growth up to `e`: what lies above, the payloads of the blocks `H` and all pages stay, and an
arena that has its pages still has them. -/
structure Grows (h h' : Heap) (e : ℕ) (H : ℕ → Tile → Prop) : Prop extends Above h h' e where
  payload : ∀ c u, H c u → ∀ x, c + headerSz ≤ x → x < c + u.size → h'.mem x = h.mem x
  backed : Backed h → Backed h'

theorem Grows.trans {h'' : Heap} {e : ℕ} (h₁ : Grows h h' e H) (h₂ : Grows h' h'' e H) :
    Grows h h'' e H := by
  refine ⟨h₁.toAbove.trans h₂.toAbove, ?_, fun hb => h₂.backed (h₁.backed hb)⟩
  intro c u hu x hlo hhi
  rw [h₂.payload c u hu x hlo hhi, h₁.payload c u hu x hlo hhi]

theorem Backed.mono (hb : Backed h) (hs : h'.aStart = h.aStart) (he : h'.aEnd = h.aEnd)
    (hp : ∀ p, h.present p = true → h'.present p = true) : Backed h' := by
  intro a hlo hhi
  rw [hs] at hlo
  rw [he] at hhi
  exact hp _ (hb a hlo hhi)

theorem SameBlocks.grows {e : ℕ} (hi : ArenaInv h H) (hs : SameBlocks h h' H)
    (he : h.brkCurrent ≤ e) : Grows h h' e H :=
  ⟨hs.toSameArena.above hi he, hs.payload, fun hb => hb.mono hs.aStart hs.aEnd fun p hp => by
    rw [hs.present]
    exact hp⟩

/-- The part of `arena_grow` after the break has moved from the end of the arena to `c` bytes
above it. -/
theorem placeChunk_inv (hw : Whole h ts fl) (hb : BreakOk h) (h0 : 0 < h.aStart)
    (hH : ∀ c u, H c u ↔ Held h.aStart ts c u) (hc : pageSz ∣ c) (hc0 : 0 < c)
    (hend : h.brkCurrent = h.aEnd + c)
    (hlimit : h.aEnd - h.aStart + c ≤ processMaxUmap * pageSz)
    (hfill : ∀ a, h.aEnd ≤ a → a < h.aEnd + c → h.mapped a = true) :
    ∃ h', placeChunk h h.aEnd c = some h' ∧ ArenaInv h' H ∧ h'.aStart = h.aStart ∧
      Grows h h' h.brkCurrent H := by
  have htop := hb.top
  have hspan := hw.span
  have hc16 : 16 ∣ c := Dvd.dvd.trans (by decide) hc
  have hc48 : 48 ≤ c := by
    have := Nat.le_of_dvd hc0 hc
    unfold pageSz at this
    omega
  -- both ways of placing the chunk add free space at the end only
  have hfinish : ∀ h' ts' fl', Whole h' ts' fl' →
      SameBlocks { h with aEnd := h.aEnd + c } h' (Held h.aStart ts) →
      (∀ d u, Held h.aStart ts' d u ↔ Held h.aStart ts d u) →
      ArenaInv h' H ∧ h'.aStart = h.aStart ∧ Grows h h' h.brkCurrent H := by
    intro h' ts' fl' hw' hs hheld
    have hs₁ : h'.aStart = h.aStart := hs.aStart
    have hs₂ : h'.aEnd = h.aEnd + c := hs.aEnd
    have hs₃ : h'.brkCurrent = h.brkCurrent := hs.brkCurrent
    have hs₄ : h'.brkCache = h.brkCache := hs.brkCache
    have hs₅ : h'.heapStart = h.heapStart := hs.heapStart
    have hs₆ : h'.present = h.present := hs.present
    refine ⟨⟨⟨?_, ?_, ?_, ?_, ?_⟩, ⟨ts', fl', hw', ?_⟩, ?_, ?_⟩, hs₁,
      ⟨?_, ?_, ?_, hs₃.ge, hs₃.le⟩, fun d u hu => hs.payload d u ((hH d u).mp hu), ?_⟩
    · rw [hs₃]
      exact hb.page
    · rw [hs₃]
      exact hb.pos
    · rw [hs₃, hs₅]
      exact hb.start
    · rw [hs₃]
      exact hb.top
    · rw [hs₃, hs₄]
      exact hb.cache
    · intro d u
      rw [hs₁, hheld, hH]
    · right
      rw [hs₁, hs₂, hs₃]
      exact ⟨h0, hend.symm⟩
    · rw [hs₁, hs₂]
      omega
    · intro x hx
      exact hs.outside x (Or.inr (hend ▸ hx))
    · rw [hs₆]
      exact fun _ hp => hp
    · rw [hs₆]
      exact fun _ hp => Or.inl hp
    · intro hback a hlo hhi
      rw [Heap.mapped, hs₆]
      rw [hs₁] at hlo
      rw [hs₂] at hhi
      rcases Nat.lt_or_ge a h.aEnd with ha | ha
      · exact hback a hlo ha
      · exact hfill a ha hhi
  rcases topFreeBlock_spec hw with ⟨hf, hlast⟩ | ⟨l, t, rfl, ht, hf⟩
  · have heq : placeChunk h h.aEnd c = some (freshBlock h h.aEnd c) := by
      rw [placeChunk, if_neg (not_not.mpr rfl), hf, Option.map_some, if_neg (not_not.mpr rfl)]
    obtain ⟨fl', hw', hs⟩ := freshBlock_spec hw hlast hc16 hc48 (by omega)
    refine ⟨_, heq, hfinish _ _ _ hw' hs ?_⟩
    intro d u
    rw [held_append, or_iff_left]
    apply not_held_of_free
    simp [Tile.free]
  · have heq : placeChunk h h.aEnd c = some (extendTop h (h.aStart + total l) c) := by
      rw [placeChunk, if_neg (not_not.mpr rfl), hf, Option.map_some, if_pos (by omega)]
    obtain ⟨hw', hs⟩ := extendTop_spec hw ht rfl hc16 (by omega)
    refine ⟨_, heq, hfinish _ _ _ hw' hs ?_⟩
    intro d u
    rw [held_append, held_append, or_iff_left, or_iff_left]
    · apply not_held_of_free
      simpa using ht
    · apply not_held_of_free
      simp [Tile.free]

/-- `arena_grow` keeps the blocks that are handed out, whether or not the kernel grants it. -/
theorem arenaGrow_inv (hi : ArenaInv h H) (h0 : 0 < h.aStart) (hans : AnswerOk h ans)
    (hneed : need ≤ 2 ^ 30) :
    ∃ h' g, arenaGrow h ans need = some (h', g) ∧ ArenaInv h' H ∧ 0 < h'.aStart ∧
      Grows h h' (h.brkCurrent + chunkOf need) H := by
  obtain ⟨ts, fl, hw, hH⟩ := hi.tiling
  obtain ⟨hc, hc0, hclt⟩ := chunkOf_spec hneed
  have hend : h.aEnd = h.brkCurrent := by
    rcases hi.arena with ⟨hs, -⟩ | ⟨-, he⟩ <;> omega
  have hpay : ∀ c u, H c u → ∀ x, c + headerSz ≤ x → x < c + u.size → x < h.brkCurrent := by
    intro c u hu x _ hhi
    have := (hi.held hu).2.2.2.1
    omega
  obtain ⟨m, pr, hm, hpr, huser, ⟨k, hk, -, heq⟩ | ⟨hle, hfill, heq⟩⟩ :=
    @sysSbrk_spec h (chunkOf need) ans hi.toBreakOk hans.1 hc hc0 hclt
  · -- the kernel refuses: pages above the break may have been mapped, the arena is as before
    generalize hg : ({ h with mem := m, present := pr, brkCache := k } : Heap) = g at heq
    have hres : arenaGrow h ans need = some (g, false) := by
      rw [arenaGrow, heq]
    have hwg : Whole g ts fl := by
      apply hw.frame (by rw [← hg]) (by rw [← hg]) (by rw [← hg])
      intro x _ hx
      rw [← hg]
      exact hm x (by omega)
    have hig : ArenaInv g H := by
      rw [← hg] at hwg ⊢
      exact ⟨⟨hi.page, hi.pos, hi.start, hi.top, hk⟩, ⟨ts, fl, hwg, hH⟩, hi.arena, hi.limit⟩
    refine ⟨g, false, hres, hig, by rw [← hg]; exact h0, ?_⟩
    rw [← hg]
    exact ⟨⟨fun x hx => hm x (by omega), hpr, huser, le_rfl, Nat.le_add_right _ _⟩,
      fun c u hu x hlo hhi => hm x (Or.inl (hpay c u hu x hlo hhi)),
      fun hb => hb.mono rfl rfl hpr⟩
  · generalize hg : ({ h with
      mem := m
      present := pr
      brkCache := h.brkCurrent + chunkOf need
      brkCurrent := h.brkCurrent + chunkOf need } : Heap) = g at heq
    have hgend : g.aEnd = h.brkCurrent := by rw [← hg, ← hend]
    have hgbrk : g.brkCurrent = h.brkCurrent + chunkOf need := by rw [← hg]
    have hgs : g.aStart = h.aStart := by rw [← hg]
    have hwg : Whole g ts fl := by
      apply hw.frame (by rw [← hg]) (by rw [← hg]) (by rw [← hg])
      intro x _ hx
      rw [← hg]
      exact hm x (by omega)
    have hbg : BreakOk g := by
      have hle₁ := hans.1
      rw [← hg]
      refine ⟨dvd_add hi.page hc, Nat.add_pos_right _ hc0, ?_, ?_, Or.inr rfl⟩
      · exact le_trans hi.start (Nat.le_add_right _ _)
      · exact le_trans (Nat.add_le_add_left hle _) hle₁
    have hlim : g.aEnd - g.aStart + chunkOf need ≤ processMaxUmap * pageSz := by
      have hle₂ := hans.2
      rw [hgend, hgs, ← hend]
      omega
    have hfilled : ∀ a, g.aEnd ≤ a → a < g.aEnd + chunkOf need → g.mapped a = true := by
      intro a hlo hhi
      have hpage := hi.page
      rw [hgend] at hlo hhi
      rw [← hg]
      apply hfill
      · unfold pageSz at *
        omega
      · have := Nat.div_mul_le_self a pageSz
        omega
    obtain ⟨h', hplace, hi', hs', habove⟩ := placeChunk_inv hwg hbg (by rw [hgs]; exact h0)
      (by rw [hgs]; exact hH) hc hc0 (by rw [hgend, hgbrk]) hlim hfilled
    have hres : arenaGrow h ans need = some (h', true) := by
      rw [arenaGrow, heq]
      dsimp only
      rw [← hgend, hplace]
      rfl
    refine ⟨h', true, hres, hi', by rw [hs', hgs]; exact h0, ⟨?_, ?_, ?_, ?_, ?_⟩, ?_, ?_⟩
    · intro x hx
      rw [habove.mem x (by rw [hgbrk]; exact hx), ← hg]
      exact hm x (Or.inr hx)
    · intro p hp
      apply habove.present
      rw [← hg]
      exact hpr p hp
    · intro p hp
      rcases habove.user p hp with hp | hp
      · exact huser p (by rw [← hg] at hp; exact hp)
      · exact Or.inr hp
    · have := habove.lo
      omega
    · have := habove.hi
      omega
    · intro c u hu x hlo hhi
      rw [habove.payload c u hu x hlo hhi, ← hg]
      exact hm x (Or.inl (hpay c u hu x hlo hhi))
    · intro hback
      apply habove.backed
      rw [← hg]
      exact hback.mono rfl rfl hpr

theorem arenaInit_backed (hb : Backed h) : Backed (arenaInit h) := by
  unfold arenaInit
  split
  · intro a hlo hhi
    exact absurd hhi (not_lt.mpr hlo)
  · exact hb

/-- What an allocation in the arena can do: refuse, or hand out a new block of at least `q`
bytes. -/
def Allocates (h' : Heap) (H : ℕ → Tile → Prop) (p q : ℕ) : Prop :=
  (p = 0 ∧ ArenaInv h' H) ∨
    ∃ b t, p = b + headerSz ∧ (∀ u, ¬ H b u) ∧ t.req = some q ∧ ArenaInv h' (Adds H b t)

theorem heapAlloc_inv {size : ℕ} (hi : ArenaInv h H) (hans : AnswerOk h ans)
    (hsize : size < mallocMmapThreshold) :
    ∃ h' p, heapAlloc h ans size = .ok (h', p) ∧ Allocates h' H p size ∧
      Grows h h' (h.brkCurrent + chunkOf (sizeToNeed size)) H := by
  have hrefl : Grows h h (h.brkCurrent + chunkOf (sizeToNeed size)) H :=
    ⟨⟨fun _ _ => rfl, fun _ hp => hp, fun _ hp => Or.inl hp, le_rfl, Nat.le_add_right _ _⟩,
      fun _ _ _ _ _ _ => rfl, fun hb => hb⟩
  by_cases hzero : sizeToNeed size = 0
  · exact ⟨h, 0, by rw [heapAlloc, if_pos hzero], Or.inl ⟨rfl, hi⟩, hrefl⟩
  obtain ⟨h16, h48, hq, hmax, -⟩ := sizeToNeed_spec hzero
  have hneed : sizeToNeed size ≤ 2 ^ 30 := by
    unfold mallocMmapThreshold at hsize
    omega
  obtain ⟨hi₁, hs₁, hm₁, hp₁, hb₁, hlen₁⟩ := arenaInit_inv hi
  have habove₁ : Grows h (arenaInit h) (h.brkCurrent + chunkOf (sizeToNeed size)) H :=
    ⟨⟨fun x _ => by rw [hm₁], fun p hp => by rw [hp₁]; exact hp,
      fun p hp => Or.inl (by rw [hp₁] at hp; exact hp), hb₁.ge, by rw [hb₁]; omega⟩,
      fun _ _ _ x _ _ => by rw [hm₁], arenaInit_backed⟩
  rcases cutFirstFit_inv hi₁ hs₁ h16 h48 hq with hcut | ⟨h', b, t, hcut, hs, hnew, ht, hi'⟩
  · -- no block fits: grow, and try once more
    have hans₁ : AnswerOk (arenaInit h) ans := by
      unfold AnswerOk
      rw [hb₁, hlen₁]
      exact hans
    obtain ⟨h₂, g, hgrow, hi₂, hs₂, habove₂⟩ := arenaGrow_inv hi₁ hs₁ hans₁ hneed
    rw [hb₁] at habove₂
    cases g with
    | false =>
      refine ⟨h₂, 0, ?_, Or.inl ⟨rfl, hi₂⟩, habove₁.trans habove₂⟩
      rw [heapAlloc, if_neg hzero, hcut]
      simp [orHang, hgrow, bind, Except.bind, pure, Except.pure]
    | true =>
      rcases cutFirstFit_inv hi₂ hs₂ h16 h48 hq with hcut₂ | ⟨h', b, t, hcut₂, hs, hnew, ht, hi'⟩
      · refine ⟨h₂, 0, ?_, Or.inl ⟨rfl, hi₂⟩, habove₁.trans habove₂⟩
        rw [heapAlloc, if_neg hzero, hcut]
        simp [orHang, hgrow, hcut₂, bind, Except.bind]
      · refine ⟨h', b + headerSz, ?_, Or.inr ⟨b, t, rfl, hnew, ht, hi'⟩,
          (habove₁.trans habove₂).trans (hs.grows hi₂ habove₂.hi)⟩
        rw [heapAlloc, if_neg hzero, hcut]
        simp [orHang, hgrow, hcut₂, bind, Except.bind]
  · refine ⟨h', b + headerSz, ?_, Or.inr ⟨b, t, rfl, hnew, ht, hi'⟩,
      habove₁.trans (hs.grows hi₁ habove₁.hi)⟩
    rw [heapAlloc, if_neg hzero, hcut]
    simp [orHang, bind, Except.bind, pure, Except.pure, headerSz]

end Inv

end VoidOS.Malloc
