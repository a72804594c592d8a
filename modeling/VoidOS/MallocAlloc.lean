import VoidOS.MallocOps

namespace VoidOS.Malloc

open ByteMem LinkedList

def Held (a : ℕ) (ts : List Tile) (c : ℕ) (t : Tile) : Prop := Has a ts c t ∧ t.free = false

section Held

variable {a c : ℕ} {t u : Tile} {ts l₁ l₂ : List Tile}

theorem held_append : Held a (l₁ ++ l₂) c u ↔ Held a l₁ c u ∨ Held (a + total l₁) l₂ c u := by
  unfold Held
  rw [has_append, or_and_right]

theorem held_cons :
    Held a (t :: ts) c u ↔ (t.free = false ∧ c = a ∧ u = t) ∨ Held (a + t.size) ts c u := by
  unfold Held
  rw [Has, or_and_right]
  apply or_congr_left
  constructor
  · rintro ⟨⟨hc, rfl⟩, hf⟩
    exact ⟨hf, hc, rfl⟩
  · rintro ⟨hf, hc, rfl⟩
    exact ⟨⟨hc, rfl⟩, hf⟩

theorem not_held_of_free (h : ∀ d ∈ ts, d.free) : ¬ Held a ts c u := by
  rintro ⟨hb, hf⟩
  have := h u hb.mem
  simp_all

theorem Held.lt {m : Mem} {pf : Bool} (h : Tagged m pf a ts) (hu : Held a ts c u) :
    a ≤ c ∧ c < a + total ts := by
  obtain ⟨pf', hok⟩ := h.has hu.1
  have hmin := hok.min
  have hle := hu.1.le
  unfold minBlock at hmin
  omega

/-- A tiling that differs around `b` only: a free block or none on either side goes, and the
tile at `b` is replaced. -/
theorem held_replace {h : Heap} {b : ℕ} {ds₁ ds₂ : List Tile} {fl : List ℕ} (mid : List Tile)
    (hw : Whole h ((l₁ ++ ds₁) ++ t :: (ds₂ ++ l₂)) fl) (h₁ : ∀ d ∈ ds₁, d.free)
    (h₂ : ∀ d ∈ ds₂, d.free) (hb : b = h.aStart + total (l₁ ++ ds₁))
    (hmid : total mid = total ds₁ + t.size + total ds₂) (c : ℕ) (u : Tile) :
    Held h.aStart (l₁ ++ mid ++ l₂) c u ↔
      (Held h.aStart ((l₁ ++ ds₁) ++ t :: (ds₂ ++ l₂)) c u ∧ c ≠ b) ∨
        Held (h.aStart + total l₁) mid c u := by
  obtain ⟨htag, hok, htag₂⟩ := tagged_append.mp hw.tagged
  have htag₁ := (tagged_append.mp htag).1
  have htag₃ := (tagged_append.mp htag₂).2
  have hmin := hok.min
  have hsum : h.aStart + total (l₁ ++ mid) =
      h.aStart + total (l₁ ++ ds₁) + t.size + total ds₂ := by
    rw [total_append, total_append]
    omega
  have hlt₁ : Held h.aStart l₁ c u → c ≠ b := by
    intro hc
    have := hc.lt htag₁
    rw [hb, total_append]
    omega
  have hlt₂ : Held (h.aStart + total (l₁ ++ ds₁) + t.size + total ds₂) l₂ c u → c ≠ b := by
    intro hc
    have := hc.lt htag₃
    unfold minBlock at hmin
    rw [hb]
    omega
  rw [held_append, held_append, hsum, held_append, held_append, held_cons, held_append]
  have hd₁ := @not_held_of_free (h.aStart + total l₁) c u ds₁ h₁
  have hd₂ := @not_held_of_free (h.aStart + total (l₁ ++ ds₁) + t.size) c u ds₂ h₂
  constructor
  · rintro ((hc | hc) | hc)
    · exact Or.inl ⟨Or.inl (Or.inl hc), hlt₁ hc⟩
    · exact Or.inr hc
    · exact Or.inl ⟨Or.inr (Or.inr (Or.inr hc)), hlt₂ hc⟩
  · rintro (⟨(hc | hc) | ⟨-, hc, -⟩ | hc | hc, hne⟩ | hc)
    · exact Or.inl (Or.inl hc)
    · exact absurd hc hd₁
    · exact absurd (hc.trans hb.symm) hne
    · exact absurd hc hd₂
    · exact Or.inr hc
    · exact Or.inl (Or.inr hc)

/-- Nothing changes outside the arena, nor in the payloads of the blocks `H`. -/
structure SameBlocks (h h' : Heap) (H : ℕ → Tile → Prop) : Prop extends SameArena h h' where
  payload : ∀ c u, H c u → ∀ x, c + headerSz ≤ x → x < c + u.size → h'.mem x = h.mem x

/-- What is left alone around `b` covers the payloads of the blocks other than the one there. -/
theorem SameAround.blocks {h h' : Heap} {b e : ℕ} {ds₁ ds₂ : List Tile}
    (hs : SameAround h h' l₁ e l₂) (h₁ : ∀ d ∈ ds₁, d.free) (h₂ : ∀ d ∈ ds₂, d.free)
    (hb : b = h.aStart + total (l₁ ++ ds₁)) (he : e = b + t.size + total ds₂) :
    SameBlocks h h' fun c u => Held h.aStart ((l₁ ++ ds₁) ++ t :: (ds₂ ++ l₂)) c u ∧ c ≠ b := by
  refine ⟨hs.toSameArena, ?_⟩
  rintro c u ⟨hu, hne⟩ x hlo hhi
  rw [held_append, held_append, held_cons, held_append, ← hb, ← he] at hu
  have hquiet : ∀ {a ts}, Held a ts c u → Quiet a ts x := fun hc =>
    ⟨c, u, hc.1, hlo, hhi, by simp [hc.2]⟩
  apply hs.quiet
  rcases hu with (hu | hu) | ⟨-, hc, -⟩ | hu | hu
  · exact Or.inl (hquiet hu)
  · exact absurd hu (not_held_of_free h₁)
  · exact absurd hc hne
  · exact absurd hu (not_held_of_free h₂)
  · exact Or.inr (hquiet hu)

theorem SameAround.before {h h' : Heap} {e : ℕ} (hs : SameAround h h' l₁ e l₂) :
    SameBlocks h h' (Held h.aStart l₁) :=
  ⟨hs.toSameArena, fun c u hu x hlo hhi =>
    hs.quiet x (Or.inl ⟨c, u, hu.1, hlo, hhi, by simp [hu.2]⟩)⟩

theorem SameAround.served {h h' : Heap} {b : ℕ} {ds : List Tile}
    (hs : SameAround h h' l₁ (b + t.size + total ds) l₂) (hd : ∀ d ∈ ds, d.free)
    (hb : b = h.aStart + total l₁) :
    SameBlocks h h' fun c u => Held h.aStart (l₁ ++ t :: (ds ++ l₂)) c u ∧ c ≠ b := by
  have hnone : ∀ d ∈ ([] : List Tile), d.free = true := by simp
  rw [← List.append_nil l₁] at hb
  have hblocks := hs.blocks hnone hd hb rfl
  rwa [List.append_nil] at hblocks

end Held

section Free

variable {h : Heap} {l₁ l₂ : List Tile} {t : Tile} {fl : List ℕ}

/-- The free block that `t` becomes with the free blocks around it. -/
def mergedTile (ds₁ : List Tile) (t : Tile) (ds₂ : List Tile) : Tile :=
  ⟨total ds₁ + (t.size + total ds₂), none⟩

/-- What `heap_free` of the block `t` leaves when the free blocks `ds₁` end right before it and
`ds₂` start right after it: they become one free block, and exactly `t` is taken back. Inside the
new block only the size of the freed block, the links of the next one, the header and links at
the start and the footer at the end are stored to. -/
structure Merged (h h' : Heap) (l₁ ds₁ : List Tile) (t : Tile) (ds₂ l₂ : List Tile)
    (fl : List ℕ) : Prop where
  one : ds₁.length ≤ 1
  before : ∀ d ∈ ds₁, d.free = true
  after : ∀ d ∈ ds₂, d.free = true
  apart : lastFree false l₁ = false
  whole : Whole h' (l₁ ++ mergedTile ds₁ t ds₂ :: l₂) fl
  around : SameAround h h' l₁ (h.aStart + total (l₁ ++ ds₁) + t.size + total ds₂) l₂
  held : ∀ c u, Held h.aStart (l₁ ++ mergedTile ds₁ t ds₂ :: l₂) c u ↔
    Held h.aStart (l₁ ++ ds₁ ++ t :: (ds₂ ++ l₂)) c u ∧ c ≠ h.aStart + total (l₁ ++ ds₁)
  inside : ∀ x, h.aStart + total l₁ + 32 ≤ x →
    x + 16 < h.aStart + total (l₁ ++ ds₁) + t.size + total ds₂ →
    (Quiet h.aStart (l₁ ++ ds₁) x ∨ h.aStart + total (l₁ ++ ds₁) + 8 ≤ x) →
    (x < h.aStart + total (l₁ ++ ds₁) + t.size + 16 ∨
      h.aStart + total (l₁ ++ ds₁) + t.size + 32 ≤ x) → h'.mem x = h.mem x

theorem heapFree_spec (hw : Whole h (l₁ ++ t :: l₂) fl) (ht : t.free = false) :
    ∃ h' l₁' ds₁ ds₂ l₂' fl', l₁ = l₁' ++ ds₁ ∧ l₂ = ds₂ ++ l₂' ∧
      heapFree h (h.aStart + total l₁ + headerSz) = .ok h' ∧
      Merged h h' l₁' ds₁ t ds₂ l₂' fl' := by
  have hspan := hw.span
  have htop := hw.top
  obtain ⟨-, hok, -⟩ := tagged_append.mp hw.tagged
  have hmin := hok.min
  unfold minBlock at hmin
  rw [total_append, total_cons] at hspan
  have hh := hw.hole
  rw [ht] at hh
  simp only [Bool.false_eq_true, if_false] at hh
  generalize hb : h.aStart + total l₁ = b at *
  have hflags : h.flags b = flagWord (lastFree false l₁) false := ht ▸ hok.flags
  obtain ⟨ds₂, l₂', pf', fl₁, rfl, hd₂, hh₁, hal, hsz₁, hs₁, hm₁⟩ :=
    absorbNext_spec hh le_rfl rfl (by omega) hok.size
  have hflags₁ : (absorbNext h b).flags b = flagWord (lastFree false l₁) false := by
    rw [← hflags]
    apply word_congr
    intro x hlo hhi
    exact hm₁ x (by omega) (by omega) (by omega) (by omega)
  obtain ⟨l₁', ds₁, fl₂, rfl, hone, hd₁, hpf, hh₂, hsz₂, hfl₂, hs₂, hm₂⟩ :=
    absorbPrev_spec hh₁ (by omega) hsz₁ hflags₁
  generalize hp : absorbPrev (absorbNext h b) b = p at *
  have hstart : p.2 = h.aStart + total l₁' := by
    rw [hh₂.place, hs₂.aStart, hs₁.aStart]
  have hend : p.2 + (total ds₁ + (t.size + total ds₂)) = b + (t.size + total ds₂) := by
    rw [hstart, ← hb, total_append]
    omega
  have hh₃ : Hole (p.1.setFlags p.2 (clear (p.1.flags p.2) bAlloc)) l₁' p.2
      (total ds₁ + (t.size + total ds₂)) pf' l₂' fl₂ [] :=
    hh₂.setFlags le_rfl (by omega) (by simp)
  rw [hfl₂] at hh₃
  obtain ⟨hh₄, hs₄, hm₄⟩ := hh₃.insert hal le_rfl hh₂.base rfl (by omega)
    ((Heap.size_setFlags (Or.inl le_rfl)).trans hsz₂)
    (Heap.flags_setFlags_self (Nat.two_pow_pos 64))
  have hs₃ : SameAround p.1 (p.1.setFlags p.2 0) l₁' (p.2 + (total ds₁ + (t.size + total ds₂)))
      l₂' :=
    hh₂.sameAround (SameArena.setFlags _ hh₂.range.1 (by have := hh₂.range.2; omega)) fun x hx =>
      Heap.setFlags_apply (by omega)
  rw [Nat.sub_self, ← hpf] at hh₄
  rw [hend] at hs₃ hs₄ hm₄
  have hs₁' : SameAround h (absorbNext h b) l₁' (b + (t.size + total ds₂)) l₂' :=
    hs₁.mono (fun x hx => quiet_append.mpr (Or.inl hx)) fun _ hx => hx
  refine ⟨flInsert (p.1.setFlags p.2 0) p.2, l₁', ds₁, ds₂, l₂', _, rfl, rfl, ?_, hone, hd₁, hd₂,
    hpf, hh₄.shut, ?_, ?_, ?_⟩
  · have hblk : sub64 (b + headerSz) headerSz = b := by
      rw [sub64_of_le (by omega) (by unfold headerSz; omega)]
      omega
    have hbit : (h.flags b).testBit 0 = true := by
      rw [hflags]
      cases lastFree false (l₁' ++ ds₁) <;> decide
    unfold heapFree
    rw [hblk, if_neg (by simp [hbit]), hp]
    dsimp only
    rw [hfl₂]
  · rw [hb, add_assoc]
    exact ((hs₁'.trans hs₂).trans hs₃).trans hs₄
  · intro c u
    have hrep := held_replace [mergedTile ds₁ t ds₂] hw hd₁ hd₂ hb.symm
      (by rw [total_cons, total_nil, mergedTile]; dsimp only; omega) c u
    rw [List.append_assoc, List.singleton_append] at hrep
    rw [hrep, hb, or_iff_left]
    apply not_held_of_free
    simp [Tile.free, mergedTile]
  · intro x hlo hhi hhead hlink
    rw [hm₄ x (by omega) (by omega) (by omega), Heap.setFlags_apply (by omega),
      hm₂ x (by omega) (by omega)]
    rcases hhead with hquiet | hxb
    · exact hs₁.quiet x (Or.inl hquiet)
    · exact hm₁ x (by omega) (by omega) (by omega) (by omega)

end Free

section Cut

variable {h : Heap} {l₁ l₂ : List Tile} {t : Tile} {b S r R need q : ℕ} {pf : Bool} {fl : List ℕ}

theorem insertFree_spec (hh : Hole h l₁ b S pf l₂ fl []) (hbr : b ≤ r) (hr : 16 ∣ r)
    (hR : r + R = b + S) (hmin : 48 ≤ R) (hsize : h.size r = R) (hflags : h.flags r = 0) :
    ∃ ds l₂' fl', l₂ = ds ++ l₂' ∧ (∀ d ∈ ds, d.free) ∧
      Hole (insertFree h r) l₁ b (r - b) false (⟨R + total ds, none⟩ :: l₂') fl' [] ∧
      SameAround h (insertFree h r) l₁ (b + (S + total ds)) l₂' ∧
      ∀ x, b ≤ x → x < r → (insertFree h r).mem x = h.mem x := by
  obtain ⟨ds, l₂', pf', fl₁, rfl, hd, hh₁, hal, hsz₁, hs₁, hm₁⟩ :=
    absorbNext_spec hh hbr hR (by omega) hsize
  have hflags₁ : (absorbNext h r).flags r = 0 := by
    rw [← hflags]
    apply word_congr
    intro x hlo hhi
    exact hm₁ x (by omega) (by omega) (by omega) (by omega)
  obtain ⟨hh₂, hs₂, hm₂⟩ := hh₁.insert hal hbr hr (by omega) (by omega) hsz₁ hflags₁
  refine ⟨ds, l₂', _, rfl, hd, hh₂, hs₁.trans hs₂, ?_⟩
  intro x hlo hhi
  rw [insertFree, hm₂ x hlo (by omega) (by omega), hm₁ x hlo (by omega) (by omega) (by omega)]

/-- The request `q` is served by a block at `b` and nothing else changes hands. -/
def Serves (a : ℕ) (ts : List Tile) (b q : ℕ) (ts' : List Tile) : Prop :=
  ∃ t', t'.req = some q ∧ ∀ c u, Held a ts' c u ↔ (Held a ts c u ∧ c ≠ b) ∨ (c = b ∧ u = t')

theorem held_mid {t' : Tile} {a c : ℕ} {u : Tile} {rest : List Tile} (ht' : t'.req = some q)
    (hrest : ∀ d ∈ rest, d.free) : Held a (t' :: rest) c u ↔ c = a ∧ u = t' := by
  have hf : t'.free = false := by simp [Tile.free, ht']
  rw [held_cons, or_iff_left (not_held_of_free hrest)]
  simp [hf]

/-- A hole whose end is a free block and whose start carries the header of a handed out block
is the tiling with that block in it. -/
theorem Hole.serve {hn : Heap} {ds l₂' : List Tile} {fl' : List ℕ}
    (hw : Whole h (l₁ ++ t :: (ds ++ l₂')) fl) (hd : ∀ d ∈ ds, d.free)
    (hb : b = h.aStart + total l₁) (hneed : need + R = t.size + total ds)
    (hh : Hole hn l₁ b need false (⟨R, none⟩ :: l₂') fl' []) (h48 : 48 ≤ need)
    (hq : q + headerSz ≤ need) (hsize : hn.size b = need)
    (hflags : hn.flags b = flagWord (lastFree false l₁) false) :
    ∃ ts' fl', Whole hn ts' fl' ∧ Serves h.aStart (l₁ ++ t :: (ds ++ l₂')) b q ts' := by
  have hwhole : Whole hn (l₁ ++ ⟨need, some q⟩ :: ⟨R, none⟩ :: l₂') fl' := by
    apply Hole.close
    · exact hh
    · refine ⟨hh.aligned, h48, hsize, hflags, ?_, by simp [Tile.free], by simp [Tile.free]⟩
      intro r hr
      simp only [Option.mem_def, Option.some.injEq] at hr
      dsimp only
      omega
  refine ⟨_, _, hwhole, ⟨need, some q⟩, rfl, ?_⟩
  intro c u
  rw [← List.append_nil l₁] at hw hb
  have hrep := held_replace [⟨need, some q⟩, ⟨R, none⟩] hw (by simp) hd hb
    (by simp only [total_cons, total_nil]; omega) c u
  rw [List.append_nil] at hrep hb
  rw [List.append_assoc, List.cons_append, List.singleton_append] at hrep
  rw [hrep, held_mid (q := q) rfl (by simp [Tile.free]), ← hb]

theorem Hole.serveAll {hn : Heap} {fl' : List ℕ} (hw : Whole h (l₁ ++ t :: l₂) fl)
    (hb : b = h.aStart + total l₁) (hh : Hole hn l₁ b t.size false l₂ fl' [])
    (hq : q + headerSz ≤ t.size) (hsize : hn.size b = t.size)
    (hflags : hn.flags b = flagWord (lastFree false l₁) false) :
    ∃ ts' fl', Whole hn ts' fl' ∧ Serves h.aStart (l₁ ++ t :: l₂) b q ts' := by
  obtain ⟨-, hok, -⟩ := tagged_append.mp hw.tagged
  have hwhole : Whole hn (l₁ ++ ⟨t.size, some q⟩ :: l₂) fl' := by
    apply Hole.close
    · exact hh
    · refine ⟨hok.aligned, hok.min, hsize, hflags, ?_, by simp [Tile.free], by simp [Tile.free]⟩
      intro r hr
      simp only [Option.mem_def, Option.some.injEq] at hr
      dsimp only
      omega
  refine ⟨_, _, hwhole, ⟨t.size, some q⟩, rfl, ?_⟩
  intro c u
  rw [← List.append_nil l₁, ← List.nil_append l₂] at hw
  rw [← List.append_nil l₁] at hb
  have hrep := held_replace [⟨t.size, some q⟩] hw (by simp) (by simp) hb (by simp) c u
  rw [List.append_nil] at hrep hb
  rw [List.append_assoc, List.singleton_append, List.nil_append] at hrep
  rw [hrep, held_mid (q := q) rfl (by simp), ← hb]

theorem Whole.freeTag (hw : Whole h (l₁ ++ t :: l₂) fl) (ht : t.free = true)
    (hb : b = h.aStart + total l₁) :
    h.size b = t.size ∧ h.flags b = 0 ∧ lastFree false l₁ = false ∧ b + t.size < 2 ^ 48 ∧
      Hole h l₁ b t.size true l₂ fl [b + headerSz] := by
  have hspan := hw.span
  have htop := hw.top
  obtain ⟨-, hok, -⟩ := tagged_append.mp hw.tagged
  have hpf : lastFree false l₁ = false := hok.apart ht
  have hh := hw.hole
  rw [ht, if_pos rfl, ← hb] at hh
  rw [total_append, total_cons] at hspan
  rw [← hb] at hok
  refine ⟨hok.size, ?_, hpf, by omega, hh⟩
  rw [Heap.flags, hok.flags, hpf, ht]
  decide

theorem cutBlock_split (hw : Whole h (l₁ ++ t :: l₂) fl) (ht : t.free = true)
    (hb : b = h.aStart + total l₁) (h16 : 16 ∣ need) (h48 : 48 ≤ need) (hle : need ≤ t.size)
    (hq : q + headerSz ≤ need) (hsplit : minBlock ≤ t.size - need) :
    ∃ ts' fl', Whole (cutBlock h b need) ts' fl' ∧
      SameBlocks h (cutBlock h b need) (fun c u => Held h.aStart (l₁ ++ t :: l₂) c u ∧ c ≠ b) ∧
      Serves h.aStart (l₁ ++ t :: l₂) b q ts' := by
  obtain ⟨hsize, hflags, hpf, htop, hh⟩ := hw.freeTag ht hb
  have hlt : t.size < 2 ^ 64 := by omega
  have hbase := hh.base
  obtain ⟨fl₁, hh₁, hs₁, hm₁⟩ := hh.unlink
  have hflags₁ : (flUnlink h (b + headerSz)).flags b = 0 := by
    rw [← hflags]
    apply word_congr
    intro x hlo hhi
    exact hm₁ x (by omega) (by omega) (by unfold headerSz; omega)
  have hbits : 0 &&& (bPrev ||| bMmap) ||| bAlloc = 1 := by decide
  have heq : cutBlock h b need = insertFree
      (((flUnlink h (b + headerSz)).putTag b need 1).putTag (b + need) (t.size - need) 0)
      (b + need) := by
    rw [cutBlock, hsize, sub64_of_le hle hlt, if_pos hsplit]
    dsimp only
    rw [Heap.flags_setSize (Or.inr le_rfl), hflags₁, hbits, Nat.div_mul_cancel h16,
      add64_of_lt (by omega), sub64_of_le hle hlt]
    rfl
  unfold minBlock at hsplit
  have hsplit' : need + 48 ≤ t.size := by omega
  clear hsplit
  rw [heq]
  generalize flUnlink h (b + headerSz) = h₁ at *
  have hh₂ := (hh₁.putTag (s := need) (f := 1) le_rfl (by omega)).putTag (s := t.size - need)
    (f := 0) (x := b + need) (by omega) (by omega)
  have hszb : ((h₁.putTag b need 1).putTag (b + need) (t.size - need) 0).size b = need := by
    rw [Heap.size_putTag_of (by omega), Heap.size_putTag_self (by omega)]
  have hflb : ((h₁.putTag b need 1).putTag (b + need) (t.size - need) 0).flags b = 1 := by
    rw [Heap.flags_putTag_of (by omega), Heap.flags_putTag_self (by norm_num)]
  obtain ⟨ds, l₂', fl₂, rfl, hd, hh₃, hs₃, hm₃⟩ := insertFree_spec hh₂ (by omega)
    (dvd_add hbase h16) (by omega) (by omega) (Heap.size_putTag_self (by omega))
    (Heap.flags_putTag_self (by norm_num))
  rw [Nat.add_sub_cancel_left] at hh₃
  generalize insertFree _ (b + need) = h₂ at *
  have hsize₂ : h₂.size b = need := by
    rw [← hszb]
    apply word_congr
    intro x hlo hhi
    exact hm₃ x hlo (by omega)
  have hflags₂ : h₂.flags b = flagWord (lastFree false l₁) false := by
    rw [hpf, ← show 1 = flagWord false false from rfl, ← hflb]
    apply word_congr
    intro x hlo hhi
    exact hm₃ x (by omega) (by omega)
  obtain ⟨ts', fl', hwhole, hserve⟩ := hh₃.serve hw hd hb (by omega) h48 hq hsize₂ hflags₂
  have hr₁ := hh₁.range
  have hs₂ : SameAround h₁ ((h₁.putTag b need 1).putTag (b + need) (t.size - need) 0) l₁
      (b + t.size) (ds ++ l₂') := by
    refine hh₁.sameAround ((SameArena.putTag _ _ hr₁.1 (by omega)).trans
      (SameArena.putTag _ _ (le_trans hr₁.1 (by omega)) (le_trans (by omega) hr₁.2))) fun x hx => ?_
    rw [Heap.putTag_apply (by omega), Heap.putTag_apply (by omega)]
  rw [← add_assoc] at hs₃
  exact ⟨ts', fl', hwhole, ((hs₁.trans hs₂).next.trans hs₃).served hd hb, hserve⟩

theorem cutBlock_whole (hw : Whole h (l₁ ++ t :: l₂) fl) (ht : t.free = true)
    (hb : b = h.aStart + total l₁) (h48 : 48 ≤ need) (hle : need ≤ t.size)
    (hq : q + headerSz ≤ need) (hsplit : ¬ minBlock ≤ t.size - need) :
    ∃ ts' fl', Whole (cutBlock h b need) ts' fl' ∧
      SameBlocks h (cutBlock h b need) (fun c u => Held h.aStart (l₁ ++ t :: l₂) c u ∧ c ≠ b) ∧
      Serves h.aStart (l₁ ++ t :: l₂) b q ts' := by
  obtain ⟨hsize, hflags, hpf, htop, hh⟩ := hw.freeTag ht hb
  have hlt : t.size < 2 ^ 64 := by omega
  have hbits : 0 ||| bAlloc = 1 := by decide
  have heq : cutBlock h b need = flUnlink (markNext (h.setFlags b 1) (b + t.size)
      (fun f => clear f bPrev)) (b + headerSz) := by
    rw [cutBlock, hsize, sub64_of_le hle hlt, if_neg hsplit, hflags, hbits]
    dsimp only
    rw [Heap.size_setFlags (Or.inl le_rfl), hsize, add64_of_lt (by omega)]
    rfl
  rw [heq]
  have hh₁ : Hole (h.setFlags b 1) l₁ b t.size true l₂ fl [b + headerSz] := by
    apply hh.setFlags le_rfl (by omega)
    intro n hn
    rw [List.mem_singleton] at hn
    exact Or.inl hn.ge
  obtain ⟨hh₂, hs₂, hm₂⟩ := hh₁.mark (v := false) (g := fun f => clear f bPrev)
    hh₁.after.head_alloc (by decide)
  obtain ⟨fl', hh₃, hs₃, hm₃⟩ := hh₂.unlink
  generalize markNext (h.setFlags b 1) (b + t.size) (fun f => clear f bPrev) = h₂ at *
  generalize flUnlink h₂ (b + headerSz) = h₃ at *
  have hmem : ∀ x, b ≤ x → x < b + 16 → h₃.mem x = (h.setFlags b 1).mem x := by
    intro x hlo hhi
    rw [hm₃ x hlo (by omega) (by unfold headerSz; omega), hm₂ x (by omega)]
  have hsize₃ : h₃.size b = (h.setFlags b 1).size b := by
    apply word_congr
    intro x hlo hhi
    exact hmem x hlo (by omega)
  rw [Heap.size_setFlags (Or.inl le_rfl), hsize] at hsize₃
  have hflags₃ : h₃.flags b = (h.setFlags b 1).flags b := by
    apply word_congr
    intro x hlo hhi
    exact hmem x (by omega) (by omega)
  rw [Heap.flags_setFlags_self (by norm_num)] at hflags₃
  obtain ⟨ts', fl', hwhole, hserve⟩ := hh₃.serveAll (q := q) hw hb (by omega) hsize₃
    (by rw [hflags₃, hpf]; rfl)
  have hs₁ : SameAround h (h.setFlags b 1) l₁ (b + t.size) l₂ :=
    hh.sameAround (SameArena.setFlags _ hh.range.1 (le_trans (by omega) hh.range.2)) fun x hx =>
      Heap.setFlags_apply (by omega)
  have hnone : ∀ d ∈ ([] : List Tile), d.free = true := by simp
  exact ⟨ts', fl', hwhole, SameAround.served ((hs₁.trans hs₂).trans hs₃) hnone hb, hserve⟩

theorem cutBlock_spec (hw : Whole h (l₁ ++ t :: l₂) fl) (ht : t.free = true)
    (hb : b = h.aStart + total l₁) (h16 : 16 ∣ need) (h48 : 48 ≤ need) (hle : need ≤ t.size)
    (hq : q + headerSz ≤ need) :
    ∃ ts' fl', Whole (cutBlock h b need) ts' fl' ∧
      SameBlocks h (cutBlock h b need) (fun c u => Held h.aStart (l₁ ++ t :: l₂) c u ∧ c ≠ b) ∧
      Serves h.aStart (l₁ ++ t :: l₂) b q ts' := by
  by_cases hsplit : minBlock ≤ t.size - need
  · exact cutBlock_split hw ht hb h16 h48 hle hq hsplit
  · exact cutBlock_whole hw ht hb h48 hle hq hsplit

/-- `realloc` in place: the block keeps its address and gives up a tail that is large enough. -/
theorem shrinkBlock_spec (hw : Whole h (l₁ ++ t :: l₂) fl) (ht : t.free = false)
    (hb : b = h.aStart + total l₁) (h16 : 16 ∣ need) (h48 : 48 ≤ need) (hle : need ≤ t.size)
    (hq : q + headerSz ≤ need) :
    ∃ ts' fl', Whole (shrinkBlock h b need) ts' fl' ∧
      SameBlocks h (shrinkBlock h b need) (fun c u => Held h.aStart (l₁ ++ t :: l₂) c u ∧ c ≠ b) ∧
      Serves h.aStart (l₁ ++ t :: l₂) b q ts' ∧
      (∀ x, b + 8 ≤ x → x + 16 < b + need → (shrinkBlock h b need).mem x = h.mem x) ∧
      (minBlock ≤ t.size - need → word (shrinkBlock h b need).mem (b + need - 16) = need) := by
  have hspan := hw.span
  have htop := hw.top
  obtain ⟨-, hok, -⟩ := tagged_append.mp hw.tagged
  have hh := hw.hole
  rw [total_append, total_cons] at hspan
  rw [← hb] at hok hh
  simp only [ht, Bool.false_eq_true, if_false] at hh
  have hsize : h.size b = t.size := hok.size
  have hflags : h.flags b = flagWord (lastFree false l₁) false := ht ▸ hok.flags
  have hlt : t.size < 2 ^ 64 := by omega
  have hbit : (h.flags b).testBit 2 = false := by
    rw [hflags]
    cases lastFree false l₁ <;> decide
  by_cases hsplit : minBlock ≤ t.size - need
  · have heq : shrinkBlock h b need = writeFoot ((insertFree
        (h.putTag (b + need) (t.size - need) 0) (b + need)).setSize b need) b := by
      rw [shrinkBlock, hsize, sub64_of_le hle hlt, if_pos ⟨hsplit, by simp [hbit]⟩]
      dsimp only
      rw [Nat.div_mul_cancel h16, add64_of_lt (by omega)]
      rfl
    unfold minBlock at hsplit
    have hsplit' : need + 48 ≤ t.size := by omega
    clear hsplit
    rw [heq]
    have hbase := hh.base
    have hr := hh.range
    have hh₁ := hh.putTag (s := t.size - need) (f := 0) (x := b + need) (by omega) (by omega)
    have hs₁ : SameAround h (h.putTag (b + need) (t.size - need) 0) l₁ (b + t.size) l₂ :=
      hh.sameAround (SameArena.putTag _ _ (by omega) (by omega)) fun x hx =>
        Heap.putTag_apply (by omega)
    have hm₁ : ∀ x, x < b + need → (h.putTag (b + need) (t.size - need) 0).mem x = h.mem x :=
      fun x hx => Heap.putTag_apply (Or.inl hx)
    obtain ⟨ds, l₂', fl₂, rfl, hd, hh₂, hs₂, hm₂⟩ := insertFree_spec hh₁ (by omega)
      (dvd_add hbase h16) (by omega) (by omega) (Heap.size_putTag_self (by omega))
      (Heap.flags_putTag_self (by norm_num))
    rw [Nat.add_sub_cancel_left] at hh₂
    generalize h.putTag (b + need) (t.size - need) 0 = h₁ at *
    generalize insertFree h₁ (b + need) = h₂ at *
    have hh₃ := hh₂.setSize (x := b) (v := need) le_rfl (by omega) (by simp)
    have hr₂ := hh₂.range
    have hs₃ : SameAround h₂ (h₂.setSize b need) l₁ (b + need)
        ([⟨t.size - need + total ds, none⟩] ++ l₂') :=
      hh₂.sameAround (SameArena.setSize _ hr₂.1 (by omega)) fun x hx =>
        Heap.setSize_apply (by omega)
    have hm₃ : ∀ x, b + 8 ≤ x → (h₂.setSize b need).mem x = h₂.mem x :=
      fun x hx => Heap.setSize_apply (Or.inr hx)
    have hfl₃ : (h₂.setSize b need).flags b = flagWord (lastFree false l₁) false := by
      rw [← hflags]
      apply word_congr
      intro x hlo hhi
      rw [hm₃ x hlo, hm₂ x (by omega) (by omega), hm₁ x (by omega)]
    have hsz₃ : (h₂.setSize b need).size b = need := Heap.size_setSize_self (by omega)
    generalize h₂.setSize b need = h₃ at *
    obtain ⟨hs₄, hf₄, hfoot, -, hm₄⟩ := writeFoot_spec hsz₃ h48 (by omega)
    have hr₃ := hh₃.range
    -- the footer store of the source lands in the payload of the block itself
    have hh₄ : Hole (writeFoot h₃ b) l₁ b need false (⟨t.size - need + total ds, none⟩ :: l₂') fl₂
        [] := by
      apply hh₃.frame hs₄.aStart hs₄.aEnd hf₄
      intro x hx
      apply hm₄
      rcases hx with hx | hx | ⟨n, hn, -⟩
      · omega
      · omega
      · simp at hn
    have hs₄ : SameAround h₃ (writeFoot h₃ b) l₁ (b + need)
        ([⟨t.size - need + total ds, none⟩] ++ l₂') :=
      hh₃.sameAround ⟨hs₄, fun x hx => hm₄ x (by omega)⟩ fun x hx => hm₄ x (by omega)
    have hsz₄ : (writeFoot h₃ b).size b = need := by
      rw [← hsz₃]
      apply word_congr
      intro x hlo hhi
      exact hm₄ x (by omega)
    have hfl₄ : (writeFoot h₃ b).flags b = flagWord (lastFree false l₁) false := by
      rw [← hfl₃]
      apply word_congr
      intro x hlo hhi
      exact hm₄ x (by omega)
    obtain ⟨ts', fl', hwhole, hserve⟩ := hh₄.serve hw hd hb (by omega) h48 hq hsz₄ hfl₄
    have hend : b + need + total [⟨t.size - need + total ds, none⟩] = b + t.size + total ds := by
      rw [total_cons, total_nil]
      dsimp only
      omega
    have hlast := (hs₃.trans hs₄).next
    rw [hend] at hlast
    rw [← add_assoc] at hs₂
    refine ⟨ts', fl', hwhole, ((hs₁.next.trans hs₂).trans hlast).served hd hb, hserve, ?_,
      fun _ => hfoot⟩
    intro x hlo hhi
    rw [hm₄ x (by omega), hm₃ x hlo, hm₂ x (by omega) (by omega), hm₁ x (by omega)]
  · have heq : shrinkBlock h b need = h := by
      rw [shrinkBlock, hsize, sub64_of_le hle hlt, if_neg (fun hc => hsplit hc.1)]
    rw [heq]
    obtain ⟨ts', fl', hwhole, hserve⟩ := hh.serveAll (q := q) hw hb (by omega) hsize hflags
    exact ⟨ts', fl', hwhole, ⟨SameArena.refl h, fun _ _ _ _ _ _ => rfl⟩, hserve,
      fun _ _ _ => rfl, fun hc => absurd hc hsplit⟩

end Cut

end VoidOS.Malloc
