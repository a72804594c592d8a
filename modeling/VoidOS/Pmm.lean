import VoidOS.Bitmap
import VoidOS.Transition
import VoidOS.Vmm

namespace VoidOS.Pmm

open ByteMem Transition
open Mm (pageSize)

inductive MemType
  | usable
  | reserved
  | acpiReclaimable
  | acpiNvs
  | bad
  | bootloaderReclaimable
  | kernelAndModules
deriving DecidableEq, Repr

structure MmapEntry where
  base : ℕ
  length : ℕ
  type : MemType
deriving DecidableEq, Repr

/-- The state of the allocator. `bitmapPhys` is where the bitmap is stored. -/
structure Allocator where
  bitmap : Bitmap.Bytes
  bitmapPhys : ℕ
  bitmapSize : ℕ
  totalFrames : ℕ
  freeFrames : ℕ

def highestAddr (mmap : List MmapEntry) : ℕ :=
  mmap.foldl (fun highest e => max highest (add64 e.base e.length)) 0

/-- Step 2: the region that is to hold the bitmap; address 0 stands for none. -/
def bitmapRegion (mmap : List MmapEntry) (size : ℕ) : ℕ :=
  match mmap.find? fun e => e.type = .usable && size ≤ e.length with
  | none => 0
  | some e => e.base

def freeRange (start : ℕ) : ℕ → Bitmap.Bytes × ℕ → Bitmap.Bytes × ℕ
  | 0, s => s
  | n + 1, (bitmap, free) => freeRange (start + 1) n (Bitmap.clear bitmap start, add64 free 1)

def freeEntry (s : Bitmap.Bytes × ℕ) (e : MmapEntry) : Bitmap.Bytes × ℕ :=
  if e.type ≠ .usable then s
  else
    let startFrame := add64 e.base (pageSize - 1) / pageSize
    let endFrame := add64 e.base e.length / pageSize
    freeRange startFrame (endFrame - startFrame) s

def reserve (s : Bitmap.Bytes × ℕ) (f : ℕ) : Bitmap.Bytes × ℕ :=
  if !Bitmap.test s.1 f then (Bitmap.set s.1 f, sub64 s.2 1) else s

def reserveRange (start : ℕ) : ℕ → Bitmap.Bytes × ℕ → Bitmap.Bytes × ℕ
  | 0, s => s
  | n + 1, s => reserveRange (start + 1) n (reserve s start)

/-- `pmm_init`, over memory that holds `old` where the bitmap is put; `none` if it halts. -/
def pmmInit (mmap : List MmapEntry) (old : Bitmap.Bytes) : Option Allocator :=
  let totalFrames := highestAddr mmap / pageSize
  let bitmapSize := (totalFrames + 7) / 8
  let bitmapPhys := bitmapRegion mmap bitmapSize
  if bitmapPhys = 0 then none
  else
    let s := mmap.foldl freeEntry (fun i => if i < bitmapSize then 255#8 else old i, 0)
    let bmStart := bitmapPhys / pageSize
    let bmEnd := add64 (add64 bitmapPhys bitmapSize) (pageSize - 1) / pageSize
    let s := reserveRange bmStart (bmEnd - bmStart) s
    let s := if 0 < totalFrames then reserve s 0 else s
    some ⟨s.1, bitmapPhys, bitmapSize, totalFrames, s.2⟩

/-- The loop of `pmm_alloc_frame` over the bits of byte `i`. The outer option says whether the
loop returns. -/
def scanBits (p : Allocator) (i : ℕ) : ℕ → ℕ → Option (Option ℕ)
  | 0, _ => none
  | n + 1, bit =>
    if p.totalFrames ≤ i * 8 + bit then some none
    else if !Bitmap.test p.bitmap (i * 8 + bit) then some (some (i * 8 + bit))
    else scanBits p i n (bit + 1)

def scanBytes (p : Allocator) : ℕ → ℕ → Option ℕ
  | 0, _ => none
  | n + 1, i =>
    if p.bitmap i = 255#8 then scanBytes p n (i + 1)
    else
      match scanBits p i 8 0 with
      | some r => r
      | none => scanBytes p n (i + 1)

def pmmAllocFrame (p : Allocator) : Allocator × ℕ :=
  match scanBytes p p.bitmapSize 0 with
  | none => (p, 0)
  | some frame =>
    ({ p with bitmap := Bitmap.set p.bitmap frame, freeFrames := sub64 p.freeFrames 1 },
      frame * pageSize % 2 ^ 64)

def pmmFreeFrame (p : Allocator) (physAddr : ℕ) : Allocator :=
  let frame := physAddr / pageSize
  if p.totalFrames ≤ frame then p
  else if Bitmap.test p.bitmap frame then
    { p with bitmap := Bitmap.clear p.bitmap frame, freeFrames := add64 p.freeFrames 1 }
  else p

section Scan

variable {p : Allocator} {i n bit f g : ℕ}

theorem scanBits_found (h : scanBits p i n bit = some (some f)) :
    i * 8 + bit ≤ f ∧ f < i * 8 + bit + n ∧ f < p.totalFrames ∧ Bitmap.test p.bitmap f = false ∧
      ∀ g, i * 8 + bit ≤ g → g < f → Bitmap.test p.bitmap g = true := by
  induction n generalizing bit with
  | zero => cases h
  | succ n ih =>
    rw [scanBits] at h
    split_ifs at h with htotal hclear
    · cases h
    · cases h
      refine ⟨le_rfl, by omega, by omega, by simpa using hclear, ?_⟩
      intro g hl hr
      omega
    · obtain ⟨h₁, h₂, h₃, h₄, h₅⟩ := ih h
      refine ⟨by omega, by omega, h₃, h₄, ?_⟩
      intro g hl hr
      by_cases hg : g = i * 8 + bit
      · rw [hg]
        simpa using hclear
      · exact h₅ g (by omega) hr

theorem scanBits_full (h : ∀ f, scanBits p i n bit ≠ some (some f)) (hl : i * 8 + bit ≤ g)
    (hr : g < i * 8 + bit + n) (hg : g < p.totalFrames) : Bitmap.test p.bitmap g = true := by
  induction n generalizing bit with
  | zero => omega
  | succ n ih =>
    rw [scanBits] at h
    split_ifs at h with htotal hclear
    · omega
    · exact absurd rfl (h _)
    · by_cases he : g = i * 8 + bit
      · rw [he]
        simpa using hclear
      · exact ih h (by omega) (by omega)

theorem scanBits_end (h : scanBits p i n bit = some none) : p.totalFrames ≤ i * 8 + bit + n := by
  induction n generalizing bit with
  | zero => cases h
  | succ n ih =>
    rw [scanBits] at h
    split_ifs at h with htotal hclear
    · omega
    · cases h
    · have := ih h
      omega

theorem byte_set (hfull : p.bitmap i = 255#8) (hl : i * 8 ≤ g) (hr : g < i * 8 + 8) :
    Bitmap.test p.bitmap g = true := by
  have hj := Bitmap.byte_full.mp hfull (g - 8 * i) (by omega)
  rw [show 8 * i + (g - 8 * i) = g by omega] at hj
  exact hj

theorem scanBytes_found (h : scanBytes p n i = some f) : i * 8 ≤ f ∧ f < p.totalFrames ∧
    Bitmap.test p.bitmap f = false ∧
      ∀ g, i * 8 ≤ g → g < f → Bitmap.test p.bitmap g = true := by
  induction n generalizing i with
  | zero => cases h
  | succ n ih =>
    rw [scanBytes] at h
    split_ifs at h with hfull
    · obtain ⟨h₁, h₂, h₃, h₄⟩ := ih h
      refine ⟨by omega, h₂, h₃, ?_⟩
      intro g hl hr
      by_cases hg : g < i * 8 + 8
      · exact byte_set hfull hl hg
      · exact h₄ g (by omega) hr
    · split at h
      · rename_i hs
        rw [h] at hs
        obtain ⟨h₁, -, h₂, h₃, h₄⟩ := scanBits_found hs
        exact ⟨h₁, h₂, h₃, h₄⟩
      · rename_i hs
        obtain ⟨h₁, h₂, h₃, h₄⟩ := ih h
        refine ⟨by omega, h₂, h₃, ?_⟩
        intro g hl hr
        by_cases hg : g < i * 8 + 8
        · exact @scanBits_full p i 8 0 g (by simp [hs]) hl hg (by omega)
        · exact h₄ g (by omega) hr

theorem scanBytes_none (h : scanBytes p n i = none) (hl : i * 8 ≤ g) (hr : g < (i + n) * 8)
    (hg : g < p.totalFrames) : Bitmap.test p.bitmap g = true := by
  induction n generalizing i with
  | zero => omega
  | succ n ih =>
    rw [scanBytes] at h
    split_ifs at h with hfull
    · by_cases hlt : g < i * 8 + 8
      · exact byte_set hfull hl hlt
      · exact ih h (by omega) (by omega)
    · by_cases hlt : g < i * 8 + 8
      · apply @scanBits_full p i 8 0 g _ hl hlt hg
        intro f hs
        rw [hs] at h
        cases h
      · split at h
        · rename_i hs
          rw [h] at hs
          have hend := scanBits_end hs
          omega
        · exact ih h (by omega) (by omega)

end Scan

section Count

variable {s : Bitmap.Bytes × ℕ} {total f : ℕ} {frames : Finset ℕ}

/-- The counter is the number of clear bits, and these are the given ones. -/
structure Counts (s : Bitmap.Bytes × ℕ) (total : ℕ) (frames : Finset ℕ) : Prop where
  clear : Bitmap.clearBits s.1 total = frames
  count : s.2 = frames.card

theorem Counts.lt (h : Counts s total frames) (ht : total < 2 ^ 52) : s.2 < 2 ^ 52 := by
  rw [h.count, ← h.clear]
  exact lt_of_le_of_lt Bitmap.card_clearBits_le ht

theorem Counts.mem (h : Counts s total frames) (hf : f < total) :
    f ∈ frames ↔ Bitmap.test s.1 f = false := by
  rw [← h.clear, Bitmap.mem_clearBits]
  exact and_iff_right hf

theorem Counts.free (h : Counts s total frames) (ht : total < 2 ^ 52) (hf : f < total)
    (hnot : f ∉ frames) : Counts (Bitmap.clear s.1 f, add64 s.2 1) total (insert f frames) := by
  have hlt := h.lt ht
  constructor
  · rw [Bitmap.clearBits_clear hf, h.clear]
  · rw [add64_of_lt (by omega), Finset.card_insert_of_notMem hnot, h.count]

theorem Counts.reserve (h : Counts s total frames) (ht : total < 2 ^ 52) (hf : f < total) :
    Counts (reserve s f) total (frames.erase f) := by
  unfold Pmm.reserve
  by_cases hin : f ∈ frames
  · have hpos := Finset.card_pos.mpr ⟨f, hin⟩
    have hlt := h.lt ht
    rw [(h.mem hf).mp hin]
    constructor
    · exact Bitmap.clearBits_set.trans (by rw [h.clear])
    · show sub64 s.2 1 = _
      rw [Finset.card_erase_of_mem hin, ← h.count, sub64_of_le (by rw [h.count]; omega) (by omega)]
  · have hset : Bitmap.test s.1 f = true := by
      rw [← Bool.not_eq_false]
      exact fun hc => hin ((h.mem hf).mpr hc)
    rw [hset, Finset.erase_eq_of_notMem hin]
    exact h

theorem Counts.freeRange (h : Counts s total frames) (ht : total < 2 ^ 52) (start n : ℕ)
    (hf : ∀ f, start ≤ f → f < start + n → f < total) (hnot : ∀ f, start ≤ f → f < start + n → f ∉ frames) :
    Counts (freeRange start n s) total (frames ∪ Finset.Ico start (start + n)) := by
  induction n generalizing start s frames with
  | zero =>
    simp only [Pmm.freeRange, add_zero, Finset.Ico_self, Finset.union_empty]
    exact h
  | succ n ih =>
    have hstep := h.free ht (hf start le_rfl (by omega)) (hnot start le_rfl (by omega))
    have hrest := ih hstep (start + 1) (fun f hl hr => hf f (by omega) (by omega)) ?_
    · have hset : insert start frames ∪ Finset.Ico (start + 1) (start + 1 + n) =
          frames ∪ Finset.Ico start (start + (n + 1)) := by
        ext g
        simp only [Finset.mem_union, Finset.mem_insert, Finset.mem_Ico]
        constructor
        · rintro ((hg | hg) | hg)
          · exact Or.inr (by omega)
          · exact Or.inl hg
          · exact Or.inr (by omega)
        · rintro (hg | hg)
          · exact Or.inl (Or.inr hg)
          · by_cases he : g = start
            · exact Or.inl (Or.inl he)
            · exact Or.inr (by omega)
      rw [hset] at hrest
      exact hrest
    · intro f hl hr hin
      rcases Finset.mem_insert.mp hin with he | hin
      · omega
      · exact hnot f (by omega) (by omega) hin

theorem Counts.reserveRange (h : Counts s total frames) (ht : total < 2 ^ 52) (start n : ℕ)
    (hf : ∀ f, start ≤ f → f < start + n → f < total) :
    Counts (reserveRange start n s) total (frames \ Finset.Ico start (start + n)) := by
  induction n generalizing start s frames with
  | zero =>
    simp only [Pmm.reserveRange, add_zero, Finset.Ico_self, Finset.sdiff_empty]
    exact h
  | succ n ih =>
    have hrest := ih (h.reserve ht (hf start le_rfl (by omega))) (start + 1)
      fun f hl hr => hf f (by omega) (by omega)
    have hset : frames.erase start \ Finset.Ico (start + 1) (start + 1 + n) =
        frames \ Finset.Ico start (start + (n + 1)) := by
      ext g
      simp only [Finset.mem_sdiff, Finset.mem_erase, Finset.mem_Ico]
      constructor
      · rintro ⟨⟨hne, hin⟩, hout⟩
        exact ⟨hin, by omega⟩
      · rintro ⟨hin, hout⟩
        exact ⟨⟨by omega, hin⟩, by omega⟩
    rw [hset] at hrest
    exact hrest

end Count

/-- What the boot protocol guarantees of the usable entries. -/
structure MmapOk (mmap : List MmapEntry) : Prop where
  base : ∀ e ∈ mmap, e.type = .usable → e.base % pageSize = 0
  length : ∀ e ∈ mmap, e.type = .usable → e.length % pageSize = 0
  wrap : ∀ e ∈ mmap, e.type = .usable → e.base + e.length < 2 ^ 64
  disjoint : mmap.Pairwise fun e e' => e.type = .usable → e'.type = .usable →
    e.base + e.length ≤ e'.base ∨ e'.base + e'.length ≤ e.base

def MmapEntry.frames (e : MmapEntry) : Finset ℕ :=
  if e.type = .usable then Finset.Ico (e.base / pageSize) ((e.base + e.length) / pageSize) else ∅

def usableFrames : List MmapEntry → Finset ℕ
  | [] => ∅
  | e :: es => e.frames ∪ usableFrames es

section Maps

variable {mmap es : List MmapEntry} {e : MmapEntry} {f : ℕ}

theorem mem_usableFrames : f ∈ usableFrames mmap ↔ ∃ e ∈ mmap, f ∈ e.frames := by
  induction mmap with
  | nil => simp [usableFrames]
  | cons e es ih => simp [usableFrames, ih]

theorem mem_frames : f ∈ e.frames ↔ e.type = .usable ∧ e.base / pageSize ≤ f ∧
    f < (e.base + e.length) / pageSize := by
  unfold MmapEntry.frames
  split
  · rename_i h
    simp [h]
  · rename_i h
    simp [h]

theorem highestAddr_ge (he : e ∈ mmap) : add64 e.base e.length ≤ highestAddr mmap := by
  have hfold : ∀ (l : List MmapEntry) (h₀ : ℕ),
      h₀ ≤ l.foldl (fun highest e => max highest (add64 e.base e.length)) h₀ ∧
      ∀ e ∈ l, add64 e.base e.length ≤
        l.foldl (fun highest e => max highest (add64 e.base e.length)) h₀ := by
    intro l
    induction l with
    | nil => simp
    | cons e l ih =>
      intro h₀
      obtain ⟨h₁, h₂⟩ := ih (max h₀ (add64 e.base e.length))
      rw [List.foldl_cons]
      refine ⟨le_trans (le_max_left _ _) h₁, ?_⟩
      intro e' he'
      rcases List.mem_cons.mp he' with rfl | he'
      · exact le_trans (le_max_right _ _) h₁
      · exact h₂ e' he'
  exact (hfold mmap 0).2 e he

theorem highestAddr_lt (mmap : List MmapEntry) : highestAddr mmap < 2 ^ 64 := by
  have hfold : ∀ (l : List MmapEntry) (h₀ : ℕ), h₀ < 2 ^ 64 →
      l.foldl (fun highest e => max highest (add64 e.base e.length)) h₀ < 2 ^ 64 := by
    intro l
    induction l with
    | nil => exact fun _ h => h
    | cons e l ih =>
      intro h₀ h
      apply ih
      apply max_lt h
      rw [add64_eq_mod]
      exact Nat.mod_lt _ (by norm_num)
  exact hfold mmap 0 (by norm_num)

theorem frames_lt (hok : MmapOk mmap) (he : e ∈ mmap) (hf : f ∈ e.frames) :
    f < highestAddr mmap / pageSize := by
  obtain ⟨hu, -, hlt⟩ := mem_frames.mp hf
  have hge := highestAddr_ge he
  rw [add64_of_lt (hok.wrap e he hu)] at hge
  exact lt_of_lt_of_le hlt (Nat.div_le_div_right hge)

theorem frames_disjoint {e' : MmapEntry} (hb : e.type = .usable → e.base % pageSize = 0)
    (hb' : e'.type = .usable → e'.base % pageSize = 0)
    (h : e.type = .usable → e'.type = .usable →
      e.base + e.length ≤ e'.base ∨ e'.base + e'.length ≤ e.base)
    (hf : f ∈ e.frames) : f ∉ e'.frames := by
  intro hf'
  obtain ⟨hu, h₁, h₂⟩ := mem_frames.mp hf
  obtain ⟨hu', h₃, h₄⟩ := mem_frames.mp hf'
  have hd := h hu hu'
  have hb := hb hu
  have hb' := hb' hu'
  unfold pageSize at *
  omega

theorem freeEntries_counts {total : ℕ} {s : Bitmap.Bytes × ℕ} {frames : Finset ℕ}
    (h : Counts s total frames) (ht : total < 2 ^ 52) (hok : MmapOk es)
    (hlt : ∀ e ∈ es, ∀ f ∈ e.frames, f < total)
    (hnot : ∀ e ∈ es, ∀ f ∈ e.frames, f ∉ frames) :
    Counts (es.foldl freeEntry s) total (frames ∪ usableFrames es) := by
  induction es generalizing s frames with
  | nil =>
    simp only [List.foldl_nil, usableFrames, Finset.union_empty]
    exact h
  | cons e es ih =>
    have hmem : e ∈ e :: es := List.mem_cons_self
    have hok' : MmapOk es := ⟨fun e he => hok.base e (List.mem_cons_of_mem _ he),
      fun e he => hok.length e (List.mem_cons_of_mem _ he),
      fun e he => hok.wrap e (List.mem_cons_of_mem _ he), (List.pairwise_cons.mp hok.disjoint).2⟩
    have hone : Counts (freeEntry s e) total (frames ∪ e.frames) := by
      unfold freeEntry
      by_cases hu : e.type = .usable
      · rw [if_neg (not_not.mpr hu)]
        have hw := hok.wrap e hmem hu
        have hb := hok.base e hmem hu
        have hl := hok.length e hmem hu
        have hstart : add64 e.base (pageSize - 1) / pageSize = e.base / pageSize := by
          unfold pageSize at *
          rw [add64_of_lt (by omega)]
          omega
        dsimp only
        rw [hstart, add64_of_lt hw]
        have hle : e.base / pageSize ≤ (e.base + e.length) / pageSize :=
          Nat.div_le_div_right (Nat.le_add_right _ _)
        have hframes : e.frames = Finset.Ico (e.base / pageSize) (e.base / pageSize +
            ((e.base + e.length) / pageSize - e.base / pageSize)) := by
          rw [MmapEntry.frames, if_pos hu, Nat.add_sub_cancel' hle]
        rw [hframes]
        apply h.freeRange ht
        · intro f h₁ h₂
          apply hlt e hmem
          rw [hframes, Finset.mem_Ico]
          exact ⟨h₁, h₂⟩
        · intro f h₁ h₂
          apply hnot e hmem
          rw [hframes, Finset.mem_Ico]
          exact ⟨h₁, h₂⟩
      · rw [if_pos hu]
        have hframes : e.frames = ∅ := by rw [MmapEntry.frames, if_neg hu]
        rw [hframes, Finset.union_empty]
        exact h
    rw [List.foldl_cons, usableFrames, ← Finset.union_assoc]
    apply ih hone hok'
    · exact fun e' he' => hlt e' (List.mem_cons_of_mem _ he')
    · intro e' he' f hf hin
      rcases Finset.mem_union.mp hin with hin | hin
      · exact hnot e' (List.mem_cons_of_mem _ he') f hf hin
      · exact frames_disjoint (hok.base e hmem) (hok'.base e' he')
          ((List.pairwise_cons.mp hok.disjoint).1 e' he') hin hf

end Maps

/-- Whether a frame may be handed out: it lies in a usable region, it is not frame 0 and it
holds no part of the bitmap. -/
def Good (mmap : List MmapEntry) (p : Allocator) (f : ℕ) : Prop :=
  f < p.totalFrames ∧ f ≠ 0 ∧
    (∃ e ∈ mmap, e.type = .usable ∧ e.base ≤ f * pageSize ∧
      f * pageSize + pageSize ≤ e.base + e.length) ∧
    (f * pageSize + pageSize ≤ p.bitmapPhys ∨ p.bitmapPhys + p.bitmapSize ≤ f * pageSize)

/-- The allocator, with the frames that have been handed out and not taken back. -/
structure Held where
  pmm : Allocator
  held : List ℕ

inductive PmmOp
  | alloc
  | free (physAddr : ℕ)

/-- The frame 0 that stands for failure is not handed out. -/
def pmmStep (s : Held) : PmmOp → Option Held
  | .alloc =>
    let (p, a) := pmmAllocFrame s.pmm
    some ⟨p, if a = 0 then s.held else a :: s.held⟩
  | .free a => some ⟨pmmFreeFrame s.pmm a, s.held.erase a⟩

def HeldOk (s : Held) : PmmOp → Prop
  | .alloc => True
  | .free a => a ∈ s.held

structure Ok (mmap : List MmapEntry) (s : Held) : Prop where
  total : s.pmm.totalFrames < 2 ^ 52
  size : s.pmm.bitmapSize = (s.pmm.totalFrames + 7) / 8
  count : s.pmm.freeFrames = (Bitmap.clearBits s.pmm.bitmap s.pmm.totalFrames).card
  good : ∀ f ∈ Bitmap.clearBits s.pmm.bitmap s.pmm.totalFrames, Good mmap s.pmm f
  nodup : s.held.Nodup
  held : ∀ a ∈ s.held, ∃ f, a = f * pageSize ∧ Good mmap s.pmm f ∧
    Bitmap.test s.pmm.bitmap f = true

section Runs

variable {mmap : List MmapEntry} {p : Allocator} {s s' : Held} {old : Bitmap.Bytes}

theorem bitmapRegion_mem {size : ℕ} (h : bitmapRegion mmap size ≠ 0) :
    ∃ e ∈ mmap, e.type = .usable ∧ size ≤ e.length ∧ bitmapRegion mmap size = e.base := by
  unfold bitmapRegion at h ⊢
  split at h
  · exact absurd rfl h
  · rename_i e he
    have hp := List.find?_some he
    simp only [Bool.and_eq_true, decide_eq_true_eq] at hp
    exact ⟨e, List.mem_of_find?_eq_some he, hp.1, hp.2, rfl⟩

theorem frame_in_entry {e : MmapEntry} {f : ℕ} (hb : e.base % pageSize = 0)
    (hf : f ∈ e.frames) : e.base ≤ f * pageSize ∧ f * pageSize + pageSize ≤ e.base + e.length := by
  obtain ⟨-, h₁, h₂⟩ := mem_frames.mp hf
  unfold pageSize at *
  omega

theorem pmmInit_ok (hok : MmapOk mmap) (h : pmmInit mmap old = some p) : Ok mmap ⟨p, []⟩ := by
  unfold pmmInit at h
  dsimp only at h
  by_cases hz : bitmapRegion mmap ((highestAddr mmap / pageSize + 7) / 8) = 0
  · rw [if_pos hz] at h
    cases h
  rw [if_neg hz] at h
  cases h
  generalize htotal : highestAddr mmap / pageSize = total at *
  generalize hphys : bitmapRegion mmap ((total + 7) / 8) = phys at *
  obtain ⟨e, he, hu, hsize, hbase⟩ := bitmapRegion_mem (by rw [hphys]; exact hz)
  rw [hphys] at hbase
  have hlt52 : total < 2 ^ 52 := by
    have := highestAddr_lt mmap
    rw [← htotal]
    unfold pageSize
    omega
  have hframes : ∀ e ∈ mmap, ∀ f ∈ e.frames, f < total := by
    intro e he f hf
    rw [← htotal]
    exact frames_lt hok he hf
  -- every bit is set at first
  have hfull : Counts (fun i => if i < (total + 7) / 8 then 255#8 else old i, 0) total ∅ := by
    refine ⟨?_, rfl⟩
    ext f
    rw [Bitmap.mem_clearBits]
    simp only [Finset.notMem_empty, iff_false, not_and]
    intro hf
    rw [Bitmap.test_eq, if_pos (by omega)]
    have hone : ∀ j : Fin 8, (255#8).getLsbD j = true := by decide
    rw [hone ⟨f % 8, Nat.mod_lt _ (by norm_num)⟩]
    simp
  have hfreed := freeEntries_counts hfull hlt52 hok hframes
    fun _ _ _ _ hc => absurd hc (Finset.notMem_empty _)
  rw [Finset.empty_union] at hfreed
  -- the frames of the bitmap lie in its region
  have hw := hok.wrap e he hu
  have hb := hok.base e he hu
  have hl := hok.length e he hu
  have hsum : add64 (add64 phys ((total + 7) / 8)) (pageSize - 1) =
      phys + (total + 7) / 8 + (pageSize - 1) := by
    have h₁ : phys + (total + 7) / 8 < 2 ^ 64 := by omega
    rw [add64_of_lt h₁, add64_of_lt (by unfold pageSize at *; omega)]
  rw [hsum]
  generalize hend : (phys + (total + 7) / 8 + (pageSize - 1)) / pageSize = bmEnd
  have hle : phys / pageSize ≤ bmEnd := by
    rw [← hend]
    apply Nat.div_le_div_right
    omega
  have hcover : ∀ f, phys / pageSize ≤ f → f < bmEnd → f < total := by
    intro f h₁ h₂
    apply hframes e he
    rw [mem_frames]
    refine ⟨hu, by rw [← hbase]; exact h₁, ?_⟩
    unfold pageSize at *
    omega
  have hreserved := hfreed.reserveRange hlt52 (phys / pageSize) (bmEnd - phys / pageSize) (by
    intro f h₁ h₂
    exact hcover f h₁ (by omega))
  rw [Nat.add_sub_cancel' hle] at hreserved
  generalize reserveRange (phys / pageSize) (bmEnd - phys / pageSize) _ = s₁ at hreserved ⊢
  have hfinal : Counts (if 0 < total then reserve s₁ 0 else s₁) total
      ((usableFrames mmap \ Finset.Ico (phys / pageSize) bmEnd).erase 0) := by
    by_cases hpos : 0 < total
    · rw [if_pos hpos]
      exact hreserved.reserve hlt52 hpos
    · have hempty : usableFrames mmap \ Finset.Ico (phys / pageSize) bmEnd = ∅ := by
        rw [← hreserved.clear]
        ext f
        rw [Bitmap.mem_clearBits]
        simp only [Finset.notMem_empty, iff_false]
        omega
      rw [if_neg hpos, hempty, Finset.erase_empty]
      rw [hempty] at hreserved
      exact hreserved
  generalize (if 0 < total then reserve s₁ 0 else s₁) = s₂ at hfinal ⊢
  refine ⟨hlt52, rfl, ?_, ?_, List.nodup_nil, by simp⟩
  · show s₂.2 = (Bitmap.clearBits s₂.1 total).card
    rw [hfinal.clear]
    exact hfinal.count
  · intro f hf
    replace hf : f ∈ Bitmap.clearBits s₂.1 total := hf
    have hftotal := (Bitmap.mem_clearBits.mp hf).1
    rw [hfinal.clear, Finset.mem_erase, Finset.mem_sdiff, mem_usableFrames, Finset.mem_Ico] at hf
    obtain ⟨hne, ⟨e', he', hfe⟩, hout⟩ := hf
    have hu' := (mem_frames.mp hfe).1
    obtain ⟨h₁, h₂⟩ := frame_in_entry (hok.base e' he' hu') hfe
    refine ⟨hftotal, hne, ⟨e', he', hu', h₁, h₂⟩, ?_⟩
    show _ ≤ phys ∨ phys + (total + 7) / 8 ≤ _
    unfold pageSize at *
    omega

theorem good_congr {q : Allocator} {f : ℕ} (ht : q.totalFrames = p.totalFrames)
    (hp : q.bitmapPhys = p.bitmapPhys) (hs : q.bitmapSize = p.bitmapSize) :
    Good mmap q f ↔ Good mmap p f := by
  unfold Good
  rw [ht, hp, hs]

/-- What `pmm_alloc_frame` does: nothing if no frame is free, and else it takes the lowest. -/
theorem alloc_cases (h : Ok mmap s) :
    (s.pmm.freeFrames = 0 ∧ pmmAllocFrame s.pmm = (s.pmm, 0)) ∨
    ∃ f, s.pmm.freeFrames ≠ 0 ∧ f < s.pmm.totalFrames ∧ Bitmap.test s.pmm.bitmap f = false ∧
      (∀ g < f, Bitmap.test s.pmm.bitmap g = true) ∧ f ≠ 0 ∧
      pmmAllocFrame s.pmm = ({ s.pmm with
        bitmap := Bitmap.set s.pmm.bitmap f, freeFrames := s.pmm.freeFrames - 1 }, f * pageSize) := by
  unfold pmmAllocFrame
  have hsize := h.size
  have ht := h.total
  cases hs : scanBytes s.pmm s.pmm.bitmapSize 0 with
  | none =>
    left
    refine ⟨?_, rfl⟩
    rw [h.count, Finset.card_eq_zero]
    ext f
    rw [Bitmap.mem_clearBits]
    simp only [Finset.notMem_empty, iff_false, not_and]
    intro hf
    rw [scanBytes_none hs (Nat.zero_le _) (by omega) hf]
    simp
  | some f =>
    right
    obtain ⟨-, hlt, hclear, hfirst⟩ := scanBytes_found hs
    have hmem := Bitmap.mem_clearBits.mpr ⟨hlt, hclear⟩
    have hpos := Finset.card_pos.mpr ⟨f, hmem⟩
    have hle := @Bitmap.card_clearBits_le s.pmm.bitmap s.pmm.totalFrames
    have hcount := h.count
    refine ⟨f, by omega, hlt, hclear, fun g hg => hfirst g (Nat.zero_le _) hg, (h.good f hmem).2.1, ?_⟩
    dsimp only
    rw [sub64_of_le (by omega) (by omega), Nat.mod_eq_of_lt]
    unfold pageSize
    omega

theorem Ok.alloc (h : Ok mmap s) (hs : pmmStep s .alloc = some s') : Ok mmap s' := by
  rcases alloc_cases h with ⟨-, ha⟩ | ⟨f, hne, hlt, hclear, -, hf, ha⟩
  · unfold pmmStep at hs
    rw [ha] at hs
    cases hs
    exact h
  · unfold pmmStep at hs
    rw [ha] at hs
    have hz : f * pageSize ≠ 0 := by
      unfold pageSize
      omega
    dsimp only at hs
    rw [if_neg hz] at hs
    cases hs
    have hgood := h.good f (Bitmap.mem_clearBits.mpr ⟨hlt, hclear⟩)
    refine ⟨h.total, h.size, ?_, ?_, ?_, ?_⟩
    · show s.pmm.freeFrames - 1 = _
      rw [h.count, ← Bitmap.card_set hlt hclear]
      rfl
    · intro g hg
      replace hg : g ∈ Bitmap.clearBits (Bitmap.set s.pmm.bitmap f) s.pmm.totalFrames := hg
      rw [Bitmap.clearBits_set, Finset.mem_erase] at hg
      exact (good_congr rfl rfl rfl).mpr (h.good g hg.2)
    · apply List.nodup_cons.mpr
      refine ⟨?_, h.nodup⟩
      intro hin
      obtain ⟨g, hg, -, hset⟩ := h.held _ hin
      have he : g = f := by
        unfold pageSize at hg
        omega
      rw [he, hclear] at hset
      cases hset
    · intro a ha'
      rcases List.mem_cons.mp ha' with rfl | ha'
      · refine ⟨f, rfl, (good_congr rfl rfl rfl).mpr hgood, ?_⟩
        show Bitmap.test (Bitmap.set s.pmm.bitmap f) f = true
        rw [Bitmap.test_set, if_pos rfl]
      · obtain ⟨g, hg, hgg, hset⟩ := h.held a ha'
        refine ⟨g, hg, (good_congr rfl rfl rfl).mpr hgg, ?_⟩
        show Bitmap.test (Bitmap.set s.pmm.bitmap f) g = true
        rw [Bitmap.test_set]
        split
        · rfl
        · exact hset

theorem Ok.free {a : ℕ} (h : Ok mmap s) (ha : a ∈ s.held) (hs : pmmStep s (.free a) = some s') :
    Ok mmap s' := by
  obtain ⟨f, rfl, hgood, hset⟩ := h.held a ha
  have hframe : f * pageSize / pageSize = f := Nat.mul_div_cancel _ (by unfold pageSize; norm_num)
  have ht := h.total
  have hle := @Bitmap.card_clearBits_le s.pmm.bitmap s.pmm.totalFrames
  have hcount := h.count
  have hfree : pmmFreeFrame s.pmm (f * pageSize) = { s.pmm with
      bitmap := Bitmap.clear s.pmm.bitmap f, freeFrames := s.pmm.freeFrames + 1 } := by
    unfold pmmFreeFrame
    dsimp only
    rw [hframe, if_neg (Nat.not_le.mpr hgood.1), if_pos hset, add64_of_lt (by omega)]
  unfold pmmStep at hs
  dsimp only at hs
  rw [hfree] at hs
  cases hs
  refine ⟨h.total, h.size, ?_, ?_, h.nodup.erase _, ?_⟩
  · show s.pmm.freeFrames + 1 = _
    rw [h.count]
    exact (Bitmap.card_clear hgood.1 hset).symm
  · intro g hg
    replace hg : g ∈ Bitmap.clearBits (Bitmap.clear s.pmm.bitmap f) s.pmm.totalFrames := hg
    rw [Bitmap.clearBits_clear hgood.1, Finset.mem_insert] at hg
    rcases hg with rfl | hg
    · exact (good_congr rfl rfl rfl).mpr hgood
    · exact (good_congr rfl rfl rfl).mpr (h.good g hg)
  · intro b hb
    obtain ⟨hne, hb⟩ := (h.nodup.mem_erase_iff).mp hb
    obtain ⟨g, rfl, hgg, hgs⟩ := h.held b hb
    refine ⟨g, rfl, (good_congr rfl rfl rfl).mpr hgg, ?_⟩
    show Bitmap.test (Bitmap.clear s.pmm.bitmap f) g = true
    rw [Bitmap.test_clear, if_neg, hgs]
    rintro rfl
    exact hne rfl

/-- The states after `pmm_init` and any allocations and frees of held frames. -/
theorem reach_pmm (hok : MmapOk mmap) (hinit : pmmInit mmap old = some p)
    (h : Reach pmmStep HeldOk (· = ⟨p, []⟩) s) : Ok mmap s := by
  apply h.invariant (P := Ok mmap)
  · rintro _ rfl
    exact pmmInit_ok hok hinit
  · intro s a s' hs hg hstep
    cases a with
    | alloc => exact hs.alloc hstep
    | free a => exact hs.free hg hstep

/-- The allocator after `pmm_init` on any memory map: the counter is right, an allocation fails
only if nothing is free, and else it takes the lowest free frame, which is usable, not frame 0,
not part of the bitmap and not held by anybody. -/
theorem frame_allocator (hok : MmapOk mmap) (hinit : pmmInit mmap old = some p)
    (h : Reach pmmStep HeldOk (· = ⟨p, []⟩) s) :
    s.pmm.freeFrames = (Bitmap.clearBits s.pmm.bitmap s.pmm.totalFrames).card ∧
    ((pmmAllocFrame s.pmm).2 = 0 ↔ s.pmm.freeFrames = 0) ∧
    ((pmmAllocFrame s.pmm).2 ≠ 0 → ∃ f, (pmmAllocFrame s.pmm).2 = f * pageSize ∧
      f < s.pmm.totalFrames ∧ Bitmap.test s.pmm.bitmap f = false ∧
      (∀ g < f, Bitmap.test s.pmm.bitmap g = true) ∧ Good mmap s.pmm f ∧
      (pmmAllocFrame s.pmm).2 ∉ s.held) := by
  have hs := reach_pmm hok hinit h
  refine ⟨hs.count, ?_⟩
  rcases alloc_cases hs with ⟨hzero, ha⟩ | ⟨f, hne, hlt, hclear, hfirst, hf, ha⟩
  · rw [ha]
    exact ⟨by simp [hzero], fun hc => absurd rfl hc⟩
  · rw [ha]
    have hz : f * pageSize ≠ 0 := by
      unfold pageSize
      omega
    refine ⟨by simp [hz, hne], fun _ => ⟨f, rfl, hlt, hclear, hfirst, ?_, ?_⟩⟩
    · exact hs.good f (Bitmap.mem_clearBits.mpr ⟨hlt, hclear⟩)
    · intro hin
      obtain ⟨g, hg, -, hset⟩ := hs.held _ hin
      have he : g = f := by
        unfold pageSize at hg
        dsimp only at hg
        omega
      rw [he, hclear] at hset
      cases hset

/-- Physical memory, as the rest of the kernel sees it, with the frames of the bitmap. -/
structure Refines (p : Allocator) (ph : Mm.Phys) : Prop where
  total : ph.totalFrames = p.totalFrames
  used : ∀ f < p.totalFrames, ph.used f = Bitmap.test p.bitmap f

theorem Refines.alloc {ph : Mm.Phys} (hr : Refines s.pmm ph) (h : Ok mmap s) :
    (Mm.pmmAllocFrame ph).2 = (pmmAllocFrame s.pmm).2 ∧
      Refines (pmmAllocFrame s.pmm).1 (Mm.pmmAllocFrame ph).1 := by
  unfold Mm.pmmAllocFrame
  rcases alloc_cases h with ⟨hzero, ha⟩ | ⟨f, -, hlt, hclear, hfirst, -, ha⟩
  · have hnone : (List.range ph.totalFrames).find? (fun f => !ph.used f) = none := by
      rw [List.find?_eq_none]
      intro f hf
      rw [List.mem_range, hr.total] at hf
      rw [h.count, Finset.card_eq_zero] at hzero
      have hnot := Finset.eq_empty_iff_forall_notMem.mp hzero f
      simp only [Bitmap.mem_clearBits, hf, true_and, Bool.not_eq_false] at hnot
      simp [hr.used f hf, hnot]
    rw [hnone, ha]
    exact ⟨rfl, hr⟩
  · have hsome : (List.range ph.totalFrames).find? (fun f => !ph.used f) = some f := by
      rw [List.find?_range_eq_some, List.mem_range, hr.total]
      refine ⟨by simp [hr.used f hlt, hclear], hlt, fun g hg => ?_⟩
      simp [hr.used g (hg.trans hlt), hfirst g hg]
    rw [hsome, ha]
    refine ⟨rfl, hr.total, fun g hg => ?_⟩
    show Function.update ph.used f true g = Bitmap.test (Bitmap.set s.pmm.bitmap f) g
    rw [Function.update_apply, Bitmap.test_set, hr.used g hg]

theorem Refines.free {ph : Mm.Phys} (hr : Refines p ph) (a : ℕ) :
    Refines (pmmFreeFrame p a) (Mm.pmmFreeFrame ph a) := by
  unfold pmmFreeFrame Mm.pmmFreeFrame
  dsimp only
  rw [hr.total]
  split_ifs with hlt hset
  · exact hr
  · refine ⟨rfl, fun g hg => ?_⟩
    show Function.update ph.used (a / pageSize) false g = Bitmap.test (Bitmap.clear p.bitmap _) g
    rw [Function.update_apply, Bitmap.test_clear, hr.used g hg]
  · refine ⟨rfl, fun g hg => ?_⟩
    show Function.update ph.used (a / pageSize) false g = Bitmap.test p.bitmap g
    rw [Function.update_apply, hr.used g hg]
    split
    · rename_i he
      rw [he]
      simpa using hset
    · rfl

end Runs

/-- A machine with 64 KiB at `0x10000` and a reserved region below it. -/
def smallMap : List MmapEntry := [⟨0, 0x10000, .reserved⟩, ⟨0x10000, 0x10000, .usable⟩]

/-- The bitmap takes frame 16, so frame 17 is the first to be handed out. -/
theorem frame_allocator_small : ∃ p, pmmInit smallMap (fun _ => 0) = some p ∧
    (pmmAllocFrame p).2 = 0x11000 ∧ p.freeFrames = 15 ∧
    p.freeFrames = (Bitmap.clearBits p.bitmap p.totalFrames).card := by
  have hok : MmapOk smallMap := by
    refine ⟨by decide, by decide, by decide, by decide⟩
  have hsome : (pmmInit smallMap fun _ => 0).isSome = true := by decide +kernel
  obtain ⟨p, hp⟩ := Option.isSome_iff_exists.mp hsome
  have hvals : ((pmmInit smallMap fun _ => 0).map fun p => ((pmmAllocFrame p).2, p.freeFrames)) =
      some (0x11000, 15) := by decide +kernel
  rw [hp] at hvals
  obtain ⟨h₁, h₂⟩ := Prod.mk.inj (Option.some.inj hvals)
  exact ⟨p, hp, h₁, h₂, (frame_allocator hok hp (.init rfl)).1⟩

end VoidOS.Pmm
