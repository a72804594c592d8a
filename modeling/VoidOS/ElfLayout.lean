import VoidOS.ElfValidate

namespace VoidOS.Elf

/-- The unreduced interval of user addresses a segment asks for. -/
def Phdr.start (base : ℕ) (ph : Phdr) : ℕ := ph.pVaddr + base
def Phdr.stop (base : ℕ) (ph : Phdr) : ℕ := ph.pVaddr + base + ph.pMemsz

/-- What an accepted image promises about its segments, over unreduced integers. -/
structure LayoutSound (img : Image) : Prop where
  within : ∀ ph ∈ img.loads, userMinVaddr ≤ ph.start (loadBase img.ehdr) ∧
    ph.stop (loadBase img.ehdr) ≤ userMaxVaddr
  off_stack : ∀ ph ∈ img.loads, userStackTop ≤ ph.start (loadBase img.ehdr) ∨
    ph.stop (loadBase img.ehdr) ≤ userStackTop - userStackSize
  disjoint : img.loads.Pairwise fun a b =>
    b.stop (loadBase img.ehdr) ≤ a.start (loadBase img.ehdr) ∨
      a.stop (loadBase img.ehdr) ≤ b.start (loadBase img.ehdr)
  readable : ∀ ph ∈ img.loads, ph.read ∧ ¬ (ph.write ∧ ph.exec)
  file : ∀ ph ∈ img.loads, ph.pFilesz ≤ ph.pMemsz ∧ ph.pOffset + ph.pFilesz ≤ img.size
  aligned : ∀ ph ∈ img.loads, 1 < ph.pAlign → ph.pOffset ≡ ph.pVaddr [MOD ph.pAlign]
  entry : ∃ ph ∈ img.loads, ph.exec ∧
    ph.start (loadBase img.ehdr) ≤ img.ehdr.eEntry + loadBase img.ehdr ∧
    img.ehdr.eEntry + loadBase img.ehdr < ph.stop (loadBase img.ehdr)

def EntryIn (entry : ℕ) (ph : Phdr) : Prop :=
  ph.exec ∧ ph.pVaddr ≤ entry ∧ entry < (ph.pVaddr + ph.pMemsz) % 2 ^ 64

/-- Everything one iteration does: a segment that is not loaded leaves the range
table and the entry flag alone, a loaded one passed every check and is appended. -/
theorem scanPhdr_cases {size base entry : ℕ} {st st' : Scan} {ph : Phdr}
    (h : scanPhdr size base entry st ph = some st') :
    (ph.isLoad = false ∧ st'.seen = st.seen ∧ st'.entryOk = st.entryOk) ∨
    (ph.isLoad = true ∧ LoadOk size base ph ∧
      (∀ s ∈ st.seen, ¬ Collides (ph.vaddr base, ph.vend base) s) ∧
      st'.seen = st.seen ++ [(ph.vaddr base, ph.vend base)] ∧
      (st'.entryOk = true ↔ st.entryOk = true ∨ EntryIn entry ph)) := by
  unfold scanPhdr at h
  by_cases hi : ph.pType = ptInterp
  · left
    rw [if_pos hi] at h
    split_ifs at h
    cases h
    simp [Phdr.isLoad, hi, ptInterp, ptLoad]
  rw [if_neg hi] at h
  by_cases hd : ph.pType = ptDynamic
  · rw [if_pos hd] at h
    cases h
    simp [Phdr.isLoad, hd, ptDynamic, ptLoad]
  rw [if_neg hd] at h
  by_cases hl : ph.pType = ptLoad
  · rw [if_neg (not_not.mpr hl)] at h
    by_cases hm : ph.pMemsz = 0
    · rw [if_pos hm] at h
      cases h
      simp [Phdr.isLoad, hm]
    · right
      rw [if_neg hm] at h
      split_ifs at h with hn hok hc
      cases h
      refine ⟨by simp [Phdr.isLoad, hl, hm], hok, ?_, rfl, ?_⟩
      · intro s hs hcs
        exact hc ⟨s, hs, hcs⟩
      · simp [EntryIn, and_assoc]
  · rw [if_pos hl] at h
    cases h
    simp [Phdr.isLoad, hl]

/-- The loop over a whole table: the loaded segments pass their own checks, their
ranges are appended in order, no two ranges collide, and the entry flag records a hit. -/
theorem scanPhdrs_spec {size base entry : ℕ} {st st' : Scan} {phs : List Phdr}
    (h : scanPhdrs size base entry st phs = some st') :
    st'.seen = st.seen ++ (phs.filter Phdr.isLoad).map (fun ph => (ph.vaddr base, ph.vend base)) ∧
    (∀ ph ∈ phs.filter Phdr.isLoad, LoadOk size base ph ∧
      ∀ s ∈ st.seen, ¬ Collides (ph.vaddr base, ph.vend base) s) ∧
    ((phs.filter Phdr.isLoad).Pairwise fun a b =>
      ¬ Collides (b.vaddr base, b.vend base) (a.vaddr base, a.vend base)) ∧
    (st'.entryOk = true ↔ st.entryOk = true ∨ ∃ ph ∈ phs.filter Phdr.isLoad, EntryIn entry ph) := by
  induction phs generalizing st with
  | nil =>
    cases h
    simp
  | cons ph phs ih =>
    rw [scanPhdrs] at h
    split at h
    · cases h
    · rename_i st₁ hstep
      obtain ⟨hseen, hok, hpair, hentry⟩ := ih h
      rcases scanPhdr_cases hstep with ⟨hl, hs, he⟩ | ⟨hl, hlok, hcol, hs, he⟩
      · rw [List.filter_cons_of_neg (by simp [hl])]
        rw [hs] at hseen hok
        rw [he] at hentry
        exact ⟨hseen, hok, hpair, hentry⟩
      · rw [List.filter_cons_of_pos (by simp [hl])]
        rw [hs] at hseen hok
        refine ⟨by simp [hseen], ?_, ?_, ?_⟩
        · intro q hq
          rcases List.mem_cons.mp hq with rfl | hq
          · exact ⟨hlok, hcol⟩
          · refine ⟨(hok q hq).1, fun s hms => (hok q hq).2 s ?_⟩
            exact List.mem_append_left _ hms
        · refine List.pairwise_cons.mpr ⟨fun q hq => ?_, hpair⟩
          exact (hok q hq).2 _ (List.mem_append_right _ (List.mem_singleton.mpr rfl))
        · rw [hentry, he]
          simp only [List.mem_cons, exists_eq_or_imp]
          tauto

/-- What `ELF_OK` means for the fields of the image and of the loader context. -/
theorem elfValidate_spec {img : Image} {ctx : ElfLoader} (h : elfValidate img = .ok ctx) :
    HeaderOk img ∧ ctx.image = img ∧ ctx.entry = img.ehdr.eEntry ∧ ctx.base = loadBase img.ehdr ∧
    (∀ ph ∈ img.loads, LoadOk img.size (loadBase img.ehdr) ph) ∧
    (img.loads.Pairwise fun a b =>
      ¬ Collides (b.vaddr (loadBase img.ehdr), b.vend (loadBase img.ehdr))
        (a.vaddr (loadBase img.ehdr), a.vend (loadBase img.ehdr))) ∧
    ∃ ph ∈ img.loads, EntryIn img.ehdr.eEntry ph := by
  unfold elfValidate at h
  by_cases hh : HeaderOk img
  · simp only [hh, not_true_eq_false, ↓reduceIte] at h
    split at h
    · cases h
    · rename_i st hscan
      split_ifs at h with hn he
      cases h
      obtain ⟨-, hok, hpair, hentry⟩ := scanPhdrs_spec hscan
      have hex := hentry.mp (by simpa using he)
      simp only [Bool.false_eq_true, false_or] at hex
      exact ⟨hh, rfl, rfl, rfl, fun ph hp => (hok ph hp).1, hpair, hex⟩
  · simp [hh] at h

/-- A nonzero alignment that passes the bit test is a power of two, so masking is reduction. -/
theorem align_congruence {a v o : ℕ} (ha : 1 < a) (hp : a &&& (a - 1) = 0)
    (he : v &&& (a - 1) = o &&& (a - 1)) : o ≡ v [MOD a] := by
  obtain ⟨k, rfl⟩ := (Nat.and_sub_one_eq_zero_iff_isPowerOfTwo (by omega)).mp hp
  rw [Nat.and_two_pow_sub_one_eq_mod, Nat.and_two_pow_sub_one_eq_mod] at he
  exact he.symm

/-- When the biased end does not wrap, the 64-bit sums are the unreduced ones. -/
theorem Phdr.reduced_eq {base : ℕ} {ph : Phdr} (h : ph.stop base < 2 ^ 64) :
    ph.vaddr base = ph.start base ∧ ph.vend base = ph.stop base := by
  unfold Phdr.stop at h
  unfold Phdr.vend Phdr.vaddr Phdr.start Phdr.stop
  constructor <;> omega

/-- Under the wrap condition the loop's modular facts are the promised ones. -/
theorem layoutSound_of_no_wrap {img : Image} {ctx : ElfLoader} (h : elfValidate img = .ok ctx)
    (hw : ∀ ph ∈ img.loads, ph.stop (loadBase img.ehdr) < 2 ^ 64) : LayoutSound img := by
  obtain ⟨-, -, -, -, hok, hpair, ph₀, hph₀, hx, hlo, hhi⟩ := elfValidate_spec h
  have hred := fun ph hp => Phdr.reduced_eq (hw ph hp)
  constructor
  · intro ph hp
    obtain ⟨-, -, -, -, -, hmin, hmax, -⟩ := hok ph hp
    rw [(hred ph hp).1] at hmin
    rw [(hred ph hp).2] at hmax
    exact ⟨hmin, hmax⟩
  · intro ph hp
    obtain ⟨-, -, -, -, -, -, -, -, -, -, hst⟩ := hok ph hp
    rw [(hred ph hp).1, (hred ph hp).2] at hst
    omega
  · refine hpair.imp_of_mem fun {a b} ha hb hc => ?_
    unfold Collides at hc
    dsimp only at hc
    rw [(hred a ha).1, (hred a ha).2, (hred b hb).1, (hred b hb).2] at hc
    omega
  · intro ph hp
    obtain ⟨-, -, -, -, -, -, -, hr, hwx, -⟩ := hok ph hp
    exact ⟨hr, hwx⟩
  · intro ph hp
    obtain ⟨hfm, hos, hfs, -⟩ := hok ph hp
    exact ⟨hfm, by omega⟩
  · intro ph hp ha
    obtain ⟨-, -, -, -, -, -, -, -, -, hal, -⟩ := hok ph hp
    exact align_congruence ha (hal ha).1 (hal ha).2
  · refine ⟨ph₀, hph₀, hx, by unfold Phdr.start; omega, ?_⟩
    have hle := Nat.mod_le (ph₀.pVaddr + ph₀.pMemsz) (2 ^ 64)
    unfold Phdr.stop
    omega

/-- An accepted image keeps every promise of `LayoutSound` exactly when the biased
end of no loaded segment wraps: the code tests the wrap on the unbiased address only. -/
theorem elfValidate_layoutSound_iff (img : Image) (ctx : ElfLoader)
    (h : elfValidate img = .ok ctx) :
    LayoutSound img ↔
      ∀ ph ∈ img.loads, ph.pVaddr + loadBase img.ehdr + ph.pMemsz < 2 ^ 64 := by
  constructor
  · intro hs ph hp
    have hmax := (hs.within ph hp).2
    unfold Phdr.stop userMaxVaddr at hmax
    omega
  · exact layoutSound_of_no_wrap h

theorem accepted_of_isSome {img : Image} (h : (elfValidate img).toOption.isSome = true) :
    ∃ ctx, elfValidate img = .ok ctx := by
  cases he : elfValidate img with
  | error e => simp [he, Except.toOption] at h
  | ok ctx => exact ⟨ctx, rfl⟩

def leBytes : ℕ → ℕ → List UInt8
  | 0, _ => []
  | n + 1, v => UInt8.ofNat (v % 256) :: leBytes n (v / 256)

/-- The 120 bytes of an `ET_DYN` image with one readable and executable segment. -/
def dynImageBytes (entry vaddr memsz : ℕ) : List UInt8 :=
  [0x7F, 0x45, 0x4C, 0x46, 2, 1, 1] ++ List.replicate 9 0 ++
  leBytes 2 etDyn ++ leBytes 2 62 ++ leBytes 4 1 ++ leBytes 8 entry ++ leBytes 8 ehdrSize ++
  leBytes 8 0 ++ leBytes 4 0 ++ leBytes 2 ehdrSize ++ leBytes 2 phdrSize ++ leBytes 2 1 ++
  leBytes 6 0 ++ leBytes 4 ptLoad ++ leBytes 4 5 ++ leBytes 8 0 ++ leBytes 8 vaddr ++
  leBytes 8 0 ++ leBytes 8 0 ++ leBytes 8 memsz ++ leBytes 8 0

def plainImage : Image := ⟨dynImageBytes 0x1000 0x1000 0x1000, by decide⟩

/-- `p_vaddr + p_memsz` fits 64 bits, but adding the load base wraps the end to 0. -/
def wrappedImage : Image := ⟨dynImageBytes 0 0 0xFFFFFFFFC0000000, by decide⟩

set_option maxRecDepth 20000 in
theorem plainImage_layoutSound : LayoutSound plainImage := by
  have hacc : (elfValidate plainImage).toOption.isSome = true := by decide
  obtain ⟨ctx, h⟩ := accepted_of_isSome hacc
  exact (elfValidate_layoutSound_iff plainImage ctx h).mpr (by decide)

set_option maxRecDepth 20000 in
theorem wrappedImage_accepted_unsound :
    (∃ ctx, elfValidate wrappedImage = .ok ctx) ∧ ¬ LayoutSound wrappedImage := by
  refine ⟨accepted_of_isSome (by decide), fun hs => ?_⟩
  have hmax : ∀ ph ∈ wrappedImage.loads, ph.stop (loadBase wrappedImage.ehdr) ≤ userMaxVaddr :=
    fun ph hp => (hs.within ph hp).2
  revert hmax
  decide

end VoidOS.Elf
