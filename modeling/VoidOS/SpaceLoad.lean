import VoidOS.ElfLayout
import VoidOS.ElfLoad
import VoidOS.SpaceOps

namespace VoidOS.Mm

open ByteMem PageTree Ownership

section Stores

variable {ph ph' : Phys} {sp sp' : Space} {v f a o n i flags virt w : ℕ} {b : Bool} {m : Mem}
  {bytes code : List UInt8}

theorem SpaceOk.phys_of_present (h : SpaceOk ph sp) (hv : v < userLimit)
    (hp : present (leaf ph.ram sp.cr3 v) = true) : ∃ f ∈ sp.data,
      addr (leaf ph.ram sp.cr3 v) = f * pageSize ∧
      vmmVirtToPhys ph.ram sp.cr3 v = f * pageSize + v % pageSize ∧
      vmmVirtToPhys ph.ram sp.cr3 v ≠ 0 := by
  obtain ⟨e, he, -, hphys⟩ := h.recorded v hv hp
  obtain ⟨f, -, -, hf, -⟩ := h.frame e he
  have heq : vmmVirtToPhys ph.ram sp.cr3 v = f * pageSize + v % pageSize := by
    rw [vmmVirtToPhys_eq (h.tree.noHuge (userPlaces_indices hv)), if_pos hp, ← hphys, hf]
    exact or_eq_add (Nat.mul_mod_left f (2 ^ 12)) (Nat.mod_lt _ (by norm_num))
  refine ⟨f, ⟨e, he, hf⟩, hphys ▸ hf, heq, fun hc => ?_⟩
  have hf0 : f = 0 := by
    rw [heq] at hc
    unfold pageSize at hc
    omega
  exact h.zero (Or.inr ⟨e, he, hf0 ▸ hf⟩)

theorem SpaceOk.virtToPhys (h : SpaceOk ph sp) (hv : v < userLimit)
    (hne : vmmVirtToPhys ph.ram sp.cr3 v ≠ 0) :
    ∃ f ∈ sp.data, vmmVirtToPhys ph.ram sp.cr3 v = f * pageSize + v % pageSize := by
  have hp : present (leaf ph.ram sp.cr3 v) = true := by
    by_contra hc
    rw [vmmVirtToPhys_eq (h.tree.noHuge (userPlaces_indices hv)), if_neg hc] at hne
    exact hne rfl
  obtain ⟨f, hf, -, heq, -⟩ := h.phys_of_present hv hp
  exact ⟨f, hf, heq⟩

theorem blit_page (ho : o + bytes.length ≤ pageSize) {x : ℕ} (hx : x / pageSize ≠ f) :
    blit m (f * pageSize + o) bytes x = m x := by
  apply blit_apply
  by_contra hc
  exact hx (div_page (by omega) (by omega))

theorem SpaceOk.blit (h : SpaceOk ph sp) (hf : f ∈ sp.data) (o : ℕ) (bytes : List UInt8)
    (ho : o + bytes.length ≤ pageSize) :
    Acts ph sp { ph with ram := ByteMem.blit ph.ram (f * pageSize + o) bytes } sp := by
  apply h.write
  intro x hx
  exact blit_page ho fun hc => hx (hc ▸ hf)

theorem remap_acts (h : SpaceOk ph sp) (hv : virt < userLimit)
    (hpres : present (leaf ph.ram sp.cr3 virt) = true) (hflags : flags < 2 ^ 64)
    (haddr : addr (addr w ||| flags) = addr (leaf ph.ram sp.cr3 virt))
    (hr : vmmMapPage ph sp.cr3 virt w flags = (ph', b)) : Acts ph sp ph' sp := by
  obtain ⟨L, e, hL⟩ : ∃ L, Edit sp.cr3 UserPlaces ph ph' L ∧ ∀ v < userLimit,
      present (L v) = true → ∃ u < userLimit, u / pageSize = v / pageSize ∧
        present (leaf ph.ram sp.cr3 u) = true ∧ addr (L v) = addr (leaf ph.ram sp.cr3 u) := by
    rcases vmmMapPage_edit h.phys h.tree (userPlaces_indices hv) (entry_word_lt hflags) hr with
      ⟨-, e⟩ | ⟨-, e⟩
    · exact ⟨_, e, fun v hv' hp => ⟨v, hv', rfl, hp, rfl⟩⟩
    · refine ⟨_, e, fun v hv' hp => ?_⟩
      by_cases he : indices v = indices virt
      · simp only [he, if_true] at hp ⊢
        exact ⟨virt, hv, ((indices_user hv' hv).mp he).symm, hpres, haddr⟩
      · simp only [he, if_false] at hp ⊢
        exact ⟨v, hv', rfl, hp, rfl⟩
  have hown := e.own.frame h.data_subset h.data_disjoint
  have hapart := e.own.frame_disjoint h.data_subset h.data_disjoint
  apply h.acts rfl e.total e.tree hown h.nodup _ h.virt h.length h.perm e.upper
  · intro v hv' hp
    rw [e.leaf v (userPlaces_indices hv')] at hp ⊢
    obtain ⟨u, hu, hpage, hpu, hau⟩ := hL v hv' hp
    obtain ⟨e', he', h₁, h₂⟩ := h.recorded u hu hpu
    exact ⟨e', he', h₁.trans hpage, h₂.trans hau.symm⟩
  · intro e' he'
    obtain ⟨g, hg, -, hp, -⟩ := h.frame e' he'
    exact ⟨g, hg, hp, Set.disjoint_left.mp hapart ⟨e', he', hp⟩⟩

theorem loadCode_acts (h : SpaceOk ph sp) (hr : loadCode code n i ph sp = (ph', sp', b)) :
    Acts ph sp ph' sp' := by
  induction n generalizing i ph sp with
  | zero =>
    cases hr
    exact .refl h
  | succ n ih =>
    have hflags : PageFlags 0 := ⟨by decide, by decide⟩
    rw [loadCode] at hr
    dsimp only at hr
    split at hr
    · rename_i hp
      cases hr
      exact (processAllocUserPage_spec h hflags hp).1
    · rename_i ph₁ sp₁ hp
      obtain ⟨hacts, -, hcase⟩ := processAllocUserPage_spec h hflags hp
      rcases hcase with ⟨hc, -⟩ | ⟨-, hlt, -, f, hf, hsp, hleaf, -⟩
      · cases hc
      -- the page that has just been mapped
      have hpres : present (leaf ph₁.ram sp₁.cr3 (userCodeBase + i * pageSize)) = true := by
        rw [hacts.cr3, hleaf _ hlt, if_pos rfl,
          present_or (show f * pageSize % 4096 = 0 from Nat.mul_mod_left f 4096)]
        decide
      obtain ⟨g, hg, -, hphys, -⟩ := hacts.ok.phys_of_present hlt hpres
      rw [show (userCodeBase + i * pageSize) % pageSize = 0 by unfold userCodeBase pageSize; omega]
        at hphys
      rw [hphys] at hr
      have hchunk : 0 + ((code.drop (i * pageSize)).take pageSize).length ≤ pageSize := by
        rw [zero_add]
        exact List.length_take_le _ _
      have hwrite := hacts.ok.blit hg _ _ hchunk
      exact hacts.trans (hwrite.trans (ih hwrite.ok hr))

end Stores

end VoidOS.Mm

namespace VoidOS.Elf

open ByteMem PageTree Mm

/-- A segment that lies in the lower half, by the sums the loader computes. -/
structure Phdr.InUser (base : ℕ) (seg : Phdr) : Prop where
  vend : seg.vend base = seg.vaddr base + seg.pMemsz
  limit : seg.vaddr base + seg.pMemsz ≤ userLimit
  memsz : 0 < seg.pMemsz
  filesz : seg.pFilesz ≤ seg.pMemsz

def Image.NoWrap (img : Image) : Prop := ∀ seg ∈ img.loads, seg.stop (loadBase img.ehdr) < 2 ^ 64

/-- If the image is accepted, its segments do not wrap. -/
def Image.Fits (img : Image) : Prop := ∀ ctx, elfValidate img = .ok ctx → img.NoWrap

section Load

variable {ph ph' : Phys} {sp sp' : Space} {img : Image} {ctx : ElfLoader} {seg : Phdr}
  {segs : List Phdr} {nxOk : Bool} {base va n fuel done flags a x : ℕ} {st : ElfStatus}
  {m m' : Mem} {ws : List ℕ} {blobs : Blobs} {path : List UInt8}

theorem Image.NoWrap.inUser (hw : img.NoWrap) (hv : elfValidate img = .ok ctx)
    (hseg : seg ∈ ctx.image.loads) : seg.InUser ctx.base := by
  obtain ⟨-, himg, -, hbase, hload, -⟩ := elfValidate_spec hv
  rw [himg] at hseg
  rw [hbase]
  obtain ⟨hstart, hstop⟩ := Phdr.reduced_eq (hw seg hseg)
  have hlayout := (layoutSound_of_no_wrap hv hw).within seg hseg
  have hmem : seg.isLoad = true := (List.mem_filter.mp hseg).2
  refine ⟨?_, ?_, ?_, (hload seg hseg).1⟩
  · rw [hstart, hstop]
    rfl
  · rw [hstart]
    exact hlayout.2
  · unfold Phdr.isLoad at hmem
    simp only [Bool.and_eq_true, decide_eq_true_eq] at hmem
    exact Nat.pos_of_ne_zero hmem.2

theorem addr_or_distrib (a b : ℕ) : addr (a ||| b) = addr a ||| addr b := Nat.and_or_distrib_right ..

theorem addr_mergedFlags (pte flags : ℕ) :
    mergedFlags pte flags < 2 ^ 64 ∧ addr (mergedFlags pte flags) = addr pte := by
  unfold mergedFlags
  have hw : PageFlags (if writable pte || writable flags then vmmWrite else 0) :=
    pageFlags_ite pageFlags_write
  have hn : PageFlags (if noExec pte && noExec flags then vmmNx else 0) :=
    pageFlags_ite pageFlags_nx
  constructor
  · apply Nat.or_lt_two_pow (Nat.or_lt_two_pow _ hw.1) hn.1
    exact lt_of_le_of_lt Nat.and_le_right (by norm_num)
  · rw [addr_or_distrib, addr_or_distrib, hw.2, hn.2, Nat.or_zero, Nat.or_zero]
    unfold addr
    rw [Nat.and_assoc]
    congr 1

theorem mapSegmentPage_acts (h : SpaceOk ph sp) (hv : va < userLimit) (hflags : PageFlags flags)
    (hr : mapSegmentPage nxOk ph sp flags va = (ph', sp', st)) : Acts ph sp ph' sp' := by
  have hpte := vmmGetPte_eq (h.tree.noHuge (userPlaces_indices hv))
  unfold mapSegmentPage at hr
  dsimp only at hr
  rw [hpte] at hr
  split at hr
  · split at hr
    · rename_i hp
      cases hr
      exact (processAllocUserPage_spec h hflags hp).1
    · rename_i hp
      cases hr
      exact (processAllocUserPage_spec h hflags hp).1
  · rename_i hpres
    rw [Bool.not_eq_true', Bool.not_eq_false] at hpres
    split at hr
    · cases hr
      exact .refl h
    · obtain ⟨hlt, haddr⟩ := addr_mergedFlags (leaf ph.ram sp.cr3 va) flags
      have hword : mergedFlags (leaf ph.ram sp.cr3 va) flags ||| vmmPresent ||| vmmUser < 2 ^ 64 :=
        Nat.or_lt_two_pow (Nat.or_lt_two_pow hlt (by decide)) (by decide)
      have hself : addr (addr (addr (leaf ph.ram sp.cr3 va)) |||
          (mergedFlags (leaf ph.ram sp.cr3 va) flags ||| vmmPresent ||| vmmUser)) =
          addr (leaf ph.ram sp.cr3 va) := by
        have hidem : addr (addr (leaf ph.ram sp.cr3 va)) = addr (leaf ph.ram sp.cr3 va) :=
          addr_of_aligned (addr_mod _) (addr_lt _)
        rw [addr_or_distrib, addr_or_distrib, addr_or_distrib, haddr, hidem, hidem,
          show addr vmmPresent = 0 by decide, show addr vmmUser = 0 by decide, Nat.or_zero,
          Nat.or_zero, Nat.or_self]
      split at hr
      · rename_i hmap
        cases hr
        exact remap_acts h hv hpres hword hself hmap
      · rename_i hmap
        cases hr
        exact remap_acts h hv hpres hword hself hmap

theorem mapPagesFrom_acts (h : SpaceOk ph sp) (hv : ∀ k < n, va + k * pageSize < userLimit)
    (hflags : PageFlags flags) (hr : mapPagesFrom nxOk flags n va ph sp = (ph', sp', st)) :
    Acts ph sp ph' sp' := by
  induction n generalizing va ph sp with
  | zero =>
    cases hr
    exact .refl h
  | succ n ih =>
    have h0 : va < userLimit := by simpa using hv 0 (by omega)
    rw [mapPagesFrom] at hr
    split at hr
    · rename_i hp
      have hacts := mapSegmentPage_acts h h0 hflags hp
      have hva : add64 va pageSize = va + pageSize := by
        apply add64_of_lt
        unfold userLimit at h0
        unfold pageSize
        omega
      rw [hva] at hr
      refine hacts.trans (ih hacts.ok (fun k hk => ?_) hr)
      rw [show va + pageSize + k * pageSize = va + (k + 1) * pageSize by ring]
      exact hv (k + 1) (by omega)
    · rename_i hp
      cases hr
      exact mapSegmentPage_acts h h0 hflags hp

theorem mapSegmentPages_acts (h : SpaceOk ph sp) (hseg : seg.InUser base)
    (hr : mapSegmentPages nxOk base seg ph sp = (ph', sp', st)) : Acts ph sp ph' sp' := by
  unfold mapSegmentPages at hr
  dsimp only at hr
  have hlim := hseg.limit
  have hpos := hseg.memsz
  have hlast : sub64 (seg.vend base) 1 = seg.vaddr base + seg.pMemsz - 1 := by
    rw [hseg.vend]
    apply sub64_of_le (by omega)
    unfold userLimit at hlim
    omega
  rw [hlast] at hr
  refine mapPagesFrom_acts h (fun k hk => ?_)
    ((pageFlags_ite pageFlags_write).or (pageFlags_ite pageFlags_nx)) hr
  unfold pageDown userLimit pageSize at *
  split at hk
  · omega
  · omega

theorem copySegmentFrom_acts (h : SpaceOk ph sp) (hseg : seg.InUser base)
    (hr : copySegmentFrom img base seg sp.cr3 fuel done ph.ram = (m', st)) :
    Acts ph sp { ph with ram := m' } sp := by
  induction fuel generalizing ph done with
  | zero =>
    cases hr
    exact .refl h
  | succ fuel ih =>
    rw [copySegmentFrom] at hr
    dsimp only at hr
    split at hr
    · cases hr
      exact .refl h
    rename_i hdone
    have hlim := hseg.limit
    have hfs := hseg.filesz
    have hva : add64 (seg.vaddr base) done = seg.vaddr base + done := by
      apply add64_of_lt
      unfold userLimit at hlim
      omega
    have hlt : seg.vaddr base + done < userLimit := by omega
    rw [hva] at hr
    split at hr
    · cases hr
      exact .refl h
    rename_i hne
    obtain ⟨f, hf, hphys⟩ := h.virtToPhys hlt hne
    rw [hphys] at hr
    have hwrite := h.blit hf ((seg.vaddr base + done) % pageSize)
      ((img.bytes.drop (seg.pOffset + done)).take
        (min (pageSize - (seg.vaddr base + done) % pageSize) (seg.pFilesz - done))) (by
        rw [List.length_take]
        have := Nat.mod_lt (seg.vaddr base + done) (show 0 < pageSize by decide)
        omega)
    exact hwrite.trans (ih hwrite.ok hr)

theorem copySegmentData_acts (h : SpaceOk ph sp) (hseg : seg.InUser base)
    (hr : copySegmentData img base seg ph sp = (ph', sp', st)) : Acts ph sp ph' sp' := by
  unfold copySegmentData at hr
  cases hr
  exact copySegmentFrom_acts h hseg Prod.mk.eta.symm

theorem forSegments_acts {f : Phdr → Phys → Space → Phys × Space × ElfStatus} (h : SpaceOk ph sp)
    (hf : ∀ seg ∈ segs, ∀ ph sp ph' sp' st, SpaceOk ph sp → f seg ph sp = (ph', sp', st) →
      Acts ph sp ph' sp') (hr : forSegments f segs ph sp = (ph', sp', st)) :
    Acts ph sp ph' sp' := by
  induction segs generalizing ph sp with
  | nil =>
    cases hr
    exact .refl h
  | cons seg segs ih =>
    rw [forSegments] at hr
    split at hr
    · rename_i hs
      have hacts := hf seg (List.mem_cons_self ..) _ _ _ _ _ h hs
      exact hacts.trans (ih hacts.ok (fun s hs => hf s (List.mem_cons_of_mem _ hs)) hr)
    · rename_i hs
      cases hr
      exact hf seg (List.mem_cons_self ..) _ _ _ _ _ h hs

theorem elfLoadSegmentsOnly_acts (h : SpaceOk ph sp)
    (hseg : ∀ seg ∈ ctx.image.loads, seg.InUser ctx.base)
    (hr : elfLoadSegmentsOnly nxOk ctx ph sp = (ph', sp', st)) : Acts ph sp ph' sp' := by
  unfold elfLoadSegmentsOnly at hr
  split at hr
  · rename_i hs
    have hacts := forSegments_acts h
      (fun seg hm _ _ _ _ _ h hr => mapSegmentPages_acts h (hseg seg hm) hr) hs
    exact hacts.trans (forSegments_acts hacts.ok
      (fun seg hm _ _ _ _ _ h hr => copySegmentData_acts h (hseg seg hm) hr) hr)
  · rename_i hs
    cases hr
    exact forSegments_acts h
      (fun seg hm _ _ _ _ _ h hr => mapSegmentPages_acts h (hseg seg hm) hr) hs

theorem storeWords_apply (hx : x < a ∨ a + 8 * ws.length ≤ x) : storeWords m a ws x = m x := by
  induction ws generalizing m a with
  | nil => rfl
  | cons w ws ih =>
    rw [List.length_cons] at hx
    rw [storeWords, ih (by omega), setWord_apply (by omega)]

theorem setupUserStack_acts {r : Except ElfStatus ℕ} (h : SpaceOk ph sp)
    (hr : setupUserStack nxOk ctx ph sp = (ph', sp', r)) : Acts ph sp ph' sp' := by
  unfold setupUserStack at hr
  dsimp only at hr
  have hflags : PageFlags (vmmWrite ||| if nxOk then vmmNx else 0) :=
    pageFlags_write.or (pageFlags_ite pageFlags_nx)
  split at hr
  · rename_i hp
    cases hr
    exact allocPages_acts h hflags hp
  rename_i ph₁ sp₁ hp
  have hacts := allocPages_acts h hflags hp
  split at hr
  · cases hr
    exact hacts
  rename_i hne
  -- `argv[0]` and the frame lie in the last page of the stack
  obtain ⟨f, hf, hphys⟩ := hacts.ok.virtToPhys (show argv0Addr < userLimit by decide) hne
  rw [hphys] at hr
  have hwrite := hacts.ok.blit hf (argv0Addr % pageSize) argv0 (by decide)
  split at hr
  · cases hr
    exact hacts.trans hwrite
  rename_i hne'
  obtain ⟨g, hg, hphys'⟩ := hwrite.ok.virtToPhys (show initialRsp < userLimit by decide) hne'
  cases hr
  apply hacts.trans
  apply hwrite.trans
  apply hwrite.ok.write
  intro x hx
  rw [show vmmVirtToPhys _ sp'.cr3 initialRsp = g * pageSize + initialRsp % pageSize from hphys']
  apply storeWords_apply
  by_contra hc
  apply hx
  rw [div_page (f := g)]
  · exact hg
  · omega
  · rw [show initialRsp % pageSize = 3952 by decide,
      show (initialFrame ctx).length = 18 from rfl] at hc
    unfold pageSize at *
    omega

theorem elfFindEmbedded_mem {name : List UInt8} (h : elfFindEmbedded blobs name = .ok img) :
    ∃ b ∈ blobs, b.2 = img := by
  unfold elfFindEmbedded at h
  split at h
  · cases h
  · rename_i b hb
    cases h
    exact ⟨b, List.mem_of_find?_eq_some hb, rfl⟩

theorem elfLoadInterp_acts {r : Except ElfStatus ℕ} (h : SpaceOk ph sp)
    (hblobs : ∀ b ∈ blobs, b.2.Fits)
    (hr : elfLoadInterp nxOk blobs path ph sp = (ph', sp', r)) : Acts ph sp ph' sp' := by
  unfold elfLoadInterp at hr
  split at hr
  · cases hr
    exact .refl h
  rename_i img himg
  obtain ⟨b, hb, rfl⟩ := elfFindEmbedded_mem himg
  split at hr
  · cases hr
    exact .refl h
  rename_i ic hic
  split at hr
  · cases hr
    exact .refl h
  have hseg : ∀ seg ∈ ic.image.loads, seg.InUser ic.base :=
    fun seg hs => (hblobs b hb ic hic).inUser hic hs
  split at hr
  · rename_i hl
    cases hr
    exact elfLoadSegmentsOnly_acts h hseg hl
  · rename_i hl
    cases hr
    exact elfLoadSegmentsOnly_acts h hseg hl

theorem elfLoadIntoProcess_acts {r : Except ElfStatus (ℕ × ℕ)} (h : SpaceOk ph sp)
    (hseg : ∀ seg ∈ ctx.image.loads, seg.InUser ctx.base)
    (hr : elfLoadIntoProcess nxOk ctx ph sp = (ph', sp', r)) : Acts ph sp ph' sp' := by
  unfold elfLoadIntoProcess at hr
  split at hr
  · rename_i hl
    have hacts := elfLoadSegmentsOnly_acts h hseg hl
    split at hr
    · rename_i hs
      cases hr
      exact hacts.trans (setupUserStack_acts hacts.ok hs)
    · rename_i hs
      cases hr
      exact hacts.trans (setupUserStack_acts hacts.ok hs)
  · rename_i hl
    cases hr
    exact elfLoadSegmentsOnly_acts h hseg hl

theorem elfLoadAll_acts {r : Except ElfStatus (ℕ × ℕ)} (h : SpaceOk ph sp)
    (hseg : ∀ seg ∈ ctx.image.loads, seg.InUser ctx.base) (hblobs : ∀ b ∈ blobs, b.2.Fits)
    (hr : elfLoadAll nxOk blobs ctx ph sp = (ph', sp', r)) : Acts ph sp ph' sp' := by
  unfold elfLoadAll at hr
  split at hr
  · rename_i hl
    cases hr
    exact elfLoadIntoProcess_acts h hseg hl
  rename_i hl
  have hacts := elfLoadIntoProcess_acts h hseg hl
  split at hr
  · cases hr
    exact hacts.trans (brkInit_acts hacts.ok _ _)
  split at hr
  · rename_i hi
    cases hr
    exact hacts.trans (elfLoadInterp_acts hacts.ok hblobs hi)
  · rename_i hi
    cases hr
    have hacts' := hacts.trans (elfLoadInterp_acts hacts.ok hblobs hi)
    exact hacts'.trans (brkInit_acts hacts'.ok _ _)

end Load

end VoidOS.Elf
