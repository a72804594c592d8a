import VoidOS.SpaceOps

namespace VoidOS.Mm

open ByteMem PageTree Ownership

/-- The entries `es` have been released: their pages are unmapped, their frames free and they are
off the record. -/
structure Released (ph : Phys) (sp : Space) (ph' : Phys) (sp' : Space) (es : List Mapping) :
    Prop where
  acts : Acts ph sp ph' sp'
  record : sp.umap.Perm (es ++ sp'.umap)
  leaf : ∀ v < userLimit, leaf ph'.ram sp.cr3 v =
    if (∃ e ∈ es, e.virt / pageSize = v / pageSize) ∧ present (leaf ph.ram sp.cr3 v) = true then 0
    else leaf ph.ram sp.cr3 v
  used : ∀ f, ph'.used f = true ↔ ph.used f = true ∧ ∀ e ∈ es, e.phys ≠ f * pageSize
  same : SameOn pageSize sp'.data ph.ram ph'.ram

/-- The pages at the addresses in `V`, and no other page of the process, are unmapped, their frames
free and their entries off the record. -/
structure FreesExactly (ph : Phys) (sp : Space) (ph' : Phys) (sp' : Space) (V : ℕ → Prop)
    [DecidablePred V] : Prop where
  unmapped : ∀ v < userLimit, V (pageDown v) → present (vmmGetPte ph'.ram sp.cr3 v) = false
  kept : ∀ v < userLimit, ¬ V (pageDown v) →
    vmmGetPte ph'.ram sp.cr3 v = vmmGetPte ph.ram sp.cr3 v
  record : sp'.umap.Perm (sp.umap.filter fun e => ¬ V (pageDown e.virt))
  freed : ∀ f, ph'.used f = true ↔
    ph.used f = true ∧ ∀ e ∈ sp.umap, V (pageDown e.virt) → e.phys ≠ f * pageSize
  contents : ∀ e ∈ sp.umap, ¬ V (pageDown e.virt) →
    ∀ x, x / pageSize * pageSize = e.phys → ph'.ram x = ph.ram x

section Release

variable {ph ph' ph'' : Phys} {sp sp' sp'' : Space} {es es' : List Mapping} {e : Mapping}
  {v start i fuel : ℕ} {V : ℕ → Prop} [DecidablePred V]

theorem SpaceOk.pte (h : SpaceOk ph sp) (hv : v < userLimit) :
    vmmGetPte ph.ram sp.cr3 v = Mm.leaf ph.ram sp.cr3 v :=
  vmmGetPte_eq (h.tree.noHuge (userPlaces_indices hv))

theorem pageDown_div (v : ℕ) : pageDown v / pageSize = v / pageSize :=
  Nat.mul_div_cancel _ (by decide)

theorem pageDown_eq_iff {w : ℕ} : pageDown v = pageDown w ↔ v / pageSize = w / pageSize := by
  constructor
  · intro h
    rw [← pageDown_div v, h, pageDown_div]
  · intro h
    unfold pageDown
    rw [h]

theorem Released.refl (h : SpaceOk ph sp) : Released ph sp ph sp [] := by
  refine ⟨.refl h, .refl _, fun v _ => ?_, fun f => ?_, fun _ _ => rfl⟩
  · simp
  · simp

theorem Released.trans (h : Released ph sp ph' sp' es) (h' : Released ph' sp' ph'' sp'' es') :
    Released ph sp ph'' sp'' (es ++ es') := by
  have hcr3 := h.acts.cr3
  refine ⟨h.acts.trans h'.acts, ?_, fun v hv => ?_, fun f => ?_, ?_⟩
  · rw [List.append_assoc]
    exact h.record.trans (h'.record.append_left es)
  · have hl' := h'.leaf v hv
    rw [hcr3] at hl'
    rw [hl', h.leaf v hv]
    simp only [List.mem_append, or_and_right, exists_or]
    by_cases hp : present (Mm.leaf ph.ram sp.cr3 v) = true
    · by_cases h₁ : ∃ e ∈ es, e.virt / pageSize = v / pageSize
      · simp [h₁, hp, not_present_zero]
      · simp [h₁, hp]
    · simp [hp]
  · rw [h'.used, h.used]
    simp only [List.mem_append, or_imp, forall_and, and_assoc]
  · have hsub : sp''.data ⊆ sp'.data := by
      rintro f ⟨e, he, hf⟩
      exact ⟨e, h'.record.mem_iff.mpr (List.mem_append_right es' he), hf⟩
    exact (h.same.mono hsub).trans h'.same

theorem releasePage_released (h : SpaceOk ph sp) (hperm : sp.umap.Perm (e :: es))
    (hcr3 : sp'.cr3 = sp.cr3) (humap : sp'.umap = es) (hbrk : sp'.brkPerm = sp.brkPerm) :
    Released ph sp (releasePage ph sp.cr3 e) sp' [e] := by
  have he : e ∈ sp.umap := hperm.mem_iff.mpr List.mem_cons_self
  obtain ⟨hacts, hleaf, hsame⟩ := releasePage_acts h hperm hcr3 (humap ▸ .refl _) hbrk
  refine ⟨hacts, humap ▸ hperm, fun v hv => ?_, fun f => ?_, hsame.mono ?_⟩
  · rw [hleaf v hv, unmapped]
    simp only [List.mem_singleton, exists_eq_left]
    by_cases hpage : e.virt / pageSize = v / pageSize
    · rw [leaf_congr ((indices_user (h.virt e he) hv).mpr hpage)]
      simp [hpage]
    · rw [if_neg (fun hc => hpage hc.1.symm), if_neg (fun hc => hpage hc.1)]
  · obtain ⟨g, hg, -, hp, -⟩ := h.frame e he
    have hused := (vmmUnmapPage_acts h (h.virt e he)).2.1
    have htotal := (vmmUnmapPage_acts h (h.virt e he)).1.total
    have hfree : (releasePage ph sp.cr3 e).inUse = (vmmUnmapPage ph sp.cr3 e.virt).1.inUse \ {g} := by
      unfold releasePage
      rw [hp]
      exact Phys.inUse_free (htotal ▸ hg)
    rw [← Phys.mem_inUse, hfree, Set.mem_sdiff, Set.mem_singleton_iff, Phys.mem_inUse, hused]
    simp only [List.mem_singleton, forall_eq, hp]
    rw [ne_eq, Nat.mul_left_inj (show pageSize ≠ 0 by decide), @eq_comm _ g]
  · rintro f ⟨e', he', hf⟩
    exact ⟨e', hperm.mem_iff.mpr (List.mem_cons_of_mem e (humap ▸ he')), hf⟩

theorem umReleaseLoop_released (h : SpaceOk ph sp) (hfuel : sp.umap.length ≤ fuel + i)
    (hpassed : ∀ j < i, ∀ e, sp.umap[j]? = some e → ¬ (start ≤ e.virt ∧ e.virt < userMmapTop)) :
    ∃ es, Released ph sp (umReleaseLoop start fuel i ph sp).1
        (umReleaseLoop start fuel i ph sp).2 es ∧
      (∀ e ∈ es, start ≤ e.virt ∧ e.virt < userMmapTop) ∧
      ∀ e ∈ (umReleaseLoop start fuel i ph sp).2.umap,
        ¬ (start ≤ e.virt ∧ e.virt < userMmapTop) := by
  -- what is left to show when the index has passed the record
  have hend : ∀ {ph : Phys} {sp : Space} {i : ℕ}, SpaceOk ph sp → sp.umap.length ≤ i →
      (∀ j < i, ∀ e, sp.umap[j]? = some e → ¬ (start ≤ e.virt ∧ e.virt < userMmapTop)) →
      ∃ es, Released ph sp ph sp es ∧ (∀ e ∈ es, start ≤ e.virt ∧ e.virt < userMmapTop) ∧
        ∀ e ∈ sp.umap, ¬ (start ≤ e.virt ∧ e.virt < userMmapTop) := by
    intro ph sp i h hi hpassed
    refine ⟨[], .refl h, by simp, fun e he => ?_⟩
    obtain ⟨j, hj⟩ := List.mem_iff_getElem?.mp he
    obtain ⟨hlt, -⟩ := List.getElem?_eq_some_iff.mp hj
    exact hpassed j (by omega) e hj
  induction fuel generalizing i ph sp with
  | zero => exact hend h (by omega) hpassed
  | succ fuel ih =>
    rw [umReleaseLoop]
    split
    · rename_i hnone
      exact hend h (List.getElem?_eq_none_iff.mp hnone) hpassed
    rename_i e he
    split
    · rename_i hin
      -- the last entry takes the place of the one that goes
      have hrel := @releasePage_released ph sp { sp with umap := umapRemove sp.umap i }
        (umapRemove sp.umap i) e h (umapRemove_perm he) rfl rfl rfl
      have hlen := (umapRemove_perm he).length_eq
      rw [List.length_cons] at hlen
      have hi := (List.getElem?_eq_some_iff.mp he).1
      obtain ⟨es, hres, hes, hrest⟩ := ih hrel.acts.ok (i := i)
        (by show (umapRemove sp.umap i).length ≤ _; omega) (by
          intro j hj e' he'
          apply hpassed j hj e'
          rw [← he']
          show _ = (umapRemove sp.umap i)[j]?
          unfold umapRemove
          rw [List.getElem?_dropLast, if_pos (by rw [List.length_set]; omega),
            List.getElem?_set_ne (by omega)])
      exact ⟨[e] ++ es, hrel.trans hres, List.forall_mem_cons.mpr ⟨hin, hes⟩, hrest⟩
    · rename_i hin
      apply ih h (by omega)
      intro j hj e' he'
      rcases Nat.lt_succ_iff_lt_or_eq.mp hj with hj | rfl
      · exact hpassed j hj e' he'
      · rw [he] at he'
        cases he'
        exact hin

theorem Released.frees (h : SpaceOk ph sp) (hr : Released ph sp ph' sp' es)
    (hes : ∀ e ∈ es, V (pageDown e.virt)) (hrest : ∀ e ∈ sp'.umap, ¬ V (pageDown e.virt)) :
    FreesExactly ph sp ph' sp' V := by
  have hmem : ∀ e ∈ sp.umap, V (pageDown e.virt) ↔ e ∈ es := by
    intro e he
    refine ⟨fun hV => ?_, hes e⟩
    rcases List.mem_append.mp (hr.record.mem_iff.mp he) with he | he
    · exact he
    · exact absurd hV (hrest e he)
  have hpte : ∀ v < userLimit, vmmGetPte ph'.ram sp.cr3 v = Mm.leaf ph'.ram sp.cr3 v := by
    intro v hv
    rw [← hr.acts.cr3]
    exact hr.acts.ok.pte hv
  have hpage : ∀ v < userLimit, present (Mm.leaf ph.ram sp.cr3 v) = true →
      ((∃ e ∈ es, e.virt / pageSize = v / pageSize) ↔ V (pageDown v)) := by
    intro v hv hp
    constructor
    · rintro ⟨e, he, hev⟩
      rw [← pageDown_eq_iff.mpr hev]
      exact hes e he
    · intro hV
      obtain ⟨e, he, hev, -⟩ := h.recorded v hv hp
      exact ⟨e, (hmem e he).mp (by rwa [pageDown_eq_iff.mpr hev]), hev⟩
  refine ⟨fun v hv hV => ?_, fun v hv hV => ?_, ?_, fun f => ?_, fun e he hV x hx => ?_⟩
  · rw [hpte v hv, hr.leaf v hv]
    by_cases hp : present (Mm.leaf ph.ram sp.cr3 v) = true
    · rw [if_pos ⟨(hpage v hv hp).mpr hV, hp⟩, not_present_zero]
    · rw [if_neg (fun hc => hp hc.2)]
      exact Bool.eq_false_iff.mpr hp
  · rw [hpte v hv, hr.leaf v hv, h.pte hv]
    apply if_neg
    rintro ⟨he, hp⟩
    exact hV ((hpage v hv hp).mp he)
  · have hfilter := hr.record.filter fun e => decide ¬ V (pageDown e.virt)
    have hnone : (es.filter fun e => decide ¬ V (pageDown e.virt)) = [] :=
      List.filter_eq_nil_iff.mpr (by simpa using hes)
    have hall : (sp'.umap.filter fun e => decide ¬ V (pageDown e.virt)) = sp'.umap :=
      List.filter_eq_self.mpr (by simpa using hrest)
    rw [List.filter_append, hnone, List.nil_append, hall] at hfilter
    exact hfilter.symm
  · rw [hr.used]
    refine and_congr_right fun _ => ⟨fun hf e he hV => hf e ((hmem e he).mp hV), fun hf e he => ?_⟩
    exact hf e (hr.record.mem_iff.mpr (List.mem_append_left _ he)) (hes e he)
  · apply hr.same
    refine ⟨e, ?_, hx.symm⟩
    rcases List.mem_append.mp (hr.record.mem_iff.mp he) with he | he
    · exact absurd (hes e he) hV
    · exact he

/-- `um_release_from` frees the recorded pages from `start` up to the stack, so it frees the pages
at `V` exactly if these hold the same recorded pages. -/
theorem umReleaseFrom_frees (h : SpaceOk ph sp) (hstart : start % pageSize = 0) :
    FreesExactly ph sp (umReleaseFrom ph sp start).1 (umReleaseFrom ph sp start).2 V ↔
      ∀ e ∈ sp.umap, (start ≤ pageDown e.virt ∧ pageDown e.virt < userMmapTop) ↔
        V (pageDown e.virt) := by
  obtain ⟨es, hr, hes, hrest⟩ := @umReleaseLoop_released ph sp start 0 sp.umap.length h (by omega)
    fun j hj => absurd hj (Nat.not_lt_zero j)
  have hround : ∀ e : Mapping, (start ≤ pageDown e.virt ∧ pageDown e.virt < userMmapTop) ↔
      (start ≤ e.virt ∧ e.virt < userMmapTop) := by
    intro e
    have htop : userMmapTop % pageSize = 0 := by decide
    unfold pageDown pageSize at *
    omega
  have hold : ∀ e ∈ (umReleaseFrom ph sp start).2.umap, e ∈ sp.umap := fun e he =>
    hr.record.mem_iff.mpr (List.mem_append_right es he)
  constructor
  · intro hV e he
    rw [hround]
    have hkept : e ∈ (umReleaseFrom ph sp start).2.umap ↔ ¬ V (pageDown e.virt) := by
      rw [hV.record.mem_iff, List.mem_filter, decide_eq_true_iff]
      exact and_iff_right he
    constructor
    · intro hin
      by_contra hnot
      exact hrest e (hkept.mpr hnot) hin
    · intro hin
      rcases List.mem_append.mp (hr.record.mem_iff.mp he) with he | he
      · exact hes e he
      · exact absurd hin (hkept.mp he)
  · intro hV
    apply hr.frees h
    · intro e he
      have hmem := hr.record.mem_iff.mpr (List.mem_append_left _ he)
      exact (hV e hmem).mp ((hround e).mpr (hes e he))
    · intro e he hc
      exact hrest e he ((hround e).mp ((hV e (hold e he)).mpr hc))

end Release

/-- The address rounded up to a page, without a wrap. -/
def pageUp (a : ℕ) : ℕ := pageDown (a + (pageSize - 1))

/-- `sys_munmap` frees exactly the range if no page beyond it is recorded below the stack, and none
in it above. -/
theorem munmap_exact {ph ph' : Phys} {sp sp' : Space} {addr length : ℕ} (h : SpaceOk ph sp)
    (hr : sysMunmap ph sp addr length = (ph', sp', 0)) :
    FreesExactly ph sp ph' sp' (fun v => addr ≤ v ∧ v < addr + pageUp length) ↔
      ∀ e ∈ sp.umap, addr ≤ pageDown e.virt →
        (pageDown e.virt < userMmapTop ↔ pageDown e.virt < addr + pageUp length) := by
  have hinval : veInval ≠ 0 := by decide
  unfold sysMunmap at hr
  split at hr
  · exact absurd (congrArg (fun r => r.2.2) hr) hinval
  split at hr
  · exact absurd (congrArg (fun r => r.2.2) hr) hinval
  rename_i haddr
  dsimp only at hr
  split at hr
  · exact absurd (congrArg (fun r => r.2.2) hr) hinval
  · cases hr
    rw [umReleaseFrom_frees h (not_not.mp haddr)]
    exact forall₂_congr fun e _ => and_congr_right_iff

/-- The two pages of the process, given back together. -/
theorem munmap_exact_pages : FreesExactly (twoPagePhys 0x5007 0x6007 7 64) (twoPageSpace 0x401000)
    (sysMunmap (twoPagePhys 0x5007 0x6007 7 64) (twoPageSpace 0x401000) 0x5FE000 0x1001).1
    (sysMunmap (twoPagePhys 0x5007 0x6007 7 64) (twoPageSpace 0x401000) 0x5FE000 0x1001).2.1
    fun v => 0x5FE000 ≤ v ∧ v < 0x5FE000 + pageUp 0x1001 := by
  have hok := twoPageSpace_ok 0x401000 (le_refl 7) (show 7 ≤ 64 by decide) (by decide)
  have hzero : (sysMunmap (twoPagePhys 0x5007 0x6007 7 64) (twoPageSpace 0x401000) 0x5FE000
      0x1001).2.2 = 0 := by decide +kernel
  rw [munmap_exact hok (Prod.ext rfl (Prod.ext rfl hzero))]
  decide +kernel

/-- The first of the two pages is given back, and the second goes with it. -/
theorem munmap_beyond_range :
    SpaceOk (twoPagePhys 0x5007 0x6007 7 64) (twoPageSpace 0x401000) ∧
    (sysMunmap (twoPagePhys 0x5007 0x6007 7 64) (twoPageSpace 0x401000) 0x5FE000 0x1000).2.2 = 0 ∧
    ¬ FreesExactly (twoPagePhys 0x5007 0x6007 7 64) (twoPageSpace 0x401000)
      (sysMunmap (twoPagePhys 0x5007 0x6007 7 64) (twoPageSpace 0x401000) 0x5FE000 0x1000).1
      (sysMunmap (twoPagePhys 0x5007 0x6007 7 64) (twoPageSpace 0x401000) 0x5FE000 0x1000).2.1
      fun v => 0x5FE000 ≤ v ∧ v < 0x5FE000 + pageUp 0x1000 := by
  refine ⟨twoPageSpace_ok _ (by decide) (by decide) (by decide), by decide +kernel, fun hc => ?_⟩
  exact absurd (hc.kept 0x5FF000 (by decide) (by decide)) (by decide +kernel)

/-- `um_brk_set` with a lower break succeeds and frees exactly the heap pages above it if the
recorded pages from there to the stack are those. -/
theorem shrink_exact {ph : Phys} {sp : Space} {newBrk : ℕ} (h : SpaceOk ph sp)
    (hlo : sp.heapStart ≤ newBrk) (hhi : newBrk < sp.brkCurrent) :
    ((umBrkSet ph sp newBrk).2.2 = 0 ∧ (umBrkSet ph sp newBrk).2.1.brkCurrent = newBrk ∧
      FreesExactly ph sp (umBrkSet ph sp newBrk).1 (umBrkSet ph sp newBrk).2.1
        fun v => pageUp newBrk ≤ v ∧ v < sp.brkCurrent) ↔
      sp.heapStart ≠ 0 ∧ ∀ e ∈ sp.umap,
        (pageDown (add64 newBrk (pageSize - 1)) ≤ pageDown e.virt ∧
          pageDown e.virt < userMmapTop) ↔
        (pageUp newBrk ≤ pageDown e.virt ∧ pageDown e.virt < sp.brkCurrent) := by
  unfold umBrkSet
  by_cases hz : sp.heapStart = 0
  · rw [if_pos hz]
    exact ⟨fun hc => absurd hc.1 (show veInval ≠ 0 by decide), fun hc => absurd hz hc.1⟩
  rw [if_neg hz, if_neg (by omega), if_neg (by omega), if_pos hhi]
  have hstart : pageDown (add64 newBrk (pageSize - 1)) % pageSize = 0 := Nat.mul_mod_left _ _
  have hfrees := @umReleaseFrom_frees ph sp _
    (fun v => pageUp newBrk ≤ v ∧ v < sp.brkCurrent) _ h hstart
  -- the break itself is not part of what is freed
  have hbrk : ∀ {ph' : Phys} {sp' : Space}, FreesExactly ph sp ph' { sp' with brkCurrent := newBrk }
      (fun v => pageUp newBrk ≤ v ∧ v < sp.brkCurrent) ↔
      FreesExactly ph sp ph' sp' fun v => pageUp newBrk ≤ v ∧ v < sp.brkCurrent :=
    ⟨fun hf => ⟨hf.unmapped, hf.kept, hf.record, hf.freed, hf.contents⟩,
      fun hf => ⟨hf.unmapped, hf.kept, hf.record, hf.freed, hf.contents⟩⟩
  dsimp only
  rw [hbrk, hfrees]
  simp only [true_and, ne_eq, hz, not_false_eq_true]

/-- The heap ends with the two pages, and is cut below them. -/
theorem shrink_exact_pages : FreesExactly (twoPagePhys 0x5007 0x6007 7 64) (twoPageSpace 0x600000)
    (umBrkSet (twoPagePhys 0x5007 0x6007 7 64) (twoPageSpace 0x600000) 0x5FD001).1
    (umBrkSet (twoPagePhys 0x5007 0x6007 7 64) (twoPageSpace 0x600000) 0x5FD001).2.1
    fun v => pageUp 0x5FD001 ≤ v ∧ v < (twoPageSpace 0x600000).brkCurrent := by
  have hok := twoPageSpace_ok 0x600000 (le_refl 7) (show 7 ≤ 64 by decide) (by decide)
  exact ((shrink_exact hok (by decide) (by decide)).mpr
    ⟨by decide, by decide +kernel⟩).2.2

/-- A heap of two pages is cut to one; the two mapped pages above it go as well. -/
theorem shrink_beyond_heap :
    SpaceOk (twoPagePhys 0x5007 0x6007 7 64) (twoPageSpace 0x402000) ∧
    (umBrkSet (twoPagePhys 0x5007 0x6007 7 64) (twoPageSpace 0x402000) 0x401000).2.2 = 0 ∧
    ¬ FreesExactly (twoPagePhys 0x5007 0x6007 7 64) (twoPageSpace 0x402000)
      (umBrkSet (twoPagePhys 0x5007 0x6007 7 64) (twoPageSpace 0x402000) 0x401000).1
      (umBrkSet (twoPagePhys 0x5007 0x6007 7 64) (twoPageSpace 0x402000) 0x401000).2.1
      fun v => pageUp 0x401000 ≤ v ∧ v < (twoPageSpace 0x402000).brkCurrent := by
  refine ⟨twoPageSpace_ok _ (by decide) (by decide) (by decide), by decide +kernel, fun hc => ?_⟩
  exact absurd (hc.kept 0x5FE000 (by decide) (by decide)) (by decide +kernel)

end VoidOS.Mm
