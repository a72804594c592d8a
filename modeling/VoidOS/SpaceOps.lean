import VoidOS.SpaceInv

namespace VoidOS.Mm

open ByteMem PageTree Ownership
open scoped List

section Loops

variable {ph ph' : Phys} {sp sp' : Space} {v f va n k base start flags : ℕ} {e : Mapping}
  {b : Bool} {r : ℤ} {es : List Mapping}

theorem pageFlags_write : PageFlags vmmWrite := ⟨by decide, by decide⟩

theorem PageFlags.or {fl fl' : ℕ} (h : PageFlags fl) (h' : PageFlags fl') :
    PageFlags (fl ||| fl') := by
  refine ⟨Nat.or_lt_two_pow h.1 h'.1, ?_⟩
  have h₁ := h.2
  have h₂ := h'.2
  unfold addr at *
  rw [Nat.and_or_distrib_right, h₁, h₂, Nat.or_zero]

theorem pageFlags_ite {c : Prop} [Decidable c] {fl : ℕ} (h : PageFlags fl) :
    PageFlags (if c then fl else 0) := by
  split
  · exact h
  · exact ⟨by decide, by decide⟩

theorem pageFlags_nx : PageFlags vmmNx := ⟨by decide, by decide +kernel⟩

theorem allocPages_acts (h : SpaceOk ph sp) (hflags : PageFlags flags)
    (hr : allocPages flags n va ph sp = (ph', sp', b)) : Acts ph sp ph' sp' := by
  induction n generalizing va ph sp with
  | zero =>
    cases hr
    exact .refl h
  | succ n ih =>
    rw [allocPages] at hr
    split at hr
    · rename_i hp
      cases hr
      exact (processAllocUserPage_spec h hflags hp).1
    · rename_i hp
      have hacts := (processAllocUserPage_spec h hflags hp).1
      exact hacts.trans (ih hacts.ok hr)

theorem releasePages_acts (h : SpaceOk ph sp) (hcr3 : sp'.cr3 = sp.cr3) (humap : sp'.umap = [])
    (hperm : PageFlags sp'.brkPerm) : Acts ph sp (releasePages ph sp.cr3 sp.umap) sp' := by
  unfold releasePages
  obtain ⟨cr3, umap, a, b, c⟩ := sp
  dsimp only at hcr3 ⊢
  induction umap generalizing ph with
  | nil => exact (Acts.refl h).of_eq hcr3 humap hperm
  | cons e es ih =>
    rw [List.foldl_cons]
    have hacts : Acts ph ⟨cr3, e :: es, a, b, c⟩ (releasePage ph cr3 e) ⟨cr3, es, a, b, c⟩ :=
      (@releasePage_acts ph ⟨cr3, e :: es, a, b, c⟩ ⟨cr3, es, a, b, c⟩ e es h (List.Perm.refl _)
        rfl (List.Perm.refl _) rfl).1
    exact hacts.trans (ih hacts.ok)

theorem umapRemove_perm {umap : List Mapping} {i : ℕ} (h : umap[i]? = some e) :
    umap.Perm (e :: umapRemove umap i) := by
  rcases List.eq_nil_or_concat umap with rfl | ⟨l, z, rfl⟩
  · cases h
  rw [List.concat_eq_append] at h ⊢
  have hlast : (l ++ [z]).getLastD default = z := by simp
  unfold umapRemove
  rw [hlast]
  obtain ⟨hi, he⟩ := List.getElem?_eq_some_iff.mp h
  rw [List.length_append, List.length_singleton] at hi
  by_cases hil : i < l.length
  · -- the last entry fills the gap
    rw [List.set_append_left _ _ hil, List.dropLast_concat]
    rw [List.getElem_append_left hil] at he
    obtain ⟨l₁, l₂, rfl, hlen⟩ : ∃ l₁ l₂, l = l₁ ++ e :: l₂ ∧ l₁.length = i :=
      ⟨l.take i, l.drop (i + 1), by rw [← he, List.getElem_cons_drop, List.take_append_drop],
        List.length_take_of_le (le_of_lt hil)⟩
    rw [← hlen, List.set_append_right _ _ le_rfl, Nat.sub_self, List.set_cons_zero,
      List.append_assoc, List.cons_append]
    calc l₁ ++ e :: (l₂ ++ [z]) ~ e :: (l₁ ++ (l₂ ++ [z])) := List.perm_middle
      _ ~ e :: (l₁ ++ z :: l₂) :=
        ((List.perm_append_singleton z l₂).append_left l₁).cons e
  · have hil' : i = l.length := by omega
    subst hil'
    rw [List.set_append_right _ _ le_rfl, Nat.sub_self, List.set_cons_zero, List.dropLast_concat]
    rw [List.getElem_append_right le_rfl] at he
    simp only [Nat.sub_self, List.getElem_cons_zero] at he
    rw [← he]
    exact List.perm_append_singleton z l

theorem umReleaseLoop_acts {fuel i : ℕ} (h : SpaceOk ph sp) :
    Acts ph sp (umReleaseLoop start fuel i ph sp).1 (umReleaseLoop start fuel i ph sp).2 := by
  induction fuel generalizing i ph sp with
  | zero => exact .refl h
  | succ fuel ih =>
    rw [umReleaseLoop]
    split
    · exact .refl h
    · rename_i e he
      split
      · have hacts : Acts ph sp (releasePage ph sp.cr3 e)
            { sp with umap := umapRemove sp.umap i } :=
          (@releasePage_acts ph sp { sp with umap := umapRemove sp.umap i } e _ h
            (umapRemove_perm he) rfl (List.Perm.refl _) rfl).1
        exact hacts.trans (ih hacts.ok)
      · exact ih h

theorem umReleaseFrom_acts (h : SpaceOk ph sp) (start : ℕ) :
    Acts ph sp (umReleaseFrom ph sp start).1 (umReleaseFrom ph sp start).2 :=
  umReleaseLoop_acts h

end Loops

section Calls

variable {ph ph' : Phys} {sp sp' : Space} {addr n k base flags length prot offset : ℕ} {fd : ℤ}
  {b nxOk : Bool} {r : ℤ} {newBrk : ℕ}

theorem brkInit_acts (h : SpaceOk ph sp) (nxOk : Bool) (stop : ℕ) :
    Acts ph sp ph (brkInit nxOk sp stop) :=
  (Acts.refl h).of_eq rfl rfl (pageFlags_write.or (pageFlags_ite pageFlags_nx))

theorem umBrkSet_acts (h : SpaceOk ph sp) (hr : umBrkSet ph sp newBrk = (ph', sp', r)) :
    Acts ph sp ph' sp' := by
  unfold umBrkSet at hr
  split at hr
  · cases hr
    exact .refl h
  split at hr
  · cases hr
    exact .refl h
  split at hr
  · split at hr
    · rename_i hg
      cases hr
      exact allocPages_acts h h.perm hg
    · rename_i hg
      cases hr
      have hacts := allocPages_acts h h.perm hg
      exact hacts.of_eq rfl rfl hacts.ok.perm
  split at hr
  · cases hr
    have hacts := umReleaseFrom_acts h (pageDown (add64 newBrk (pageSize - 1)))
    exact hacts.of_eq rfl rfl hacts.ok.perm
  · cases hr
    exact .refl h

theorem sysBrk_acts (h : SpaceOk ph sp) (hr : sysBrk ph sp addr = (ph', sp', r)) :
    Acts ph sp ph' sp' := by
  unfold sysBrk at hr
  split at hr
  · cases hr
    exact .refl h
  split at hr
  · cases hr
    exact .refl h
  split at hr
  · cases hr
    exact .refl h
  split at hr
  · rename_i hs
    cases hr
    exact umBrkSet_acts h hs
  · rename_i hs
    cases hr
    exact umBrkSet_acts h hs

theorem unmapPages_acts (h : SpaceOk ph sp) (hk : ∀ i < k, base + i * pageSize < userLimit) :
    Acts ph sp (unmapPages ph sp.cr3 base k) sp := by
  unfold unmapPages
  induction k with
  | zero => exact .refl h
  | succ k ih =>
    have hacts := ih fun i hi => hk i (by omega)
    rw [List.range_succ, List.foldl_append, List.foldl_cons, List.foldl_nil]
    exact hacts.trans (vmmUnmapPage_acts hacts.ok (hk k (by omega))).1

theorem mmapLoop_acts (h : SpaceOk ph sp) (hflags : PageFlags flags)
    (hk : ∀ i < k, base + i * pageSize < userLimit)
    (hr : mmapLoop flags base n k ph sp = (ph', sp', b)) : Acts ph sp ph' sp' := by
  induction n generalizing k ph sp with
  | zero =>
    cases hr
    exact .refl h
  | succ n ih =>
    rw [mmapLoop] at hr
    split at hr
    · rename_i hp
      cases hr
      have hacts := (processAllocUserPage_spec h hflags hp).1
      exact hacts.trans (unmapPages_acts hacts.ok hk)
    · rename_i hp
      obtain ⟨hacts, -, hcase⟩ := processAllocUserPage_spec h hflags hp
      apply hacts.trans (ih hacts.ok _ hr)
      intro i hi
      rcases hcase with ⟨hc, -⟩ | ⟨-, hlt, -⟩
      · cases hc
      · by_cases hik : i = k
        · rw [hik]
          exact hlt
        · exact hk i (by omega)

theorem sysMmap_acts (h : SpaceOk ph sp)
    (hr : sysMmap nxOk ph sp addr length prot flags fd offset = (ph', sp', r)) :
    Acts ph sp ph' sp' := by
  have hflags : PageFlags (mmapProtFlags nxOk prot) :=
    (pageFlags_ite pageFlags_write).or (pageFlags_ite pageFlags_nx)
  unfold sysMmap at hr
  split at hr
  · cases hr
    exact .refl h
  split at hr
  · cases hr
    exact .refl h
  split at hr
  · cases hr
    exact .refl h
  split at hr
  · cases hr
    exact .refl h
  split at hr
  · cases hr
    exact .refl h
  dsimp only at hr
  split at hr
  · cases hr
    exact .refl h
  generalize hl : mmapLoop _ _ _ _ ph sp = res at hr
  obtain ⟨ph₂, sp₂, b⟩ := res
  have hacts := mmapLoop_acts h hflags (fun i hi => absurd hi (Nat.not_lt_zero i)) hl
  cases b with
  | false =>
    cases hr
    exact hacts
  | true =>
    cases hr
    exact hacts

theorem sysMunmap_acts (h : SpaceOk ph sp) (hr : sysMunmap ph sp addr length = (ph', sp', r)) :
    Acts ph sp ph' sp' := by
  unfold sysMunmap at hr
  split at hr
  · cases hr
    exact .refl h
  split at hr
  · cases hr
    exact .refl h
  dsimp only at hr
  split at hr
  · cases hr
    exact .refl h
  · cases hr
    exact umReleaseFrom_acts h addr

theorem pageFlags_fork (pte : ℕ) : PageFlags (forkFlags pte) :=
  (pageFlags_ite pageFlags_write).or (pageFlags_ite pageFlags_nx)

theorem forkPages_acts {parentCr3 : ℕ} {es : List Mapping} (h : SpaceOk ph sp)
    (hr : forkPages parentCr3 es ph sp = (ph', sp', b)) : Acts ph sp ph' sp' := by
  induction es generalizing ph sp with
  | nil =>
    cases hr
    exact .refl h
  | cons e es ih =>
    rw [forkPages] at hr
    rcases pmmAllocFrame_cases ph with ⟨-, ha⟩ | ⟨f, hf, ha⟩
    · rw [ha] at hr
      cases hr
      exact .refl h
    rw [ha] at hr
    simp only [h.phys.ne_zero hf, if_false] at hr
    have hm : SameOn pageSize ph.inUse ph.ram
        (copyPage (ph.take f).ram (f * pageSize) e.phys) := by
      intro x hx
      apply if_neg
      rintro ⟨hl, hr⟩
      exact Phys.notMem_inUse hf (div_page hl hr ▸ hx)
    have hflags := pageFlags_fork (vmmGetPte ph.ram parentCr3 e.virt)
    split at hr
    · rename_i hmap
      cases hr
      obtain ⟨-, -, hcase⟩ := processMapUser_spec h hf hm hflags.1 hflags.2 hmap
      rcases hcase with ⟨-, rfl, hacts⟩ | ⟨hc, -⟩
      · exact hacts
      · cases hc
    · rename_i hmap
      obtain ⟨-, -, hcase⟩ := processMapUser_spec h hf hm hflags.1 hflags.2 hmap
      rcases hcase with ⟨hc, -⟩ | ⟨-, -, -, -, hacts⟩
      · cases hc
      · exact hacts.trans (ih hacts.ok hr)

end Calls

end VoidOS.Mm
