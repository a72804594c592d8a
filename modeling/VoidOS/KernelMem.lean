import VoidOS.KernelRegions
import VoidOS.SpaceDestroy

namespace VoidOS.Proc

open ByteMem PageTree Ownership Mm

/-- The memory of the machine with the records of its users: the frames of the kernel heap and of
the kernel stacks, and the address spaces. -/
structure Memory where
  phys : Phys
  pml4 : ℕ
  heap : List ℕ
  kstack : List ℕ
  space : ℕ → Option Space

inductive Owner
  | boot
  | tables
  | heap
  | kstack
  | space (i : ℕ)
deriving DecidableEq

def frameSet (l : List ℕ) : Set ℕ := {f | f * pageSize ∈ l}

def spaceFrames (ph : Phys) : Option Space → Set ℕ
  | none => ∅
  | some sp => sp.frames ph

/-- The frames of an owner; `boot` are those that are reserved and hold no table of the kernel. -/
def Memory.own (M : Memory) (boot : Set ℕ) : Owner → Set ℕ
  | .boot => boot
  | .tables => tablesOf M.phys.ram M.pml4 (KernelPlaces M.phys.ram M.pml4)
  | .heap => frameSet M.heap
  | .kstack => frameSet M.kstack
  | .space i => spaceFrames M.phys (M.space i)

/-- The upper half as the boot loader leaves it: the entries of the PML4, and where the addresses
below the region of the kernel are mapped. -/
structure UpperHalf where
  entry : ℕ → ℕ
  direct : ℕ → ℕ × ℕ

/-- The page tables of the kernel. The range of the heap and the stacks is below an entry of the
PML4 that is present, and has no huge pages. -/
structure KernelOk (ph : Phys) (pml4 : ℕ) (up : UpperHalf) : Prop where
  tree : Tree ph pml4 (KernelPlaces ph.ram pml4)
  region : ∀ v, kheapStart ≤ v → v < 2 ^ 64 → KernelPlaces ph.ram pml4 (indices v)
  low : ∀ i < 256, present (entry ph.ram pml4 i) = false
  top : ∀ i, 256 ≤ i → i < 512 → entry ph.ram pml4 i = up.entry i
  direct : ∀ v, 256 ≤ pml4Idx v → pml4Idx v < 511 → translation ph.ram pml4 v = up.direct v
  hidden : ∀ v, 256 ≤ pml4Idx v → user (vmmGetPte ph.ram pml4 v) = false

def FramesOk (ph : Phys) (l : List ℕ) : Prop :=
  l.Nodup ∧ ∀ a ∈ l, ∃ f < ph.totalFrames, a = f * pageSize

/-- An address space that shares the upper half of the kernel. -/
def SpacePart (ph : Phys) (top : UpperHalf) (sp : Space) : Prop :=
  SpaceOk ph sp ∧ ∀ j, 256 ≤ j → j < 512 → entry ph.ram sp.cr3 j = top.entry j

def Memory.PartOk (M : Memory) (top : UpperHalf) : Owner → Prop
  | .boot => True
  | .tables => KernelOk M.phys M.pml4 top
  | .heap => FramesOk M.phys M.heap
  | .kstack => FramesOk M.phys M.kstack
  | .space i => ∀ sp, M.space i = some sp → SpacePart M.phys top sp

/-- Every frame in use has one owner, and what the owners keep in their frames is in order. -/
structure MemOk (boot : Set ℕ) (top : UpperHalf) (M : Memory) : Prop where
  phys : M.phys.Ok
  zero : 0 ∈ boot
  shared : Shared (M.own boot) M.phys.inUse
  part : ∀ o, M.PartOk top o

def Memory.SamePart (M M' : Memory) : Owner → Prop
  | .boot => True
  | .tables => M'.pml4 = M.pml4
  | .heap => M'.heap = M.heap
  | .kstack => M'.kstack = M.kstack
  | .space i => M'.space i = M.space i

section Step

variable {boot : Set ℕ} {top : UpperHalf} {M M' : Memory} {o : Owner}

theorem part_congr (h : M.PartOk top o) (hpart : M.SamePart M' o) (hok : M'.phys.Ok)
    (htotal : M'.phys.totalFrames = M.phys.totalFrames)
    (hused : M.own boot o ⊆ M'.phys.inUse)
    (hsame : SameOn pageSize (M.own boot o) M.phys.ram M'.phys.ram) :
    M'.PartOk top o ∧ M'.own boot o = M.own boot o := by
  cases o with
  | boot => exact ⟨trivial, rfl⟩
  | tables =>
    obtain ⟨ph', pml4, heap', kstack', space'⟩ := M'
    cases hpart
    have hk : KernelOk M.phys M.pml4 top := h
    obtain ⟨hplaces, htree, htables⟩ := kernel_congr hk.tree hsame htotal hused
    have hroot : ∀ i < 512, entry ph'.ram M.pml4 i = entry M.phys.ram M.pml4 i :=
      fun i hi => root_same hk.tree (kernel_nil _ _) hsame hi
    refine ⟨⟨htree, fun v hl hr => hplaces ▸ hk.region v hl hr, ?_, ?_, ?_, ?_⟩, htables⟩
    · intro i hi
      rw [hroot i (by omega)]
      exact hk.low i hi
    · intro i hi hi'
      rw [hroot i hi']
      exact hk.top i hi hi'
    · intro v hv hv'
      exact (kernel_same hk.tree hsame hv).trans (hk.direct v hv hv')
    · intro v hv
      have := congrArg Prod.snd (kernel_same hk.tree hsame hv)
      rw [show vmmGetPte ph'.ram M.pml4 v = vmmGetPte M.phys.ram M.pml4 v from this]
      exact hk.hidden v hv
  | heap =>
    replace hpart : M'.heap = M.heap := hpart
    refine ⟨⟨hpart ▸ h.1, fun a ha => ?_⟩, congrArg frameSet hpart⟩
    rw [htotal]
    exact h.2 a (hpart ▸ ha)
  | kstack =>
    replace hpart : M'.kstack = M.kstack := hpart
    refine ⟨⟨hpart ▸ h.1, fun a ha => ?_⟩, congrArg frameSet hpart⟩
    rw [htotal]
    exact h.2 a (hpart ▸ ha)
  | space i =>
    replace hpart : M'.space i = M.space i := hpart
    replace h : ∀ sp, M.space i = some sp → SpacePart M.phys top sp := h
    replace hused : spaceFrames M.phys (M.space i) ⊆ M'.phys.inUse := hused
    replace hsame : SameOn pageSize (spaceFrames M.phys (M.space i)) M.phys.ram M'.phys.ram := hsame
    show (∀ sp, M'.space i = some sp → SpacePart M'.phys top sp) ∧
      spaceFrames M'.phys (M'.space i) = spaceFrames M.phys (M.space i)
    rw [hpart]
    cases hsp : M.space i with
    | none => exact ⟨fun _ hc => (nomatch hc), rfl⟩
    | some sp =>
      rw [hsp] at hused hsame
      obtain ⟨hspace, htop⟩ := h sp hsp
      obtain ⟨hspace', hframes⟩ := hspace.congr hok htotal hused hsame
      refine ⟨fun sp' he => ?_, hframes⟩
      cases he
      refine ⟨hspace', fun j hj hj' => ?_⟩
      rw [hspace.tree.upper (hsame.mono Set.subset_union_left) j hj hj']
      exact htop j hj hj'

theorem MemOk.step (h : MemOk boot top M) (ho : o ≠ .boot)
    (hl : M.phys.Local (M.own boot o) (M'.own boot o) M'.phys)
    (htotal : M'.phys.totalFrames = M.phys.totalFrames)
    (hrest : ∀ o', o' ≠ o → M.SamePart M' o')
    (hpart : M'.phys.Ok → M'.PartOk top o) : MemOk boot top M' := by
  have hok : M'.phys.Ok := by
    refine ⟨?_, htotal ▸ h.phys.bound⟩
    exact h.shared.stays hl (Ne.symm ho) h.zero
  have hothers : ∀ o', o' ≠ o → M'.PartOk top o' ∧ M'.own boot o' = M.own boot o' :=
    fun o' ho' => part_congr (h.part o') (hrest o' ho') hok htotal (h.shared.stays hl ho')
      (h.shared.same hl ho')
  refine ⟨hok, h.zero, h.shared.step hl rfl fun o' ho' => (hothers o' ho').2, fun o' => ?_⟩
  by_cases ho' : o' = o
  · exact ho' ▸ hpart hok
  · exact (hothers o' ho').1

end Step

section Kernel

variable {ph ph' : Phys} {pml4 v i : ℕ} {top : UpperHalf} {L : ℕ → ℕ} {b : Bool}

theorem kernelPlaces_concat {m : Mem} {p : List ℕ} (hv : 256 ≤ pml4Idx v)
    (hpre : p ++ [i] <+: indices v) (hp : KernelPlaces m pml4 p)
    (hpres : present (entry m pml4 (pml4Idx v)) = true)
    (hflat : ∀ u, p ≠ [] → p.length ≤ 2 → walk m pml4 p = some u → present (entry m u i) = true →
      huge (entry m u i) = false) : KernelPlaces m pml4 (p ++ [i]) := by
  refine ⟨v, hv, hpre, fun _ => hpres, fun q j u hq hne hl hw => ?_⟩
  rcases List.prefix_concat_iff.mp hq with heq | hq
  · obtain ⟨rfl, hij⟩ := List.append_inj' heq rfl
    rw [List.singleton_inj.mp hij]
    exact hflat u hne hl hw
  · obtain ⟨-, -, -, -, hold⟩ := hp
    exact hold q j u hq hne hl hw

/-- The translation of an upper-half address after a change of the kernel's tables. -/
theorem translation_edit (e : Edit pml4 (KernelPlaces ph.ram pml4) ph ph' L)
    (hv : 256 ≤ pml4Idx v) : translation ph'.ram pml4 v = translation ph.ram pml4 v ∨
      (KernelPlaces ph.ram pml4 (indices v) ∧ leaf ph'.ram pml4 v = L v ∧
        NoHuge ph'.ram pml4 v) := by
  by_cases hplace : KernelPlaces ph.ram pml4 (indices v)
  · exact Or.inr ⟨hplace, e.leaf v hplace, e.tree.noHuge hplace⟩
  left
  have hlt : ∀ n, n % 512 < 512 := fun n => Nat.mod_lt n (by decide)
  have hroot := e.kernel.2 (pml4Idx v) hv (hlt _)
  by_cases h₁ : present (entry ph.ram pml4 (pml4Idx v)) = true
  swap
  · simp [translation, vmmVirtToPhys, vmmGetPte, hroot, h₁]
  -- the places end at the first huge page, whose entry is kept
  have hp₁ : KernelPlaces ph.ram pml4 [pml4Idx v] :=
    kernelPlaces_concat hv ⟨_, rfl⟩ (kernel_nil _ _) h₁ fun u h => absurd rfl h
  have hw₁ : walk ph.ram pml4 [pml4Idx v] = some (addr (entry ph.ram pml4 (pml4Idx v))) := by
    rw [walk, if_pos h₁, walk]
  generalize hu₁ : addr (entry ph.ram pml4 (pml4Idx v)) = u₁ at hw₁
  have hkeep₁ := e.keep [pml4Idx v] (pdptIdx v) u₁ hp₁ (hlt _) (Nat.le_of_ble_eq_true rfl) hw₁
  by_cases hh₂ : present (entry ph.ram u₁ (pdptIdx v)) = true ∧
      huge (entry ph.ram u₁ (pdptIdx v)) = true
  · have := hkeep₁ (Or.inl ⟨Nat.le_of_ble_eq_true rfl, hh₂.1⟩)
    simp [translation, vmmVirtToPhys, vmmGetPte, hroot, h₁, hu₁, this, hh₂.1, hh₂.2]
  have hp₂ : KernelPlaces ph.ram pml4 [pml4Idx v, pdptIdx v] := by
    apply kernelPlaces_concat hv ⟨_, rfl⟩ hp₁ h₁
    intro u _ _ hu hpu
    rw [Option.some.inj (hu.symm.trans hw₁)] at hpu ⊢
    exact Bool.eq_false_iff.mpr fun hc => hh₂ ⟨hpu, hc⟩
  by_cases h₂ : present (entry ph.ram u₁ (pdptIdx v)) = true
  swap
  · have hw₂ : walk ph.ram pml4 [pml4Idx v, pdptIdx v] = none := by
      rw [walk, if_pos h₁, hu₁, walk, if_neg h₂]
    have hp₃ : KernelPlaces ph.ram pml4 [pml4Idx v, pdptIdx v, pdIdx v] := by
      apply kernelPlaces_concat hv ⟨_, rfl⟩ hp₂ h₁
      intro u _ _ hu
      rw [hu] at hw₂
      cases hw₂
    refine absurd (kernelPlaces_concat hv List.prefix_rfl hp₃ h₁ fun u _ hl => ?_) hplace
    exact absurd hl (by simp)
  have hw₂ : walk ph.ram pml4 [pml4Idx v, pdptIdx v] =
      some (addr (entry ph.ram u₁ (pdptIdx v))) := by
    rw [walk, if_pos h₁, hu₁, walk, if_pos h₂, walk]
  have hk₂ := hkeep₁ (Or.inl ⟨Nat.le_of_ble_eq_true rfl, h₂⟩)
  have hflat₂ : huge (entry ph.ram u₁ (pdptIdx v)) = false :=
    Bool.eq_false_iff.mpr fun hc => hh₂ ⟨h₂, hc⟩
  generalize hu₂ : addr (entry ph.ram u₁ (pdptIdx v)) = u₂ at hw₂
  have hkeep₂ := e.keep _ (pdIdx v) u₂ hp₂ (hlt _) (Nat.le_of_ble_eq_true rfl) hw₂
  by_cases hh₃ : present (entry ph.ram u₂ (pdIdx v)) = true ∧
      huge (entry ph.ram u₂ (pdIdx v)) = true
  · have := hkeep₂ (Or.inl ⟨Nat.le_of_ble_eq_true rfl, hh₃.1⟩)
    simp [translation, vmmVirtToPhys, vmmGetPte, hroot, h₁, hu₁, hk₂, h₂, hflat₂, hu₂, this, hh₃.1, hh₃.2]
  have hp₃ : KernelPlaces ph.ram pml4 [pml4Idx v, pdptIdx v, pdIdx v] := by
    apply kernelPlaces_concat hv ⟨_, rfl⟩ hp₂ h₁
    intro u _ _ hu hpu
    rw [Option.some.inj (hu.symm.trans hw₂)] at hpu ⊢
    exact Bool.eq_false_iff.mpr fun hc => hh₃ ⟨hpu, hc⟩
  refine absurd (kernelPlaces_concat hv List.prefix_rfl hp₃ h₁ fun u _ hl => ?_) hplace
  exact absurd hl (by simp)

/-- A page of the heap or of a kernel stack is mapped, or the frames run out. -/
theorem KernelOk.map {phys : ℕ} (h : KernelOk ph pml4 top) (hok : ph.Ok)
    (hl : kheapStart ≤ v) (hr : v < 2 ^ 64) (hm : vmmMapPage ph pml4 v phys 3 = (ph', b)) :
    KernelOk ph' pml4 top ∧ ph'.totalFrames = ph.totalFrames ∧
      ph.Local (tablesOf ph.ram pml4 (KernelPlaces ph.ram pml4))
        (tablesOf ph'.ram pml4 (KernelPlaces ph'.ram pml4)) ph' := by
  obtain ⟨L, e, hL⟩ : ∃ L, Edit pml4 (KernelPlaces ph.ram pml4) ph ph' L ∧
      ∀ w, L w = leaf ph.ram pml4 w ∨ indices w = indices v ∧ user (L w) = false := by
    have hw := h.region v hl hr
    have huser : user (addr phys ||| 3) = false := by
      unfold user addr
      rw [Nat.testBit_or, Nat.testBit_and, show Nat.testBit 0x000FFFFFFFFFF000 2 = false by decide,
        Bool.and_false]
      decide
    rcases vmmMapPage_edit hok h.tree hw (entry_word_lt (by decide)) hm with ⟨-, e⟩ | ⟨-, e⟩
    · exact ⟨_, e, fun w => Or.inl rfl⟩
    · refine ⟨_, e, fun w => ?_⟩
      split
      · rename_i hwv
        exact Or.inr ⟨hwv, huser⟩
      · exact Or.inl rfl
  obtain ⟨hplaces, hupper⟩ := e.kernel
  refine ⟨⟨hplaces ▸ e.tree, ?_, ?_, ?_, ?_, ?_⟩, e.total, hplaces ▸ e.own⟩
  · rw [hplaces]
    exact h.region
  · intro i hi
    rw [e.keep [] i pml4 (kernel_nil _ _) (by omega) (Nat.zero_le 3) rfl]
    · exact h.low i hi
    · refine Or.inr ?_
      rintro ⟨w, hw, ⟨r, hr⟩, -⟩
      have hhead : i = pml4Idx w := by injection hr
      omega
  · intro i hi hi'
    rw [hupper i hi hi']
    exact h.top i hi hi'
  · intro w hw hw'
    rw [← h.direct w hw hw']
    rcases translation_edit e hw with he | ⟨hp, he, hflat⟩
    · exact he
    · rcases hL w with hL | ⟨hwv, -⟩
      · rw [hL] at he
        unfold translation
        rw [vmmVirtToPhys_eq hflat, vmmGetPte_eq hflat, vmmVirtToPhys_eq (h.tree.noHuge hp),
          vmmGetPte_eq (h.tree.noHuge hp), he]
      · -- the page is below the last entry of the PML4
        have hhead : pml4Idx w = pml4Idx v := (List.cons.inj hwv).1
        have hlast : pml4Idx v = 511 := by
          unfold kheapStart at hl
          unfold pml4Idx
          omega
        omega
  · intro w hw
    have hold := h.hidden w hw
    rcases translation_edit e hw with he | ⟨hp, he, hflat⟩
    · rw [show vmmGetPte ph'.ram pml4 w = vmmGetPte ph.ram pml4 w from congrArg Prod.snd he]
      exact hold
    · rw [vmmGetPte_eq hflat, he]
      rcases hL w with hL | hL
      · rwa [hL, ← vmmGetPte_eq (h.tree.noHuge hp)]
      · exact hL.2

end Kernel

section Ops

variable {boot : Set ℕ} {top : UpperHalf} {M : Memory} {ph' : Phys} {sp sp' : Space} {l : List ℕ}
  {i f v a cr3 : ℕ} {b : Bool}

theorem MemOk.spaceOk (h : MemOk boot top M) (hi : M.space i = some sp) : SpaceOk M.phys sp :=
  (h.part (.space i) sp hi).1

theorem MemOk.stepSpace {osp : Option Space} (h : MemOk boot top M)
    (hl : M.phys.Local (spaceFrames M.phys (M.space i)) (spaceFrames ph' osp) ph')
    (htotal : ph'.totalFrames = M.phys.totalFrames)
    (hpart : ph'.Ok → ∀ sp, osp = some sp → SpacePart ph' top sp) :
    MemOk boot top { M with phys := ph', space := Function.update M.space i osp } := by
  have hself : Function.update M.space i osp i = osp := Function.update_self ..
  apply @MemOk.step boot top M _ (.space i) h (by simp) _ htotal
  · intro o ho
    cases o with
    | boot => trivial
    | space j =>
      have hj : j ≠ i := fun hc => ho (congrArg Owner.space hc)
      exact Function.update_of_ne hj _ _
    | _ => rfl
  · intro hok sp he
    exact hpart hok sp (hself.symm.trans he)
  · show M.phys.Local _ (spaceFrames ph' (Function.update M.space i osp i)) ph'
    rw [hself]
    exact hl

theorem MemOk.acts (h : MemOk boot top M) (hi : M.space i = some sp) (ha : Acts M.phys sp ph' sp') :
    MemOk boot top { M with phys := ph', space := Function.update M.space i (some sp') } := by
  apply h.stepSpace _ ha.total
  · intro _ sp'' he
    cases he
    refine ⟨ha.ok, fun j hj hj' => ?_⟩
    rw [ha.cr3]
    exact (ha.upper j hj hj').trans ((h.part (.space i) sp hi).2 j hj hj')
  · rw [hi]
    exact ha.own

theorem KernelOk.create {ph : Phys} {pml4 : ℕ} (hk : KernelOk ph pml4 top) (hok : ph.Ok)
    (hc : addressSpaceCreate ph pml4 = (ph', cr3)) : (cr3 = 0 ∧ ph' = ph) ∨
    (cr3 ≠ 0 ∧ ph'.totalFrames = ph.totalFrames ∧ SpacePart ph' top ⟨cr3, [], 0, 0, 0⟩ ∧
      ph.Local ∅ ((⟨cr3, [], 0, 0, 0⟩ : Space).frames ph') ph') := by
  obtain ⟨g, -, hg, hkp⟩ := hk.tree.frame [] _ (kernel_nil _ _) (Nat.zero_le 3) rfl
  have hkused : pml4 / pageSize ∈ ph.inUse := by
    rw [hkp, Nat.mul_div_cancel _ (show 0 < pageSize by decide)]
    exact hg
  rcases addressSpaceCreate_cases hok hk.tree.root hkused with
    ⟨-, he⟩ | ⟨f, hf, m, he, hne, hout, hlow, hup⟩
  · rw [he] at hc
    cases hc
    exact Or.inl ⟨rfl, rfl⟩
  rw [he] at hc
  cases hc
  right
  obtain ⟨htree, htables, hleaf⟩ := create_tree hf hlow
  have hfree := Phys.notMem_inUse hf
  let ph₁ : Phys := { ph.take f with ram := m }
  have hok₁ : ph₁.Ok := ⟨(hok.take f).zero, hok.bound⟩
  have hframes : (⟨f * pageSize, [], 0, 0, 0⟩ : Space).frames ph₁ = {f} := by
    show tablesOf m (f * pageSize) UserPlaces ∪ _ = _
    rw [htables]
    simp [Space.data]
  refine ⟨hne, rfl, ⟨⟨hok₁, htree, ?_, List.nodup_nil, by simp, by simp, Nat.zero_le _, ?_, ?_⟩, ?_⟩,
    ?_⟩
  · rw [hframes, Set.mem_singleton_iff]
    rintro rfl
    exact hne (zero_mul _)
  · exact (⟨by decide, by decide⟩ : PageFlags 0)
  · intro v hv hp
    rw [show leaf ph₁.ram (f * pageSize) v = 0 from hleaf v (userPlaces_indices hv),
      not_present_zero] at hp
    cases hp
  · intro j hj hj'
    have := hup (j - 256) (by omega)
    rw [show 256 + (j - 256) = j by omega] at this
    exact this.trans (hk.top j hj hj')
  · show Ownership.Local _ _ _ _ ph₁.inUse _ _
    rw [hframes, show ph₁.inUse = insert f ph.inUse from Phys.inUse_take]
    have := @Ownership.Local.take _ pageSize f ∅ _ ph.ram ph₁.ram (Set.empty_subset _) hfree (by
      rintro x ⟨hx, -⟩
      apply hout
      intro hc
      exact hfree (hc ▸ hx))
    rwa [insert_empty_eq] at this

theorem MemOk.create (h : MemOk boot top M) (hi : M.space i = none)
    (hc : addressSpaceCreate M.phys M.pml4 = (ph', cr3)) : (cr3 = 0 ∧ ph' = M.phys) ∨
    (cr3 ≠ 0 ∧ MemOk boot top { M with
      phys := ph', space := Function.update M.space i (some ⟨cr3, [], 0, 0, 0⟩) }) := by
  have hk : KernelOk M.phys M.pml4 top := h.part .tables
  rcases hk.create h.phys hc with hnone | ⟨hne, htotal, hpart, hl⟩
  · exact Or.inl hnone
  · refine Or.inr ⟨hne, h.stepSpace ?_ htotal fun _ sp he => ?_⟩
    · rw [hi]
      exact hl
    · cases he
      exact hpart

theorem MemOk.destroy (h : MemOk boot top M) (hi : M.space i = some sp) :
    MemOk boot top { M with
      phys := (processDestroyUserSpace M.phys sp).1, space := Function.update M.space i none } := by
  obtain ⟨hlocal, htotal⟩ := processDestroyUserSpace_local (h.spaceOk hi)
  apply h.stepSpace _ htotal
  · exact fun _ sp' he => (nomatch he)
  · rw [hi]
    exact hlocal

theorem MemOk.rename (h : MemOk boot top M) (e : ℕ ≃ ℕ) :
    MemOk boot top { M with space := fun i => M.space (e i) } := by
  let e' : Owner ≃ Owner :=
    { toFun := fun o => match o with | .space i => .space (e i) | o => o
      invFun := fun o => match o with | .space i => .space (e.symm i) | o => o
      left_inv := by intro o; cases o <;> simp
      right_inv := by intro o; cases o <;> simp }
  refine ⟨h.phys, h.zero, ?_, fun o => ?_⟩
  · have hown : ({ M with space := fun i => M.space (e i) } : Memory).own boot =
        fun o => M.own boot (e' o) := by
      funext o
      cases o <;> rfl
    rw [hown]
    exact h.shared.comp e'
  · cases o with
    | space i => exact h.part (.space (e i))
    | boot => exact h.part .boot
    | tables => exact h.part .tables
    | heap => exact h.part .heap
    | kstack => exact h.part .kstack

theorem MemOk.map {phys : ℕ} (h : MemOk boot top M) (hl : kheapStart ≤ v) (hr : v < 2 ^ 64)
    (hm : vmmMapPage M.phys M.pml4 v phys 3 = (ph', b)) :
    MemOk boot top { M with phys := ph' } := by
  have hk : KernelOk M.phys M.pml4 top := h.part .tables
  obtain ⟨hk', htotal, hlocal⟩ := hk.map h.phys hl hr hm
  apply @MemOk.step boot top M { M with phys := ph' } .tables h (by simp) hlocal htotal
  · intro o ho
    cases o with
    | tables => exact absurd rfl ho
    | boot => trivial
    | _ => rfl
  · exact fun _ => hk'

theorem FramesOk.concat {ph : Phys} (h : FramesOk ph l) (hsub : frameSet l ⊆ ph.inUse)
    (hf : f ∈ ph.free) : FramesOk (ph.take f) (l ++ [f * pageSize]) ∧
      frameSet (l ++ [f * pageSize]) = insert f (frameSet l) := by
  have hnot : f * pageSize ∉ l := fun hc => Phys.notMem_inUse hf (hsub hc)
  refine ⟨⟨?_, ?_⟩, ?_⟩
  · rw [List.nodup_append]
    refine ⟨h.1, List.nodup_singleton _, ?_⟩
    rintro a ha b hb rfl
    rw [List.mem_singleton.mp hb] at ha
    exact hnot ha
  · intro a ha
    rcases List.mem_append.mp ha with ha | ha
    · exact h.2 a ha
    · exact ⟨f, (Phys.mem_free.mp hf).1, List.mem_singleton.mp ha⟩
  · ext g
    constructor
    · intro hg
      rcases List.mem_append.mp hg with hg | hg
      · exact Or.inr hg
      · exact Or.inl (Nat.eq_of_mul_eq_mul_right (by decide) (List.mem_singleton.mp hg))
    · rintro (rfl | hg)
      · exact List.mem_append_right _ (List.mem_singleton_self _)
      · exact List.mem_append_left _ hg

theorem take_local {F : Set ℕ} {ph : Phys} (hF : F ⊆ ph.inUse) (hf : f ∈ ph.free) :
    ph.Local F (insert f F) (ph.take f) := by
  show Ownership.Local _ _ _ _ (ph.take f).inUse _ _
  rw [Phys.inUse_take]
  exact .take hF (Phys.notMem_inUse hf) fun _ _ => rfl

theorem MemOk.takeKstack (h : MemOk boot top M) (hf : f ∈ M.phys.free) :
    MemOk boot top { M with
      phys := M.phys.take f, kstack := M.kstack ++ [f * pageSize] } := by
  have hsub : frameSet M.kstack ⊆ M.phys.inUse := h.shared.subset .kstack
  obtain ⟨hok, hset⟩ := FramesOk.concat (h.part .kstack) hsub hf
  apply @MemOk.step boot top M { M with
    phys := M.phys.take f, kstack := M.kstack ++ [f * pageSize] } .kstack h (by simp) _ rfl
  · intro o ho
    cases o with
    | kstack => exact absurd rfl ho
    | boot => trivial
    | _ => rfl
  · exact fun _ => hok
  · show M.phys.Local (frameSet M.kstack) (frameSet (M.kstack ++ [f * pageSize])) (M.phys.take f)
    rw [hset]
    exact take_local hsub hf

theorem MemOk.takeHeap (h : MemOk boot top M) (hf : f ∈ M.phys.free) :
    MemOk boot top { M with
      phys := M.phys.take f, heap := M.heap ++ [f * pageSize] } := by
  have hsub : frameSet M.heap ⊆ M.phys.inUse := h.shared.subset .heap
  obtain ⟨hok, hset⟩ := FramesOk.concat (h.part .heap) hsub hf
  apply @MemOk.step boot top M { M with
    phys := M.phys.take f, heap := M.heap ++ [f * pageSize] } .heap h (by simp) _ rfl
  · intro o ho
    cases o with
    | heap => exact absurd rfl ho
    | boot => trivial
    | _ => rfl
  · exact fun _ => hok
  · show M.phys.Local (frameSet M.heap) (frameSet (M.heap ++ [f * pageSize])) (M.phys.take f)
    rw [hset]
    exact take_local hsub hf

theorem MemOk.giveHeap (h : MemOk boot top M) (hheap : M.heap = l ++ [f * pageSize]) :
    MemOk boot top { M with phys := pmmFreeFrame M.phys (f * pageSize), heap := l } := by
  have hpart : FramesOk M.phys M.heap := h.part .heap
  have hsub : frameSet M.heap ⊆ M.phys.inUse := h.shared.subset .heap
  have hlast : f * pageSize ∈ M.heap := by
    rw [hheap]
    exact List.mem_append_right _ (List.mem_singleton_self _)
  obtain ⟨g, hg, hfg⟩ := hpart.2 _ hlast
  have hlt : f < M.phys.totalFrames := by
    rwa [Nat.eq_of_mul_eq_mul_right (show 0 < pageSize by decide) hfg]
  have hnodup := hpart.1
  rw [hheap, List.nodup_append] at hnodup
  have hset : frameSet l = frameSet M.heap \ {f} := by
    ext g
    rw [hheap]
    constructor
    · intro hg
      refine ⟨List.mem_append_left _ hg, ?_⟩
      rintro rfl
      exact hnodup.2.2 _ hg _ (List.mem_singleton_self _) rfl
    · rintro ⟨hg, hne⟩
      rcases List.mem_append.mp hg with hg | hg
      · exact hg
      · exact absurd (Nat.eq_of_mul_eq_mul_right (by decide) (List.mem_singleton.mp hg)) hne
  apply @MemOk.step boot top M _ .heap h (by simp) _ (pmmFreeFrame_total _ _)
  · intro o ho
    cases o with
    | heap => exact absurd rfl ho
    | boot => trivial
    | _ => rfl
  · intro _
    refine ⟨hnodup.1, fun a ha => ?_⟩
    rw [pmmFreeFrame_total]
    exact hpart.2 a (by rw [hheap]; exact List.mem_append_left _ ha)
  · show M.phys.Local (frameSet M.heap) (frameSet l) _
    show Ownership.Local _ _ _ _ (pmmFreeFrame M.phys (f * pageSize)).inUse _
      (pmmFreeFrame M.phys (f * pageSize)).ram
    rw [hset, Phys.inUse_free hlt, pmmFreeFrame_ram]
    exact .give hsub hlast

theorem MemOk.map_untouched {phys : ℕ} (h : MemOk boot top M) (hl : kheapStart ≤ v)
    (hr : v < 2 ^ 64) (hm : vmmMapPage M.phys M.pml4 v phys 3 = (ph', b))
    (hi : M.space i = some sp) : Untouched M.phys ph' sp := by
  have hk : KernelOk M.phys M.pml4 top := h.part .tables
  obtain ⟨-, -, hlocal⟩ := hk.map h.phys hl hr hm
  apply Untouched.of_local (h.spaceOk hi) hlocal
  have hapart := h.shared.apart (.space i) .tables (by simp)
  rwa [Memory.own, Memory.own, hi] at hapart

section Bystander

variable {j : ℕ} {sp₀ : Space} (h : MemOk boot top M) (hj : M.space j = some sp₀)

include h hj

theorem MemOk.create_untouched (hc : addressSpaceCreate M.phys M.pml4 = (ph', cr3)) :
    Untouched M.phys ph' sp₀ := by
  have hk : KernelOk M.phys M.pml4 top := h.part .tables
  rcases hk.create h.phys hc with ⟨-, rfl⟩ | ⟨-, -, -, hl⟩
  · exact .of_ram rfl
  · exact .of_local (h.spaceOk hj) hl (Set.disjoint_empty _)

theorem MemOk.space_apart (hij : j ≠ i) (hi : M.space i = some sp) :
    Disjoint (sp₀.frames M.phys) (sp.frames M.phys) := by
  have hapart := h.shared.apart (.space j) (.space i) (by simpa using hij)
  rwa [Memory.own, Memory.own, hi, hj] at hapart

theorem MemOk.acts_untouched (hij : j ≠ i) (hi : M.space i = some sp)
    (ha : Acts M.phys sp ph' sp') : Untouched M.phys ph' sp₀ :=
  .of_local (h.spaceOk hj) ha.own (h.space_apart hj hij hi)

theorem MemOk.destroy_untouched (hij : j ≠ i) (hi : M.space i = some sp) :
    Untouched M.phys (processDestroyUserSpace M.phys sp).1 sp₀ :=
  .of_local (h.spaceOk hj) (processDestroyUserSpace_local (h.spaceOk hi)).1
    (h.space_apart hj hij hi)

end Bystander

theorem Memory.ne_of_none {j : ℕ} (hi : M.space i = none) (hj : M.space j = some sp) : j ≠ i := by
  rintro rfl
  rw [hi] at hj
  cases hj

section Pending

variable {ph : Phys} {j : ℕ} {sp₀ : Space} (h : MemOk boot top M) (hi : M.space i = none)
  (hc : addressSpaceCreate M.phys M.pml4 = (ph, cr3)) (hne : cr3 ≠ 0)
  (hl : SpaceOk ph ⟨cr3, [], 0, 0, 0⟩ → Acts ph ⟨cr3, [], 0, 0, 0⟩ ph' sp')

include h hi hc hne hl

theorem MemOk.pending :
    MemOk boot top { M with phys := ph', space := Function.update M.space i (some sp') } := by
  rcases h.create hi hc with ⟨hz, -⟩ | ⟨-, hm⟩
  · exact absurd hz hne
  · obtain ⟨ph₀, pml4, heap, kstack, space⟩ := M
    dsimp only at hm ⊢
    have hself : Function.update space i (some (⟨cr3, [], 0, 0, 0⟩ : Space)) i =
        some ⟨cr3, [], 0, 0, 0⟩ := Function.update_self ..
    have hacts := @MemOk.acts boot top _ ph' _ sp' i hm hself
      (hl (@MemOk.spaceOk boot top _ _ i hm hself))
    rwa [Function.update_idem] at hacts

theorem MemOk.discard : MemOk boot top { M with phys := (processDestroyUserSpace ph' sp').1 } := by
  have hp := h.pending hi hc hne hl
  obtain ⟨ph₀, pml4, heap, kstack, space⟩ := M
  dsimp only at hp hi ⊢
  have hd := @MemOk.destroy boot top _ sp' i hp (Function.update_self ..)
  rwa [Function.update_idem, ← hi, Function.update_eq_self] at hd

theorem MemOk.replace (hj : M.space j = some sp) : MemOk boot top { M with
    phys := (processDestroyUserSpace ph' sp).1
    space := Function.update M.space j (some sp') } := by
  have hp := h.pending hi hc hne hl
  have hij := Memory.ne_of_none hi hj
  obtain ⟨ph₀, pml4, heap, kstack, space⟩ := M
  dsimp only at hp hi hj ⊢
  have hd := @MemOk.destroy boot top _ sp j hp ((Function.update_of_ne hij _ _).trans hj)
  -- the index of the new space becomes the one of the old
  have hr := hd.rename (Equiv.swap i j)
  have hspace : (fun n => Function.update (Function.update space i (some sp')) j none
      (Equiv.swap i j n)) = Function.update space j (some sp') := by
    funext n
    by_cases hn : n = j
    · rw [hn, Equiv.swap_apply_right, Function.update_of_ne (Ne.symm hij), Function.update_self,
        Function.update_self]
    · rw [Function.update_of_ne hn]
      by_cases hni : n = i
      · rw [hni, Equiv.swap_apply_left, Function.update_self, hi]
      · rw [Equiv.swap_apply_of_ne_of_ne hni hn, Function.update_of_ne hn,
          Function.update_of_ne hni]
  rwa [hspace] at hr

theorem MemOk.pending_untouched (hj : M.space j = some sp₀) : Untouched M.phys ph' sp₀ := by
  have hij := Memory.ne_of_none hi hj
  apply (h.create_untouched hj hc).trans
  rcases h.create hi hc with ⟨hz, -⟩ | ⟨-, hm⟩
  · exact absurd hz hne
  · have hnew : Function.update M.space i (some (⟨cr3, [], 0, 0, 0⟩ : Space)) i =
        some ⟨cr3, [], 0, 0, 0⟩ := Function.update_self ..
    have hold := (Function.update_of_ne hij (some (⟨cr3, [], 0, 0, 0⟩ : Space)) M.space).trans hj
    exact hm.acts_untouched hold hij hnew (hl (@MemOk.spaceOk boot top _ _ i hm hnew))

theorem MemOk.discard_untouched (hj : M.space j = some sp₀) :
    Untouched M.phys (processDestroyUserSpace ph' sp').1 sp₀ := by
  have hij := Memory.ne_of_none hi hj
  have hold := (Function.update_of_ne hij (some sp') M.space).trans hj
  exact (h.pending_untouched hi hc hne hl hj).trans
    ((h.pending hi hc hne hl).destroy_untouched hold hij (Function.update_self ..))

theorem MemOk.replace_untouched {n : ℕ} (hn : M.space n = some sp) (hj : M.space j = some sp₀)
    (hjn : j ≠ n) : Untouched M.phys (processDestroyUserSpace ph' sp).1 sp₀ := by
  have hold := (Function.update_of_ne (Memory.ne_of_none hi hj) (some sp') M.space).trans hj
  have hold' := (Function.update_of_ne (Memory.ne_of_none hi hn) (some sp') M.space).trans hn
  exact (h.pending_untouched hi hc hne hl hj).trans
    ((h.pending hi hc hne hl).destroy_untouched hold hjn hold')

end Pending

/-- Nothing has happened to the processes that are not in `S`. -/
def Memory.Spares (S : Set ℕ) (M M' : Memory) : Prop :=
  ∀ j, j ∉ S → M'.space j = M.space j ∧ ∀ sp, M.space j = some sp → Untouched M.phys M'.phys sp

theorem Memory.Spares.refl (S : Set ℕ) (M : Memory) : M.Spares S M :=
  fun _ _ => ⟨rfl, fun _ _ => .of_ram rfl⟩

theorem Memory.Spares.trans {S : Set ℕ} {M' M'' : Memory} (h : M.Spares S M')
    (h' : M'.Spares S M'') : M.Spares S M'' := by
  intro j hj
  obtain ⟨hs, hu⟩ := h j hj
  obtain ⟨hs', hu'⟩ := h' j hj
  exact ⟨hs'.trans hs, fun sp hsp => (hu sp hsp).trans (hu' sp (hs.trans hsp))⟩

end Ops

end VoidOS.Proc
