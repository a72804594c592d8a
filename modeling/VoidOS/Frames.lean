import VoidOS.Vmm

namespace VoidOS.Mm

open ByteMem PageTree

/-- The frames that `pmm_alloc_frame` can still hand out. -/
def Phys.free (ph : Phys) : Finset ℕ :=
  (Finset.range ph.totalFrames).filter fun f => ph.used f = false

/-- Frame 0 is reserved and all frames have physical addresses. -/
structure Phys.Ok (ph : Phys) : Prop where
  zero : ph.used 0 = true
  bound : ph.totalFrames * pageSize ≤ 2 ^ 52

section Frames

variable {ph ph' : Phys} {f n a table index flags pml4 virt phys : ℕ} {r : Option ℕ} {b : Bool}

theorem Phys.mem_free : f ∈ ph.free ↔ f < ph.totalFrames ∧ ph.used f = false := by
  rw [Phys.free, Finset.mem_filter, Finset.mem_range]

def Phys.take (ph : Phys) (f : ℕ) : Phys := { ph with used := Function.update ph.used f true }

theorem Phys.used_take : (ph.take f).used n = if n = f then true else ph.used n :=
  Function.update_apply _ _ _ _

theorem pmmAllocFrame_cases (ph : Phys) :
    (ph.free = ∅ ∧ pmmAllocFrame ph = (ph, 0)) ∨
    ∃ f ∈ ph.free, pmmAllocFrame ph = (ph.take f, f * pageSize) := by
  unfold pmmAllocFrame
  cases h : (List.range ph.totalFrames).find? fun f => !ph.used f with
  | none =>
    left
    refine ⟨?_, rfl⟩
    ext f
    rw [Phys.mem_free]
    simp only [Finset.notMem_empty, iff_false, not_and]
    intro hf
    have hu := List.find?_eq_none.mp h f (List.mem_range.mpr hf)
    simpa using hu
  | some f =>
    right
    have hf := List.mem_range.mp (List.mem_of_find?_eq_some h)
    have hu := List.find?_some h
    refine ⟨f, Phys.mem_free.mpr ⟨hf, by simpa using hu⟩, rfl⟩

theorem Phys.Ok.ne_zero (h : ph.Ok) (hf : f ∈ ph.free) : f * pageSize ≠ 0 := by
  intro hc
  have hz : f = 0 := by
    unfold pageSize at hc
    omega
  have hu := (Phys.mem_free.mp hf).2
  rw [hz, h.zero] at hu
  cases hu

theorem Phys.Ok.frame_lt (h : ph.Ok) (hf : f < ph.totalFrames) : f * pageSize + pageSize ≤ 2 ^ 52 := by
  calc f * pageSize + pageSize = (f + 1) * pageSize := (Nat.succ_mul f pageSize).symm
    _ ≤ ph.totalFrames * pageSize := Nat.mul_le_mul_right _ hf
    _ ≤ 2 ^ 52 := h.bound

theorem Phys.Ok.take (h : ph.Ok) (f : ℕ) : (ph.take f).Ok := by
  refine ⟨?_, h.bound⟩
  rw [Phys.used_take]
  split
  · rfl
  · exact h.zero

theorem Phys.free_take : (ph.take f).free = ph.free.erase f := by
  ext n
  rw [Phys.mem_free, Finset.mem_erase, Phys.mem_free, Phys.used_take]
  show n < ph.totalFrames ∧ _ ↔ _
  split
  · rename_i he
    simp [he]
  · rename_i he
    simp [he]

theorem Phys.card_free_take (hf : f ∈ ph.free) : (ph.take f).free.card + 1 = ph.free.card := by
  rw [Phys.free_take]
  exact Finset.card_erase_add_one hf

theorem walkOrCreate_cases (h : ph.Ok) (hf : flags = 3 ∨ flags = 7) :
    (present (entry ph.ram table index) = true ∧
      walkOrCreate ph table index flags = (ph, some (addr (entry ph.ram table index)))) ∨
    (present (entry ph.ram table index) = false ∧ ph.free = ∅ ∧
      walkOrCreate ph table index flags = (ph, none)) ∨
    ∃ f ∈ ph.free, present (entry ph.ram table index) = false ∧
      walkOrCreate ph table index flags = ({ ph.take f with
        ram := setEntry (zeros ph.ram (f * pageSize) pageSize) table index
          (f * pageSize ||| flags) }, some (f * pageSize)) := by
  unfold walkOrCreate
  cases hp : present (entry ph.ram table index) with
  | true => exact Or.inl ⟨rfl, rfl⟩
  | false =>
    right
    unfold allocTable
    rcases pmmAllocFrame_cases ph with ⟨hnone, ha⟩ | ⟨f, hfree, ha⟩
    · left
      rw [ha]
      exact ⟨rfl, hnone, rfl⟩
    · right
      refine ⟨f, hfree, rfl, ?_⟩
      have hlt := h.frame_lt (Phys.mem_free.mp hfree).1
      have hmod : f * pageSize % 4096 = 0 := Nat.mul_mod_left f 4096
      have hw : f * pageSize ||| flags < 2 ^ 64 := by
        apply Nat.or_lt_two_pow
        · unfold pageSize at *
          omega
        · rcases hf with rfl | rfl <;> norm_num
      have haddr : addr (f * pageSize ||| flags) = f * pageSize := by
        apply addr_or hmod
        · unfold pageSize at *
          omega
        · rcases hf with rfl | rfl <;> decide
      rw [ha]
      simp only [Bool.false_eq_true, if_false, h.ne_zero hfree]
      rw [entry_setEntry_self hw, haddr]
      rfl

theorem walkOrCreate_count (h : ph.Ok) (hf : flags = 3 ∨ flags = 7)
    (hr : walkOrCreate ph table index flags = (ph', r)) :
    ph'.Ok ∧ ph'.totalFrames = ph.totalFrames ∧ ph.free.card ≤ ph'.free.card + 1 ∧
      (r = none → ph.free.card = 0) := by
  rcases @walkOrCreate_cases ph table index flags h hf with
    ⟨-, hw⟩ | ⟨-, hnone, hw⟩ | ⟨f, hfree, -, hw⟩
  · rw [hw] at hr
    cases hr
    exact ⟨h, rfl, by omega, fun hc => nomatch hc⟩
  · rw [hw] at hr
    cases hr
    exact ⟨h, rfl, by omega, fun _ => by rw [hnone, Finset.card_empty]⟩
  · rw [hw] at hr
    cases hr
    have hok := h.take f
    have hcard := Phys.card_free_take hfree
    exact ⟨⟨hok.zero, hok.bound⟩, rfl, le_of_eq hcard.symm, fun hc => nomatch hc⟩

theorem vmmMapPage_of_walk {pt : ℕ} (hw : walk ph.ram pml4 (tables virt) = some pt) :
    vmmMapPage ph pml4 virt phys flags =
      ({ ph with ram := setEntry ph.ram pt (ptIdx virt) (addr phys ||| flags) }, true) := by
  have hstep : ∀ t i q a, walk ph.ram t (i :: q) = some a →
      (∀ fl, walkOrCreate ph t i fl = (ph, some (addr (entry ph.ram t i)))) ∧
        walk ph.ram (addr (entry ph.ram t i)) q = some a := by
    intro t i q a h
    rw [walk] at h
    split at h
    · rename_i hp
      exact ⟨fun fl => if_pos hp, h⟩
    · cases h
  obtain ⟨h₁, hw₁⟩ := hstep _ _ _ _ hw
  obtain ⟨h₂, hw₂⟩ := hstep _ _ _ _ hw₁
  obtain ⟨h₃, hw₃⟩ := hstep _ _ _ _ hw₂
  unfold vmmMapPage
  simp only [h₁, h₂, h₃]
  rw [Option.some.inj hw₃]

theorem tblFlags_cases (flags : ℕ) :
    (if user flags then vmmPresent ||| vmmWrite ||| vmmUser else vmmPresent ||| vmmWrite) = 3 ∨
    (if user flags then vmmPresent ||| vmmWrite ||| vmmUser else vmmPresent ||| vmmWrite) = 7 := by
  split
  · exact Or.inr rfl
  · exact Or.inl rfl

/-- Mapping a page costs at most three frames and succeeds if three are free. -/
theorem vmmMapPage_count (h : ph.Ok) (hr : vmmMapPage ph pml4 virt phys flags = (ph', b)) :
    ph'.Ok ∧ ph'.totalFrames = ph.totalFrames ∧ ph.free.card ≤ ph'.free.card + 3 ∧
      (3 ≤ ph.free.card → b = true) := by
  unfold vmmMapPage at hr
  have htbl := tblFlags_cases flags
  dsimp only at hr
  split at hr
  · rename_i hw₁
    obtain ⟨h₁, ht₁, hc₁, hn₁⟩ := walkOrCreate_count h htbl hw₁
    cases hr
    have := hn₁ rfl
    exact ⟨h₁, ht₁, by omega, by omega⟩
  · rename_i hw₁
    obtain ⟨h₁, ht₁, hc₁, -⟩ := walkOrCreate_count h htbl hw₁
    split at hr
    · rename_i hw₂
      obtain ⟨h₂, ht₂, hc₂, hn₂⟩ := walkOrCreate_count h₁ htbl hw₂
      cases hr
      have := hn₂ rfl
      exact ⟨h₂, ht₂.trans ht₁, by omega, by omega⟩
    · rename_i hw₂
      obtain ⟨h₂, ht₂, hc₂, -⟩ := walkOrCreate_count h₁ htbl hw₂
      split at hr
      · rename_i hw₃
        obtain ⟨h₃, ht₃, hc₃, hn₃⟩ := walkOrCreate_count h₂ htbl hw₃
        cases hr
        have := hn₃ rfl
        exact ⟨h₃, ht₃.trans (ht₂.trans ht₁), by omega, by omega⟩
      · rename_i ph₃ pt hw₃
        obtain ⟨h₃, ht₃, hc₃, -⟩ := walkOrCreate_count h₂ htbl hw₃
        cases hr
        refine ⟨⟨h₃.zero, h₃.bound⟩, ht₃.trans (ht₂.trans ht₁), ?_, fun _ => rfl⟩
        show ph.free.card ≤ ph₃.free.card + 3
        omega

end Frames

end VoidOS.Mm
