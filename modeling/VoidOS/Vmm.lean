import VoidOS.PageTree

namespace VoidOS.Mm

open ByteMem PageTree

def pageSize : ℕ := 4096

def vmmPresent : ℕ := 1
def vmmWrite : ℕ := 2
def vmmUser : ℕ := 4
def vmmNx : ℕ := 2 ^ 63

def writable (pte : ℕ) : Bool := pte.testBit 1
def user (pte : ℕ) : Bool := pte.testBit 2
def huge (pte : ℕ) : Bool := pte.testBit 7
def noExec (pte : ℕ) : Bool := pte.testBit 63

/-- Physical memory, which the kernel reaches at a fixed offset, and the frame bitmap. -/
structure Phys where
  ram : Mem
  used : ℕ → Bool
  totalFrames : ℕ

/-- `pmm_alloc_frame`: the address of the first free frame, or 0. -/
def pmmAllocFrame (ph : Phys) : Phys × ℕ :=
  match (List.range ph.totalFrames).find? fun f => !ph.used f with
  | none => (ph, 0)
  | some f => ({ ph with used := Function.update ph.used f true }, f * pageSize)

def pmmFreeFrame (ph : Phys) (physAddr : ℕ) : Phys :=
  let frame := physAddr / pageSize
  if ph.totalFrames ≤ frame then ph
  else { ph with used := Function.update ph.used frame false }

def pml4Idx (virt : ℕ) : ℕ := virt / 2 ^ 39 % 512
def pdptIdx (virt : ℕ) : ℕ := virt / 2 ^ 30 % 512
def pdIdx (virt : ℕ) : ℕ := virt / 2 ^ 21 % 512
def ptIdx (virt : ℕ) : ℕ := virt / 2 ^ 12 % 512

def allocTable (ph : Phys) : Phys × ℕ :=
  let (ph, frame) := pmmAllocFrame ph
  if frame = 0 then (ph, 0)
  else ({ ph with ram := zeros ph.ram frame pageSize }, frame)

/-- `walk_or_create`: the table under an entry, made if it is absent. -/
def walkOrCreate (ph : Phys) (table index flags : ℕ) : Phys × Option ℕ :=
  if present (entry ph.ram table index) then (ph, some (addr (entry ph.ram table index)))
  else
    let (ph, newFrame) := allocTable ph
    if newFrame = 0 then (ph, none)
    else
      let ram := setEntry ph.ram table index (newFrame ||| flags)
      ({ ph with ram := ram }, some (addr (entry ram table index)))

/-- `vmm_map_page`; the flag says that it returned `VOID_OK`. -/
def vmmMapPage (ph : Phys) (pml4 virt phys flags : ℕ) : Phys × Bool :=
  let tblFlags := if user flags then vmmPresent ||| vmmWrite ||| vmmUser
    else vmmPresent ||| vmmWrite
  match walkOrCreate ph pml4 (pml4Idx virt) tblFlags with
  | (ph, none) => (ph, false)
  | (ph, some pdpt) =>
    match walkOrCreate ph pdpt (pdptIdx virt) tblFlags with
    | (ph, none) => (ph, false)
    | (ph, some pd) =>
      match walkOrCreate ph pd (pdIdx virt) tblFlags with
      | (ph, none) => (ph, false)
      | (ph, some pt) =>
        ({ ph with ram := setEntry ph.ram pt (ptIdx virt) (addr phys ||| flags) }, true)

/-- `vmm_unmap_page`: the frame that was mapped, or 0. -/
def vmmUnmapPage (ph : Phys) (pml4 virt : ℕ) : Phys × ℕ :=
  let pml4e := entry ph.ram pml4 (pml4Idx virt)
  if !present pml4e then (ph, 0)
  else
    let pdpte := entry ph.ram (addr pml4e) (pdptIdx virt)
    if !present pdpte then (ph, 0)
    else
      let pde := entry ph.ram (addr pdpte) (pdIdx virt)
      if !present pde then (ph, 0)
      else
        let pte := entry ph.ram (addr pde) (ptIdx virt)
        if !present pte then (ph, 0)
        else ({ ph with ram := setEntry ph.ram (addr pde) (ptIdx virt) 0 }, addr pte)

/-- `vmm_virt_to_phys`: the physical address, or 0. -/
def vmmVirtToPhys (m : Mem) (pml4 virt : ℕ) : ℕ :=
  let pml4e := entry m pml4 (pml4Idx virt)
  if !present pml4e then 0
  else
    let pdpte := entry m (addr pml4e) (pdptIdx virt)
    if !present pdpte then 0
    else if huge pdpte then (pdpte &&& 0xFFFFC0000000) ||| virt % 2 ^ 30
    else
      let pde := entry m (addr pdpte) (pdIdx virt)
      if !present pde then 0
      else if huge pde then (pde &&& 0xFFFFFFE00000) ||| virt % 2 ^ 21
      else
        let pte := entry m (addr pde) (ptIdx virt)
        if !present pte then 0
        else addr pte ||| virt % 2 ^ 12

/-- `vmm_get_pte`: the raw last entry, that of a huge page included, or 0. -/
def vmmGetPte (m : Mem) (pml4 virt : ℕ) : ℕ :=
  let pml4e := entry m pml4 (pml4Idx virt)
  if !present pml4e then 0
  else
    let pdpte := entry m (addr pml4e) (pdptIdx virt)
    if !present pdpte then 0
    else if huge pdpte then pdpte
    else
      let pde := entry m (addr pdpte) (pdIdx virt)
      if !present pde then 0
      else if huge pde then pde
      else entry m (addr pde) (ptIdx virt)

/-- The indices of the three tables below the root. -/
def tables (virt : ℕ) : List ℕ := [pml4Idx virt, pdptIdx virt, pdIdx virt]

/-- The last-level entry of an address, 0 where there is no last-level table. -/
def leaf (m : Mem) (pml4 virt : ℕ) : ℕ :=
  match walk m pml4 (tables virt) with
  | none => 0
  | some pt => entry m pt (ptIdx virt)

/-- No entry above the last level maps a page by itself. -/
def NoHuge (m : Mem) (pml4 virt : ℕ) : Prop :=
  ∀ p i t, p ++ [i] <+: tables virt → walk m pml4 p = some t → present (entry m t i) = true →
    huge (entry m t i) = false

section Walks

variable {ph : Phys} {m : Mem} {pml4 virt t : ℕ}

theorem indices_eq (virt : ℕ) : indices virt = tables virt ++ [ptIdx virt] := rfl

theorem leaf_of_walk {pt : ℕ} (h : walk m pml4 (tables virt) = some pt) :
    leaf m pml4 virt = entry m pt (ptIdx virt) := by
  rw [leaf, h]

theorem leaf_of_walk_none (h : walk m pml4 (tables virt) = none) : leaf m pml4 virt = 0 := by
  rw [leaf, h]

theorem leaf_congr {v w : ℕ} (h : indices v = indices w) : leaf m pml4 v = leaf m pml4 w := by
  obtain ⟨ht, hi⟩ := List.append_inj' (show tables v ++ [ptIdx v] = tables w ++ [ptIdx w] from h) rfl
  unfold leaf
  rw [ht, List.singleton_inj.mp hi]

/-- The three steps the functions above make before they reach the last-level table. -/
theorem walk_tables {β : Type*} (d : β) (k : ℕ → β) :
    (match walk m pml4 (tables virt) with
      | none => d
      | some pt => k pt) =
    let pml4e := entry m pml4 (pml4Idx virt)
    let pdpte := entry m (addr pml4e) (pdptIdx virt)
    let pde := entry m (addr pdpte) (pdIdx virt)
    if !present pml4e then d else if !present pdpte then d else if !present pde then d
      else k (addr pde) := by
  simp only [tables, walk]
  split_ifs <;> simp_all

theorem vmmGetPte_eq (h : NoHuge m pml4 virt) : vmmGetPte m pml4 virt = leaf m pml4 virt := by
  have h₂ := h [pml4Idx virt] (pdptIdx virt) (addr (entry m pml4 (pml4Idx virt)))
    ⟨[pdIdx virt], rfl⟩
  have h₃ := h [pml4Idx virt, pdptIdx virt] (pdIdx virt)
    (addr (entry m (addr (entry m pml4 (pml4Idx virt))) (pdptIdx virt))) ⟨[], rfl⟩
  rw [leaf, walk_tables]
  unfold vmmGetPte
  simp only [walk] at h₂ h₃
  dsimp only
  split_ifs <;> simp_all

theorem vmmVirtToPhys_eq (h : NoHuge m pml4 virt) : vmmVirtToPhys m pml4 virt =
    if present (leaf m pml4 virt) then addr (leaf m pml4 virt) ||| virt % 2 ^ 12 else 0 := by
  have h₂ := h [pml4Idx virt] (pdptIdx virt) (addr (entry m pml4 (pml4Idx virt)))
    ⟨[pdIdx virt], rfl⟩
  have h₃ := h [pml4Idx virt, pdptIdx virt] (pdIdx virt)
    (addr (entry m (addr (entry m pml4 (pml4Idx virt))) (pdptIdx virt))) ⟨[], rfl⟩
  rw [leaf, walk_tables]
  unfold vmmVirtToPhys
  simp only [walk] at h₂ h₃
  dsimp only
  split_ifs <;> simp_all [not_present_zero]

theorem vmmUnmapPage_eq : vmmUnmapPage ph pml4 virt =
    match walk ph.ram pml4 (tables virt) with
    | none => (ph, 0)
    | some pt =>
      if !present (entry ph.ram pt (ptIdx virt)) then (ph, 0)
      else
        ({ ph with ram := setEntry ph.ram pt (ptIdx virt) 0 },
          addr (entry ph.ram pt (ptIdx virt))) := by
  rw [walk_tables]
  rfl

end Walks

end VoidOS.Mm
