import VoidOS.AddressSpaces

namespace VoidOS.Mm

open ByteMem PageTree

/-- Where the entries are that `vmm_virt_to_phys` and `vmm_get_pte` read. -/
def walkEntries (m : Mem) (pml4 virt : ℕ) : List ℕ :=
  (pml4 + 8 * pml4Idx virt) ::
    let pml4e := entry m pml4 (pml4Idx virt)
    if !present pml4e then []
    else
      (addr pml4e + 8 * pdptIdx virt) ::
        let pdpte := entry m (addr pml4e) (pdptIdx virt)
        if !present pdpte || huge pdpte then []
        else
          (addr pdpte + 8 * pdIdx virt) ::
            let pde := entry m (addr pdpte) (pdIdx virt)
            if !present pde || huge pde then []
            else [addr pde + 8 * ptIdx virt]

/-- No byte of the buffer is part of an entry that translates an address of the buffer. -/
def ApartFromTables (m : Mem) (cr3 base len : ℕ) : Prop :=
  ∀ v w, InBuffer base len v → InBuffer base len w → ∀ e ∈ walkEntries m cr3 v,
    vmmVirtToPhys m cr3 w < e ∨ e + 8 ≤ vmmVirtToPhys m cr3 w

/-- The pages of the buffer are in distinct frames. -/
def DistinctFrames (m : Mem) (cr3 base len : ℕ) : Prop :=
  ∀ v w, InBuffer base len v → InBuffer base len w →
    vmmVirtToPhys m cr3 v / pageSize = vmmVirtToPhys m cr3 w / pageSize →
    v / pageSize = w / pageSize

def NoFrameZero (m : Mem) (cr3 : ℕ) : Prop :=
  ∀ v, present (vmmGetPte m cr3 v) = true → vmmVirtToPhys m cr3 v / pageSize ≠ 0

def UserRange (m : Mem) (cr3 base len : ℕ) (needWrite : Bool) : Prop :=
  0 < len ∧ base + len ≤ userLimit ∧
    ∀ v, InBuffer base len v → pageOk (vmmGetPte m cr3 v) needWrite = true

/-- The loop of `copy_from_user` with the buffer it fills. -/
def copyIntoFrom (m : Mem) (cr3 usrc len : ℕ) : ℕ → ℕ → Mem → Mem × Bool
  | 0, _, dst => (dst, true)
  | fuel + 1, done, dst =>
    if len ≤ done then (dst, true)
    else
      let chunk := chunkAt usrc len done
      let phys := vmmVirtToPhys m cr3 (usrc + done)
      if phys = 0 then (dst, false)
      else copyIntoFrom m cr3 usrc len fuel (done + chunk)
        (blit dst done ((List.range chunk).map fun i => m (phys + i)))

/-- `copy_from_user` with the kernel buffer it fills, a memory that starts at 0. -/
def copyIntoUser (m : Mem) (cr3 usrc len : ℕ) (dst : Mem) : Mem × Bool :=
  if !userRangeOk m cr3 usrc len false then (dst, false)
  else copyIntoFrom m cr3 usrc len len 0 dst

section Copies

variable {m m' m₀ dst : Mem} {cr3 v base len done fuel a : ℕ} {src bytes xs ys : List UInt8}
  {needWrite : Bool} {A : ℕ → Prop}

theorem translation_of_entries
    (h : ∀ e ∈ walkEntries m cr3 v, ∀ x, e ≤ x → x < e + 8 → m' x = m x) :
    translation m' cr3 v = translation m cr3 v := by
  have hread : ∀ t i, t + 8 * i ∈ walkEntries m cr3 v → entry m' t i = entry m t i :=
    fun t i hmem => word_congr (h _ hmem)
  have e₁ := hread cr3 (pml4Idx v) (by simp [walkEntries])
  unfold translation vmmVirtToPhys vmmGetPte
  simp only [e₁]
  by_cases p₁ : present (entry m cr3 (pml4Idx v)) = true
  swap
  · simp [p₁]
  have e₂ := hread (addr (entry m cr3 (pml4Idx v))) (pdptIdx v) (by simp [walkEntries, p₁])
  simp only [e₂]
  by_cases p₂ : present (entry m (addr (entry m cr3 (pml4Idx v))) (pdptIdx v)) = true
  swap
  · simp [p₁, p₂]
  by_cases g₂ : huge (entry m (addr (entry m cr3 (pml4Idx v))) (pdptIdx v)) = true
  · simp [p₁, p₂, g₂]
  have e₃ := hread (addr (entry m (addr (entry m cr3 (pml4Idx v))) (pdptIdx v))) (pdIdx v)
    (by simp [walkEntries, p₁, p₂, g₂])
  simp only [e₃]
  by_cases p₃ : present (entry m (addr (entry m (addr (entry m cr3 (pml4Idx v))) (pdptIdx v)))
      (pdIdx v)) = true
  swap
  · simp [p₁, p₂, g₂, p₃]
  by_cases g₃ : huge (entry m (addr (entry m (addr (entry m cr3 (pml4Idx v))) (pdptIdx v)))
      (pdIdx v)) = true
  · simp [p₁, p₂, g₂, p₃, g₃]
  have e₄ := hread _ (ptIdx v) (by simp [walkEntries, p₁, p₂, g₂, p₃, g₃] :
    addr (entry m (addr (entry m (addr (entry m cr3 (pml4Idx v))) (pdptIdx v))) (pdIdx v)) +
      8 * ptIdx v ∈ walkEntries m cr3 v)
  simp only [e₄]

theorem userRangeOk_range : userRangeOk m cr3 base len needWrite = true ↔
    UserRange m cr3 base len needWrite := by
  rw [userRangeOk_iff]
  refine and_congr_right fun _ => and_congr_right fun _ => ?_
  constructor
  · intro h v hv
    obtain ⟨i, rfl⟩ := Nat.exists_eq_add_of_le hv.1
    exact h i (Nat.lt_of_add_lt_add_left hv.2)
  · intro h i hi
    exact h _ (InBuffer.add base hi)

theorem UserRange.mapped (h : UserRange m cr3 base len needWrite) (hzero : NoFrameZero m cr3)
    (hv : InBuffer base len v) : vmmVirtToPhys m cr3 v ≠ 0 := by
  have hok := h.2.2 v hv
  unfold pageOk at hok
  rw [Bool.and_eq_true, Bool.and_eq_true] at hok
  intro hc
  exact hzero v hok.1.1 (by rw [hc, Nat.zero_div])

theorem copyIntoFrom_eq (h : copyInFrom m cr3 base len fuel done = some bytes) :
    copyIntoFrom m cr3 base len fuel done dst = (blit dst done bytes, true) := by
  induction fuel generalizing done bytes dst with
  | zero =>
    cases h
    rw [blit_nil]
    rfl
  | succ fuel ih =>
    rw [copyInFrom] at h
    rw [copyIntoFrom]
    by_cases hend : len ≤ done
    · rw [if_pos hend] at h ⊢
      cases h
      rw [blit_nil]
    · rw [if_neg hend] at h ⊢
      dsimp only at h ⊢
      by_cases hz : vmmVirtToPhys m cr3 (base + done) = 0
      · rw [if_pos hz] at h
        cases h
      · rw [if_neg hz] at h ⊢
        obtain ⟨rest, hrest, rfl⟩ := Option.map_eq_some_iff.mp h
        rw [ih hrest, ← blit_append, List.length_map, List.length_range]

theorem copyIntoUser_eq (hzero : NoFrameZero m cr3) : copyIntoUser m cr3 base len dst =
    if userRangeOk m cr3 base len false then (blit dst 0 (userBytes m cr3 base len), true)
    else (dst, false) := by
  unfold copyIntoUser
  by_cases hok : userRangeOk m cr3 base len false = true
  · have hmapped : Mapped m cr3 base len := fun i hi =>
      (userRangeOk_range.mp hok).mapped hzero (InBuffer.add base hi)
    rw [hok, Bool.not_true, if_neg Bool.false_ne_true, if_pos rfl,
      copyIntoFrom_eq (copyInFrom_eq hmapped (by omega))]
    rfl
  · rw [if_neg hok, if_pos (by simpa using hok)]

/-- What the loop of `copy_to_user` needs to succeed: stores to the addresses change no
translation of them. -/
theorem ApartFromTables.stable (h : ApartFromTables m cr3 base len)
    (hsame : SameOutside m m' cr3 (InBuffer base len)) (hv : InBuffer base len v) :
    translation m' cr3 v = translation m cr3 v := by
  apply translation_of_entries
  intro e he x hl hr
  apply hsame
  intro w hw hx
  have := h v w hv hw e he
  omega

theorem copyOutFrom_outside (h : ApartFromTables m₀ cr3 base src.length)
    (hmapped : Mapped m₀ cr3 base src.length)
    (hsame : SameOutside m₀ m cr3 (InBuffer base src.length)) :
    (copyOutFrom cr3 base src fuel done m).2 = true ∧
      SameOutside m₀ (copyOutFrom cr3 base src fuel done m).1 cr3 (InBuffer base src.length) := by
  induction fuel generalizing done m with
  | zero => exact ⟨rfl, hsame⟩
  | succ fuel ih =>
    rw [copyOutFrom]
    by_cases hend : src.length ≤ done
    · rw [if_pos hend]
      exact ⟨rfl, hsame⟩
    · rw [Nat.not_le] at hend
      have hphys : vmmVirtToPhys m cr3 (base + done) = vmmVirtToPhys m₀ cr3 (base + done) :=
        congrArg Prod.fst (h.stable hsame (InBuffer.add base hend))
      rw [if_neg (by omega)]
      dsimp only
      rw [hphys, if_neg (hmapped done hend)]
      apply ih
      -- the bytes of the round are bytes of the buffer
      obtain ⟨-, hle, hpage⟩ := chunkAt_spec base hend
      intro x hx
      rw [blit_apply, hsame x hx]
      by_contra hin
      rw [List.length_take, List.length_drop] at hin
      obtain ⟨k, rfl⟩ := Nat.exists_eq_add_of_le
        (by omega : vmmVirtToPhys m₀ cr3 (base + done) ≤ x)
      apply hx (base + done + k) ⟨by omega, by omega⟩
      exact (vmmVirtToPhys_add (hmapped done hend) (hpage k (by omega))).symm

theorem DistinctFrames.inj (h : DistinctFrames m cr3 base len) (hmapped : Mapped m cr3 base len)
    {v w : ℕ} (hv : InBuffer base len v) (hw : InBuffer base len w)
    (he : vmmVirtToPhys m cr3 v = vmmVirtToPhys m cr3 w) : v = w := by
  -- on one page the translations differ by the offset
  have hle : ∀ {v w}, InBuffer base len v → v / pageSize = w / pageSize → v ≤ w →
      vmmVirtToPhys m cr3 v = vmmVirtToPhys m cr3 w → v = w := by
    intro v w hv hpage hvw he
    obtain ⟨i, rfl⟩ := Nat.exists_eq_add_of_le hvw
    obtain ⟨k, rfl⟩ := Nat.exists_eq_add_of_le hv.1
    have hk := hmapped k (Nat.lt_of_add_lt_add_left hv.2)
    rw [vmmVirtToPhys_add hk (by unfold pageSize at hpage ⊢; omega)] at he
    omega
  have hpage := h v w hv hw (by rw [he])
  rcases Nat.le_total v w with hvw | hvw
  · exact hle hv hpage hvw he
  · exact (hle hw hpage.symm hvw he.symm).symm

/-- With distinct frames, apart from the tables, the buffer can be written through. -/
theorem ApartFromTables.private (h : ApartFromTables m cr3 base len)
    (hd : DistinctFrames m cr3 base len) (hmapped : Mapped m cr3 base len) :
    Private m cr3 (InBuffer base len) := by
  refine ⟨fun v hv => ?_, fun v w => hd.inj hmapped, fun m' hsame v hv => ?_⟩
  · obtain ⟨k, rfl⟩ := Nat.exists_eq_add_of_le hv.1
    exact hmapped k (Nat.lt_of_add_lt_add_left hv.2)
  · exact Prod.ext_iff.mp (h.stable hsame hv)

end Copies

/-- The two copies are exact and write all of the buffer or nothing, where no byte that
`copy_to_user` stores is part of an entry that translates the buffer. -/
theorem user_copies_exact {m : Mem} {cr3 : ℕ} (hzero : NoFrameZero m cr3) (base : ℕ) :
    (∀ len dst,
      ((copyIntoUser m cr3 base len dst).2 = true ↔ UserRange m cr3 base len false) ∧
      ((copyIntoUser m cr3 base len dst).2 = true → ∀ i,
        (copyIntoUser m cr3 base len dst).1 i =
          if i < len then userByte m cr3 (base + i) else dst i) ∧
      ((copyIntoUser m cr3 base len dst).2 = false → (copyIntoUser m cr3 base len dst).1 = dst)) ∧
    ∀ src : List UInt8, ApartFromTables m cr3 base src.length →
      ((copyToUser m cr3 base src).2 = true ↔ UserRange m cr3 base src.length true) ∧
      ((copyToUser m cr3 base src).2 = true →
        SameOutside m (copyToUser m cr3 base src).1 cr3 (InBuffer base src.length) ∧
        (DistinctFrames m cr3 base src.length →
          userBytes (copyToUser m cr3 base src).1 cr3 base src.length = src)) ∧
      ((copyToUser m cr3 base src).2 = false → (copyToUser m cr3 base src).1 = m) := by
  constructor
  · intro len dst
    rw [copyIntoUser_eq hzero, ← userRangeOk_range]
    by_cases hok : userRangeOk m cr3 base len false = true
    · simp only [hok, if_true, Bool.true_eq_false, false_implies, and_true, true_and,
        true_implies]
      intro i
      unfold blit userBytes
      rw [List.length_map, List.length_range]
      by_cases hi : i < len
      · simp [hi]
      · simp [hi]
    · simp [hok]
  · intro src hapart
    rw [← userRangeOk_range]
    by_cases hok : userRangeOk m cr3 base src.length true = true
    · have hmapped : Mapped m cr3 base src.length := fun i hi =>
        (userRangeOk_range.mp hok).mapped hzero (InBuffer.add base hi)
      have hloop : copyToUser m cr3 base src = copyOutFrom cr3 base src src.length 0 m := by
        rw [copyToUser, hok, Bool.not_true, if_neg Bool.false_ne_true]
      obtain ⟨htrue, hsame⟩ := @copyOutFrom_outside m m cr3 base 0 src.length src hapart hmapped
        fun _ _ => rfl
      rw [← hloop] at htrue hsame
      refine ⟨⟨fun _ => hok, fun _ => htrue⟩, fun _ => ⟨hsame, fun hd => ?_⟩, fun h => ?_⟩
      · have hpriv := hapart.private hd hmapped
        exact (copyToUser_stored src hok hpriv).2.userBytes (B := fun _ => False) hpriv
          (fun _ h => h) (fun _ _ => rfl) (fun _ h => h.elim)
      · exact absurd (htrue.symm.trans h) (by decide)
    · have hfail : copyToUser m cr3 base src = (m, false) := by
        rw [copyToUser, if_pos (by simpa using hok)]
      rw [hfail]
      exact ⟨⟨(absurd · Bool.false_ne_true), (absurd · hok)⟩, (absurd · Bool.false_ne_true),
        fun _ => rfl⟩

/-- Two user pages: the last-level table itself, and the frame after it. -/
def selfMapMem : Mem := twoPageMem 0x4007 0x5007

section SelfMap

variable {v : ℕ}

theorem selfMapMem_pages (h : present (vmmGetPte selfMapMem 0x1000 v) = true) :
    (v / pageSize % 2 ^ 36 = 0x5FE ∧ vmmVirtToPhys selfMapMem 0x1000 v / pageSize = 4) ∨
      (v / pageSize % 2 ^ 36 = 0x5FF ∧ vmmVirtToPhys selfMapMem 0x1000 v / pageSize = 5) := by
  have htr := @twoPageMem_translation 0x4007 0x5007 v (by decide) (by decide)
  have hleaf := @twoPageMem_leaf 0x4007 0x5007 v (by decide) (by decide)
  have hpte : vmmGetPte selfMapMem 0x1000 v = _ := congrArg Prod.snd htr
  have hphys : vmmVirtToPhys selfMapMem 0x1000 v = _ := congrArg Prod.fst htr
  have hoff : v % pageSize < pageSize := Nat.mod_lt _ (by decide)
  dsimp only at hpte hphys
  rw [hpte] at h
  rw [hphys, if_pos h]
  rw [hleaf] at h ⊢
  by_cases h₁ : v / pageSize % 2 ^ 36 = 0x5FE
  · rw [if_pos h₁, show addr 0x4007 = 4 * pageSize by decide]
    exact Or.inl ⟨h₁, div_page (by omega) (by omega)⟩
  rw [if_neg h₁] at h ⊢
  by_cases h₂ : v / pageSize % 2 ^ 36 = 0x5FF
  · rw [if_pos h₂, show addr 0x5007 = 5 * pageSize by decide]
    exact Or.inr ⟨h₂, div_page (by omega) (by omega)⟩
  · rw [if_neg h₂] at h
    exact absurd h (by decide)

theorem selfMapMem_noZero : NoFrameZero selfMapMem 0x1000 := by
  intro v hv
  rcases selfMapMem_pages hv with ⟨-, h⟩ | ⟨-, h⟩
  · omega
  · omega

end SelfMap

theorem user_copies_exact_page :
    (copyToUser selfMapMem 0x1000 0x5FF000 [1, 2, 3]).2 = true ∧
      userBytes (copyToUser selfMapMem 0x1000 0x5FF000 [1, 2, 3]).1 0x1000 0x5FF000 3 = [1, 2, 3] := by
  have hin : ∀ v, InBuffer 0x5FF000 3 v → v = 0x5FF000 ∨ v = 0x5FF001 ∨ v = 0x5FF002 := by
    intro v hv
    unfold InBuffer at hv
    omega
  have hapart : ApartFromTables selfMapMem 0x1000 0x5FF000 3 := by
    intro v w hv hw
    rcases hin v hv with rfl | rfl | rfl <;> rcases hin w hw with rfl | rfl | rfl <;>
      decide +kernel
  have hd : DistinctFrames selfMapMem 0x1000 0x5FF000 3 := by
    intro v w hv hw _
    rcases hin v hv with rfl | rfl | rfl <;> rcases hin w hw with rfl | rfl | rfl <;> rfl
  have htrue : (copyToUser selfMapMem 0x1000 0x5FF000 [1, 2, 3]).2 = true := by decide +kernel
  exact ⟨htrue, (((user_copies_exact selfMapMem_noZero 0x5FF000).2 [1, 2, 3] hapart).2.1 htrue).2 hd⟩

/-- A buffer that ends the page of the table and goes on in the next one: the first round clears
the entry of the next page, and the call fails after it has written 8 bytes. -/
theorem copy_over_own_table :
    NoFrameZero selfMapMem 0x1000 ∧
    UserRange selfMapMem 0x1000 0x5FEFF8 9 true ∧ DistinctFrames selfMapMem 0x1000 0x5FEFF8 9 ∧
    (copyToUser selfMapMem 0x1000 0x5FEFF8 (List.replicate 9 0)).2 = false ∧
    (copyToUser selfMapMem 0x1000 0x5FEFF8 (List.replicate 9 0)).1 ≠ selfMapMem := by
  have hrange : UserRange selfMapMem 0x1000 0x5FEFF8 9 true :=
    userRangeOk_range.mp (by decide +kernel)
  refine ⟨selfMapMem_noZero, hrange, ?_, by decide +kernel, ?_⟩
  · intro v w hv hw he
    have hpage : ∀ u, InBuffer 0x5FEFF8 9 u →
        u / pageSize = vmmVirtToPhys selfMapMem 0x1000 u / pageSize + 0x5FA := by
      intro u hu
      have hok := hrange.2.2 u hu
      rw [pageOk, Bool.and_eq_true, Bool.and_eq_true] at hok
      have hlt : u / pageSize < 2 ^ 36 := by
        unfold InBuffer at hu
        unfold pageSize
        omega
      rcases selfMapMem_pages hok.1.1 with ⟨h, h'⟩ | ⟨h, h'⟩ <;>
        rw [Nat.mod_eq_of_lt hlt] at h <;> rw [h, h']
    rw [hpage v hv, hpage w hw, he]
  · intro hc
    exact absurd (congrFun hc 0x4FF8) (by decide +kernel)

end VoidOS.Mm
