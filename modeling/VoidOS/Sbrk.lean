import VoidOS.Process
import VoidOS.Transition

namespace VoidOS.Libc

open Transition Mm Proc

def toLong (v : ℤ) : ℤ := Int.bmod v (2 ^ 64)

/-- A process as its own code sees it: its memory and, for each translation unit that includes
`void.h`, the break cache of that unit. -/
structure User where
  phys : Phys
  space : Space
  brkCache : ℕ → ℤ

def sysBrk (u : User) (addr : ℤ) : User × ℤ :=
  let (ph, sp, r) := Mm.sysBrk u.phys u.space (toU64 addr)
  ({ u with phys := ph, space := sp }, toLong r)

/-- The first lines of `sys_sbrk`: the cache of the unit, filled if it is 0. -/
def fillCache (u : User) (tu : ℕ) : Option User :=
  if u.brkCache tu = 0 then
    let (u, zero) := sysBrk u 0
    if zero ≤ 0 then none else some { u with brkCache := Function.update u.brkCache tu zero }
  else some u

/-- The rest of `sys_sbrk`. The sum wraps as the machine's does. -/
def moveBreak (u : User) (tu : ℕ) (inc : ℤ) : User × ℤ :=
  let old := u.brkCache tu
  let nb := toLong (old + inc)
  if nb < 0 then (u, -1)
  else
    let (u, r) := sysBrk u nb
    if r ≠ nb then (u, -1) else ({ u with brkCache := Function.update u.brkCache tu nb }, old)

def sysSbrk (u : User) (tu : ℕ) (inc : ℤ) : User × ℤ :=
  if inc = 0 then sysBrk u 0
  else
    match fillCache u tu with
    | none => (u, -1)
    | some u => moveBreak u tu inc

inductive BrkOp
  | brk (addr : ℤ)
  | sbrk (tu : ℕ) (inc : ℤ)

def brkStep (u : User) : BrkOp → Option User
  | .brk addr => some (sysBrk u addr).1
  | .sbrk tu inc => some (sysSbrk u tu inc).1

/-- A process whose image ends in the user half, before it has touched its break. -/
def Loaded (u : User) : Prop :=
  u.brkCache = (fun _ => 0) ∧ ∃ nxOk sp imageEnd, imageEnd ≤ userLimit ∧
    u.space = brkInit nxOk sp imageEnd

section Kernel

variable {ph ph' : Phys} {sp sp' : Space} {flags n va addr : ℕ} {b : Bool} {r : ℤ}

theorem processMapUser_brk {virt phys : ℕ}
    (h : processMapUser ph sp virt phys flags = (ph', sp', b)) :
    sp'.heapStart = sp.heapStart ∧ sp'.brkCurrent = sp.brkCurrent ∧ (b = true → virt < userLimit) := by
  unfold processMapUser at h
  split_ifs at h with hlim hfull
  · cases h
    exact ⟨rfl, rfl, fun hc => nomatch hc⟩
  · cases h
    exact ⟨rfl, rfl, fun hc => nomatch hc⟩
  · split at h <;> cases h <;> exact ⟨rfl, rfl, fun _ => Nat.not_le.mp hlim⟩

theorem processAllocUserPage_brk (h : processAllocUserPage ph sp va flags = (ph', sp', b)) :
    sp'.heapStart = sp.heapStart ∧ sp'.brkCurrent = sp.brkCurrent ∧ (b = true → va < userLimit) := by
  unfold processAllocUserPage at h
  dsimp only at h
  split_ifs at h
  · cases h
    exact ⟨rfl, rfl, fun hc => nomatch hc⟩
  · split at h
    · rename_i hm
      cases h
      exact processMapUser_brk hm
    · rename_i hm
      cases h
      obtain ⟨h₁, h₂, -⟩ := processMapUser_brk hm
      exact ⟨h₁, h₂, fun hc => nomatch hc⟩

theorem allocPages_brk (h : allocPages flags n va ph sp = (ph', sp', b)) :
    sp'.heapStart = sp.heapStart ∧ sp'.brkCurrent = sp.brkCurrent ∧
      (b = true → ∀ i < n, va + i * pageSize < userLimit) := by
  induction n generalizing va ph sp with
  | zero =>
    cases h
    exact ⟨rfl, rfl, fun _ i hi => absurd hi (Nat.not_lt_zero i)⟩
  | succ n ih =>
    rw [allocPages] at h
    split at h
    · rename_i hm
      cases h
      obtain ⟨h₁, h₂, -⟩ := processAllocUserPage_brk hm
      exact ⟨h₁, h₂, fun hc => nomatch hc⟩
    · rename_i hm
      obtain ⟨h₁, h₂, h₃⟩ := processAllocUserPage_brk hm
      obtain ⟨h₄, h₅, h₆⟩ := ih h
      refine ⟨h₄.trans h₁, h₅.trans h₂, ?_⟩
      intro hb i hi
      cases i with
      | zero =>
        have hva := h₃ rfl
        omega
      | succ i =>
        have hva := h₆ hb i (by omega)
        rw [add_mul, one_mul]
        omega

theorem umReleaseFrom_brk (start : ℕ) :
    (umReleaseFrom ph sp start).2.heapStart = sp.heapStart ∧
      (umReleaseFrom ph sp start).2.brkCurrent = sp.brkCurrent := by
  have hloop : ∀ (fuel i : ℕ) (ph : Phys) (sp : Space),
      (umReleaseLoop start fuel i ph sp).2.heapStart = sp.heapStart ∧
      (umReleaseLoop start fuel i ph sp).2.brkCurrent = sp.brkCurrent := by
    intro fuel
    induction fuel with
    | zero => exact fun _ _ _ => ⟨rfl, rfl⟩
    | succ fuel ih =>
      intro i ph sp
      rw [umReleaseLoop]
      split
      · exact ⟨rfl, rfl⟩
      · split
        · exact ih i _ _
        · exact ih (i + 1) ph sp
  exact hloop _ _ _ _

structure BreakOk (sp : Space) : Prop where
  le : sp.heapStart ≤ sp.brkCurrent
  lt : sp.brkCurrent < 2 ^ 48

/-- What a call of `sys_brk` answers: an error, or the break it leaves, which is the old one or
the one asked for. -/
theorem sysBrk_cases (hok : sp.heapStart ≠ 0 → BreakOk sp)
    (hr : Mm.sysBrk ph sp addr = (ph', sp', r)) :
    sp'.heapStart = sp.heapStart ∧ (sp.heapStart ≠ 0 → BreakOk sp') ∧
      ((r < 0 ∧ -22 ≤ r ∧ sp'.brkCurrent = sp.brkCurrent) ∨
        (sp.heapStart ≠ 0 ∧ r = sp'.brkCurrent ∧
          (sp'.brkCurrent = sp.brkCurrent ∨ sp'.brkCurrent = addr))) := by
  unfold Mm.sysBrk at hr
  split_ifs at hr with h₀ h₁ h₂
  · cases hr
    exact ⟨rfl, hok, Or.inl ⟨by decide, by decide, rfl⟩⟩
  · cases hr
    exact ⟨rfl, hok, Or.inr ⟨h₀, rfl, Or.inl rfl⟩⟩
  · cases hr
    exact ⟨rfl, hok, Or.inr ⟨h₀, rfl, Or.inl rfl⟩⟩
  · have hb := hok h₀
    have hset : ∀ ph₁ sp₁ r₁, umBrkSet ph sp addr = (ph₁, sp₁, r₁) →
        sp₁.heapStart = sp.heapStart ∧ BreakOk sp₁ ∧
          ((r₁ = veNomem ∧ sp₁.brkCurrent = sp.brkCurrent) ∨
            (r₁ = 0 ∧ sp₁.brkCurrent = addr)) := by
      intro ph₁ sp₁ r₁ hs
      unfold umBrkSet at hs
      rw [if_neg h₀, if_neg h₂] at hs
      split_ifs at hs with hgrow hshrink
      · split at hs
        · rename_i hg
          cases hs
          obtain ⟨h₃, h₄, -⟩ := allocPages_brk hg
          exact ⟨h₃, ⟨by rw [h₃, h₄]; exact hb.le, by rw [h₄]; exact hb.lt⟩, Or.inl ⟨rfl, h₄⟩⟩
        · rename_i hg
          cases hs
          obtain ⟨h₃, -, h₅⟩ := allocPages_brk hg
          refine ⟨h₃, ⟨?_, ?_⟩, Or.inr ⟨rfl, rfl⟩⟩
          · exact le_of_eq_of_le h₃ (Nat.not_lt.mp h₂)
          · -- the last page of the growth is below the limit
            show addr < 2 ^ 48
            have hn := h₅ rfl (pagesTo sp.brkCurrent addr - 1)
            unfold pagesTo pageSize userLimit at hn
            omega
      · cases hs
        obtain ⟨h₃, -⟩ := @umReleaseFrom_brk ph sp (pageDown (ByteMem.add64 addr (pageSize - 1)))
        have hlt := hb.lt
        exact ⟨h₃, ⟨le_of_eq_of_le h₃ (Nat.not_lt.mp h₂), hshrink.trans hlt⟩, Or.inr ⟨rfl, rfl⟩⟩
      · cases hs
        exact ⟨rfl, hb, Or.inr ⟨rfl, by omega⟩⟩
    split at hr
    · rename_i hs
      cases hr
      obtain ⟨h₃, h₄, h₅⟩ := hset _ _ _ hs
      rcases h₅ with ⟨hc, -⟩ | ⟨-, h₅⟩
      · cases hc
      · exact ⟨h₃, fun _ => h₄, Or.inr ⟨h₀, rfl, Or.inr h₅⟩⟩
    · rename_i hne hs
      cases hr
      obtain ⟨h₃, h₄, h₅⟩ := hset _ _ _ hs
      rcases h₅ with ⟨hc, h₅⟩ | ⟨hc, -⟩
      · rw [hc]
        exact ⟨h₃, fun _ => h₄, Or.inl ⟨by decide, by decide, h₅⟩⟩
      · exact absurd hc hne

end Kernel

section Agreement

variable {u u' : User} {tu : ℕ} {inc addr r : ℤ}

structure UserOk (u : User) : Prop where
  brk : u.space.heapStart ≠ 0 → BreakOk u.space
  cache : ∀ tu, 0 ≤ u.brkCache tu ∧ u.brkCache tu < 2 ^ 63

theorem toLong_of_lt {v : ℤ} (h₀ : -2 ^ 63 ≤ v) (h₁ : v < 2 ^ 63) : toLong v = v := by
  unfold toLong
  apply Int.bmod_eq_of_le_mul_two <;> omega

theorem toU64_of_lt {v : ℤ} (h₀ : 0 ≤ v) (h₁ : v < 2 ^ 64) : (toU64 v : ℤ) = v := by
  unfold toU64
  rw [Int.emod_eq_of_lt h₀ h₁, Int.toNat_of_nonneg h₀]

theorem toLong_lt (v : ℤ) : toLong v < 2 ^ 63 := by
  have h := Int.bmod_lt (x := v) (m := 2 ^ 64) (by norm_num)
  unfold toLong
  norm_num at h ⊢
  exact h

theorem brk_cases (h : UserOk u) (h₀ : 0 ≤ addr) (h₁ : addr < 2 ^ 63)
    (hr : sysBrk u addr = (u', r)) :
    UserOk u' ∧ u'.brkCache = u.brkCache ∧
      ((r < 0 ∧ u'.space.brkCurrent = u.space.brkCurrent) ∨
        (u.space.heapStart ≠ 0 ∧ r = u'.space.brkCurrent ∧
          (u'.space.brkCurrent = u.space.brkCurrent ∨ (u'.space.brkCurrent : ℤ) = addr))) := by
  unfold sysBrk at hr
  generalize hs : Mm.sysBrk u.phys u.space (toU64 addr) = s at hr
  obtain ⟨ph, sp, v⟩ := s
  cases hr
  obtain ⟨hstart, hok, hcase⟩ := sysBrk_cases h.brk hs
  refine ⟨⟨fun hne => hok (by rw [← hstart]; exact hne), h.cache⟩, rfl, ?_⟩
  rcases hcase with ⟨hneg, hle, hcur⟩ | ⟨hne, rfl, hcur⟩
  · left
    rw [toLong_of_lt (by omega) (by omega)]
    exact ⟨hneg, hcur⟩
  · right
    have hlt := (hok hne).lt
    refine ⟨hne, toLong_of_lt (by omega) (by omega), ?_⟩
    rcases hcur with hcur | hcur
    · exact Or.inl hcur
    · right
      rw [hcur, toU64_of_lt h₀ (by omega)]

theorem UserOk.sysBrk (h : UserOk u) (addr : ℤ) : UserOk (sysBrk u addr).1 := by
  obtain ⟨hstart, hok, -⟩ := sysBrk_cases h.brk
    (show Mm.sysBrk u.phys u.space (toU64 addr) = (_, _, _) from rfl)
  refine ⟨?_, h.cache⟩
  intro hne
  apply hok
  rw [← hstart]
  exact hne

theorem UserOk.setCache (h : UserOk u) {v : ℤ} (h₀ : 0 ≤ v) (h₁ : v < 2 ^ 63) :
    UserOk { u with brkCache := Function.update u.brkCache tu v } := by
  refine ⟨h.brk, ?_⟩
  intro tu'
  show 0 ≤ Function.update u.brkCache tu v tu' ∧ Function.update u.brkCache tu v tu' < 2 ^ 63
  rw [Function.update_apply]
  split
  · exact ⟨h₀, h₁⟩
  · exact h.cache tu'

/-- A cache that was empty now holds the break, and nothing else has changed. -/
theorem fillCache_some (h : UserOk u) (hf : fillCache u tu = some u') :
    UserOk u' ∧ u'.space.brkCurrent = u.space.brkCurrent ∧
      u'.brkCache tu = if u.brkCache tu = 0 then (u.space.brkCurrent : ℤ) else u.brkCache tu := by
  unfold fillCache at hf
  split at hf
  · rename_i hz
    generalize hs : sysBrk u 0 = s at hf
    obtain ⟨u₁, zero⟩ := s
    obtain ⟨hok, -, hcase⟩ := brk_cases h le_rfl (by norm_num) hs
    dsimp only at hf
    split_ifs at hf with hle
    cases hf
    rcases hcase with ⟨hneg, -⟩ | ⟨hne, rfl, hcur⟩
    · omega
    · have hcur' : u₁.space.brkCurrent = u.space.brkCurrent := by
        rcases hcur with hcur | hcur
        · exact hcur
        · omega
      have hlt : u₁.space.brkCurrent < 2 ^ 48 := by
        rw [hcur']
        exact (h.brk hne).lt
      refine ⟨hok.setCache (by omega) (by omega), hcur', ?_⟩
      show Function.update u₁.brkCache tu _ tu = _
      rw [Function.update_self, if_pos hz, hcur']
  · rename_i hz
    cases hf
    exact ⟨h, rfl, (if_neg hz).symm⟩

theorem moveBreak_spec (h : UserOk u) (hlo : -2 ^ 63 ≤ inc) (hhi : inc < 2 ^ 63)
    (hm : moveBreak u tu inc = (u', r)) :
    UserOk u' ∧ (r ≠ -1 → r = u.brkCache tu ∧ (u'.space.brkCurrent : ℤ) = u.brkCache tu + inc) := by
  obtain ⟨hc₀, hc₁⟩ := h.cache tu
  unfold moveBreak at hm
  dsimp only at hm
  by_cases hneg : toLong (u.brkCache tu + inc) < 0
  · rw [if_pos hneg] at hm
    cases hm
    exact ⟨h, fun hc => absurd rfl hc⟩
  · rw [if_neg hneg] at hm
    generalize hs : sysBrk u (toLong (u.brkCache tu + inc)) = s at hm
    obtain ⟨u₁, r₁⟩ := s
    dsimp only at hm
    have hlt := toLong_lt (u.brkCache tu + inc)
    obtain ⟨hok, -, hcase⟩ := brk_cases h (not_lt.mp hneg) hlt hs
    split_ifs at hm with hr
    · cases hm
      exact ⟨hok, fun hc => absurd rfl hc⟩
    · cases hm
      refine ⟨hok.setCache (not_lt.mp hneg) hlt, fun _ => ⟨rfl, ?_⟩⟩
      -- a sum beyond the largest `long` would have come out negative
      have hsum : toLong (u.brkCache tu + inc) = u.brkCache tu + inc := by
        by_cases hbig : u.brkCache tu + inc < 2 ^ 63
        · exact toLong_of_lt (by omega) hbig
        · exfalso
          apply hneg
          unfold toLong
          rw [Int.bmod_def, Int.emod_eq_of_lt (by omega) (by norm_num; omega),
            if_neg (by norm_num; omega)]
          norm_num
          omega
      rcases hcase with ⟨hc, -⟩ | ⟨-, hcur, -⟩
      · rw [hsum] at hr hneg
        omega
      · show (u₁.space.brkCurrent : ℤ) = _
        rw [← hcur, ← hsum]
        exact not_not.mp hr

theorem UserOk.sysSbrk (h : UserOk u) (hlo : -2 ^ 63 ≤ inc) (hhi : inc < 2 ^ 63) :
    UserOk (sysSbrk u tu inc).1 := by
  unfold Libc.sysSbrk
  split
  · exact h.sysBrk 0
  · split
    · exact h
    · rename_i u₁ hf
      exact (moveBreak_spec (fillCache_some h hf).1 hlo hhi rfl).1

theorem Loaded.ok (h : Loaded u) : UserOk u := by
  obtain ⟨hc, nxOk, sp, stop, hlim, hs⟩ := h
  constructor
  · intro _
    rw [hs]
    unfold userLimit at hlim
    unfold brkInit pageSize
    dsimp only
    rw [ByteMem.add64_of_lt (by omega)]
    have hdown : pageDown (stop + (4096 - 1)) ≤ stop + 4095 := by
      unfold pageDown pageSize
      omega
    rw [ByteMem.add64_of_lt (by omega)]
    constructor
    · dsimp only
      omega
    · dsimp only
      omega
  · intro tu
    rw [hc]
    exact ⟨le_rfl, by norm_num⟩

def IncOk (_ : User) : BrkOp → Prop
  | .brk _ => True
  | .sbrk _ inc => -2 ^ 63 ≤ inc ∧ inc < 2 ^ 63

theorem reach_userOk (h : Reach brkStep IncOk Loaded u) : UserOk u := by
  apply h.invariant (P := UserOk) (fun _ => Loaded.ok)
  intro u a u' h hinc hs
  cases a with
  | brk addr =>
    cases hs
    exact h.sysBrk addr
  | sbrk tu inc =>
    cases hs
    exact h.sysSbrk hinc.1 hinc.2

/-- After any calls of `sys_brk` and `sys_sbrk`, a `sys_sbrk` that succeeds moves the kernel's
break from where it is if and only if the cache of its unit is empty or agrees with it. -/
theorem sbrk_agrees_iff (h : Reach brkStep IncOk Loaded u) (hinc : inc ≠ 0)
    (hlong : -2 ^ 63 ≤ inc ∧ inc < 2 ^ 63) (hs : sysSbrk u tu inc = (u', r)) (hr : r ≠ -1) :
    (r = u.space.brkCurrent ∧ (u'.space.brkCurrent : ℤ) = u.space.brkCurrent + inc) ↔
      u.brkCache tu = 0 ∨ u.brkCache tu = u.space.brkCurrent := by
  have hok := reach_userOk h
  unfold sysSbrk at hs
  rw [if_neg hinc] at hs
  split at hs
  · cases hs
    exact absurd rfl hr
  · rename_i u₁ hf
    obtain ⟨hok₁, -, hcache⟩ := fillCache_some hok hf
    obtain ⟨hret, hcur⟩ := (moveBreak_spec hok₁ hlong.1 hlong.2 hs).2 hr
    rw [hret, hcur, hcache]
    split
    · rename_i hz
      simp [hz]
    · rename_i hz
      simp only [hz, false_or]
      constructor
      · exact fun hc => hc.1
      · intro hc
        exact ⟨hc, by rw [hc]⟩

end Agreement

/-- A process with a code page and a stack page whose image ends at `0x401000`. -/
def twoUnits : User :=
  ⟨⟨fun _ => 0, fun _ => true, 0⟩,
    brkInit true ⟨0, [⟨0x400000, 0x5000⟩, ⟨0x6FFFFFFF0000, 0x6000⟩], 0, 0, 0⟩ 0x401000, fun _ => 0⟩

theorem twoUnits_loaded : Loaded twoUnits := by
  refine ⟨rfl, true, _, 0x401000, ?_, rfl⟩
  decide

/-- The first call of a unit starts from the kernel's break. -/
theorem sbrk_agrees_first : (sysSbrk twoUnits 0 (-16)).2 = 0x402000 ∧
    ((sysSbrk twoUnits 0 (-16)).2 = twoUnits.space.brkCurrent ∧
      ((sysSbrk twoUnits 0 (-16)).1.space.brkCurrent : ℤ) = twoUnits.space.brkCurrent + -16) := by
  have hret : (sysSbrk twoUnits 0 (-16)).2 = 0x402000 := by decide +kernel
  refine ⟨hret, ?_⟩
  have hne : (sysSbrk twoUnits 0 (-16)).2 ≠ -1 := by
    rw [hret]
    norm_num
  have hiff := sbrk_agrees_iff (.init twoUnits_loaded) (by norm_num) (by norm_num)
    (Prod.mk.eta (p := sysSbrk twoUnits 0 (-16))).symm hne
  exact hiff.mpr (Or.inl rfl)

/-- Unit 0 moves the break, unit 1 moves it on, and unit 0 is still where it was: its next call
returns its cached break, 16 bytes above the break of the kernel, and moves nothing. -/
theorem sbrk_stale_cache : ∃ u u' r, Reach brkStep IncOk Loaded u ∧
    sysSbrk u 0 (-16) = (u', r) ∧ r ≠ -1 ∧ r ≠ u.space.brkCurrent ∧
    (u'.space.brkCurrent : ℤ) ≠ u.space.brkCurrent + -16 := by
  have h₁ : Reach brkStep IncOk Loaded (sysSbrk twoUnits 0 (-16)).1 :=
    .step (.init twoUnits_loaded) (a := .sbrk 0 (-16)) (by norm_num [IncOk]) rfl
  have h₂ : Reach brkStep IncOk Loaded (sysSbrk (sysSbrk twoUnits 0 (-16)).1 1 (-16)).1 :=
    .step h₁ (a := .sbrk 1 (-16)) (by norm_num [IncOk]) rfl
  refine ⟨_, _, _, h₂, Prod.mk.eta.symm, ?_⟩
  decide +kernel

end VoidOS.Libc
