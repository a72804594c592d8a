import VoidOS.TableTree
import VoidOS.Transition
import VoidOS.UserSpace

namespace VoidOS.Mm

open ByteMem PageTree Ownership Transition

/-- The places of the lower half, which belongs to a process. -/
def UserPlaces (p : List ℕ) : Prop := ∃ v, pml4Idx v < 256 ∧ p <+: indices v

section Create

variable {m : Mem} {t k n i x f cr3 : ℕ} {ph ph' : Phys} {p : List ℕ}

theorem clearLower_spec (hn : n ≤ 512) :
    (∀ x, x < t ∨ t + 4096 ≤ x →
      (List.range n).foldl (fun m i => setEntry m t i 0) m x = m x) ∧
    ∀ i < n, entry ((List.range n).foldl (fun m i => setEntry m t i 0) m) t i = 0 := by
  induction n with
  | zero => exact ⟨fun _ _ => rfl, fun i hi => absurd hi (Nat.not_lt_zero i)⟩
  | succ n ih =>
    obtain ⟨hout, hin⟩ := ih (by omega)
    rw [List.range_succ, List.foldl_append, List.foldl_cons, List.foldl_nil]
    constructor
    · intro x hx
      rw [setEntry_apply (by omega) hx]
      exact hout x hx
    · intro i hi
      by_cases h : i = n
      · rw [h]
        exact entry_setEntry_self (by decide)
      · rw [show entry (setEntry _ t n 0) t i = _ from word_setWord_of_disjoint (by omega)]
        exact hin i (by omega)

theorem shareUpper_spec (hn : n ≤ 256) (ht : t % 4096 = 0) (hk : k % 4096 = 0) (hne : k ≠ t) :
    let m' := (List.range n).foldl
      (fun m i => setEntry m t (256 + i) (entry m k (256 + i))) m
    (∀ x, x < t ∨ t + 4096 ≤ x → m' x = m x) ∧ (∀ i < 256, entry m' t i = entry m t i) ∧
      ∀ i < n, entry m' t (256 + i) = entry m k (256 + i) := by
  induction n with
  | zero => exact ⟨fun _ _ => rfl, fun _ _ => rfl, fun i hi => absurd hi (Nat.not_lt_zero i)⟩
  | succ n ih =>
    obtain ⟨hout, hlow, hup⟩ := ih (by omega)
    rw [List.range_succ, List.foldl_append, List.foldl_cons, List.foldl_nil]
    refine ⟨?_, ?_, ?_⟩
    · intro x hx
      rw [setEntry_apply (by omega) hx]
      exact hout x hx
    · intro i hi
      rw [entry_setEntry_of_ne (by omega) (by omega) ht ht (by omega)]
      exact hlow i hi
    · intro i hi
      -- the kernel's table is not the one that is written
      have hkern : ∀ j < 512, entry ((List.range n).foldl
          (fun m i => setEntry m t (256 + i) (entry m k (256 + i))) m) k j = entry m k j := by
        intro j hj
        apply entry_congr hj
        intro x hl hr
        exact hout x (by omega)
      by_cases h : i = n
      · rw [h, entry_setEntry_self (entry_lt _ _ _), hkern _ (by omega)]
      · rw [entry_setEntry_of_ne (by omega) (by omega) ht ht (by omega)]
        exact hup i (by omega)

/-- `address_space_create` takes a frame, empties its lower half and copies the upper half. -/
theorem addressSpaceCreate_cases (hok : ph.Ok) (hk : k % pageSize = 0)
    (hkused : k / pageSize ∈ ph.inUse) :
    (ph.free = ∅ ∧ addressSpaceCreate ph k = (ph, 0)) ∨
    ∃ f ∈ ph.free, ∃ m, addressSpaceCreate ph k = ({ ph.take f with ram := m }, f * pageSize) ∧
      f * pageSize ≠ 0 ∧
      (∀ x, x / pageSize ≠ f → m x = ph.ram x) ∧ (∀ i < 256, entry m (f * pageSize) i = 0) ∧
      ∀ i < 256, entry m (f * pageSize) (256 + i) = entry ph.ram k (256 + i) := by
  unfold addressSpaceCreate
  rcases pmmAllocFrame_cases ph with ⟨hnone, ha⟩ | ⟨f, hf, ha⟩
  · left
    rw [ha]
    exact ⟨hnone, rfl⟩
  · right
    have hne : k ≠ f * pageSize := by
      rintro rfl
      rw [Nat.mul_div_cancel _ (show 0 < pageSize by decide)] at hkused
      exact Phys.notMem_inUse hf hkused
    have hmod : f * pageSize % 4096 = 0 := Nat.mul_mod_left f 4096
    obtain ⟨hout₁, hlow⟩ := @clearLower_spec ph.ram (f * pageSize) 256 (by decide)
    obtain ⟨hout₂, hsame, hup⟩ := @shareUpper_spec (clearLower ph.ram (f * pageSize))
      (f * pageSize) k 256 le_rfl hmod hk hne
    rw [ha]
    refine ⟨f, hf, shareUpper (clearLower ph.ram (f * pageSize)) (f * pageSize) k, ?_,
      hok.ne_zero hf, ?_, ?_, ?_⟩
    · simp only [hok.ne_zero hf, if_false]
      rfl
    · intro x hx
      have hx' : x < f * pageSize ∨ f * pageSize + 4096 ≤ x := by
        unfold pageSize at *
        omega
      exact (hout₂ x hx').trans (hout₁ x hx')
    · intro i hi
      exact (hsame i hi).trans (hlow i hi)
    · intro i hi
      rw [show entry (shareUpper _ _ _) (f * pageSize) (256 + i) = _ from hup i hi]
      apply entry_congr (by omega)
      intro x hl hr
      apply hout₁
      unfold pageSize at *
      omega

theorem userPlaces : Places UserPlaces := places_of _

theorem userPlaces_head {i : ℕ} (h : UserPlaces (i :: p)) : i < 256 := by
  obtain ⟨v, hv, hp⟩ := h
  obtain ⟨r, hr⟩ := hp
  have hi : i = pml4Idx v := by
    injection hr
  omega

theorem create_tree (hf : f ∈ ph.free) (hlow : ∀ i < 256, entry m (f * pageSize) i = 0) :
    Tree { ph.take f with ram := m } (f * pageSize) UserPlaces ∧
      tablesOf m (f * pageSize) UserPlaces = {f} ∧
      ∀ v, UserPlaces (indices v) → leaf m (f * pageSize) v = 0 := by
  have hwalk : ∀ p a, UserPlaces p → walk m (f * pageSize) p = some a →
      p = [] ∧ a = f * pageSize := by
    intro p a hp hw
    cases p with
    | nil => exact ⟨rfl, (Option.some.inj hw).symm⟩
    | cons i p =>
      rw [walk, hlow i (userPlaces_head hp), not_present_zero] at hw
      cases hw
  have hused : (ph.take f).used f = true := by rw [Phys.used_take, if_pos rfl]
  refine ⟨⟨userPlaces, Nat.mul_mod_left f 4096, ?_, ?_, ?_⟩, ?_, ?_⟩
  · intro p q a hp hq _ _ hwp hwq
    rw [(hwalk p a hp hwp).1, (hwalk q a hq hwq).1]
  · intro p a hp _ hw
    exact ⟨f, (Phys.mem_free.mp hf).1, hused, (hwalk p a hp hw).2⟩
  · intro p i u hp _ hw hpres
    obtain ⟨rfl, rfl⟩ := hwalk p u (userPlaces.head _ _ hp) hw
    rw [show entry _ (f * pageSize) i = 0 from hlow i (userPlaces_head hp),
      not_present_zero] at hpres
    cases hpres
  · ext g
    constructor
    · rintro ⟨p, hp, -, hw⟩
      have := (hwalk p _ hp hw).2
      unfold pageSize at this
      exact Set.mem_singleton_iff.mpr (by omega)
    · intro hg
      rw [Set.mem_singleton_iff.mp hg]
      exact ⟨[], ⟨0, by decide, List.nil_prefix⟩, Nat.zero_le 3, rfl⟩
  · intro v hv
    apply leaf_of_walk_none
    cases hw : walk m (f * pageSize) (tables v) with
    | none => rfl
    | some a => exact absurd (hwalk _ a (userPlaces.head _ (ptIdx v) hv) hw).1 (List.cons_ne_nil _ _)

end Create

/-- What an address translates to, and the entry that says so. -/
def translation (m : Mem) (t v : ℕ) : ℕ × ℕ := (vmmVirtToPhys m t v, vmmGetPte m t v)

/-- The places of the upper half: below entries of the root that are present, down to the
first entry that maps a page by itself. -/
def KernelPlaces (m : Mem) (t : ℕ) (p : List ℕ) : Prop :=
  ∃ v, 256 ≤ pml4Idx v ∧ p <+: indices v ∧ (p ≠ [] → present (entry m t (pml4Idx v)) = true) ∧
    ∀ q i u, q ++ [i] <+: p → q ≠ [] → q.length ≤ 2 → walk m t q = some u →
      present (entry m u i) = true → huge (entry m u i) = false

section Translation

variable {m m' : Mem} {t u r v i : ℕ} {ph ph' : Phys} {P : List ℕ → Prop} {p q : List ℕ}

theorem translation_same (T : Tree ph t P)
    (hsame : SameOn pageSize (tablesOf ph.ram t P) ph.ram ph'.ram) (h₀ : P [])
    (h₁ : present (entry ph.ram t (pml4Idx v)) = true → P [pml4Idx v])
    (h₂ : ∀ a, walk ph.ram t [pml4Idx v, pdptIdx v] = some a →
      (∀ u, walk ph.ram t [pml4Idx v] = some u → huge (entry ph.ram u (pdptIdx v)) = false) →
      P [pml4Idx v, pdptIdx v])
    (h₃ : ∀ a, walk ph.ram t (tables v) = some a →
      (∀ u, walk ph.ram t [pml4Idx v] = some u → huge (entry ph.ram u (pdptIdx v)) = false) →
      (∀ u, walk ph.ram t [pml4Idx v, pdptIdx v] = some u →
        huge (entry ph.ram u (pdIdx v)) = false) → P (tables v)) :
    translation ph'.ram t v = translation ph.ram t v := by
  have hlt : ∀ n, v / n % 512 < 512 := fun n => Nat.mod_lt _ (by decide)
  have e₀ : entry ph'.ram t (pml4Idx v) = entry ph.ram t (pml4Idx v) :=
    T.entry_same hsame h₀ (hlt _) (by decide) rfl
  unfold translation vmmVirtToPhys vmmGetPte
  simp only [e₀]
  by_cases p₁ : present (entry ph.ram t (pml4Idx v)) = true
  swap
  · simp [p₁]
  have w₁ : walk ph.ram t [pml4Idx v] = some (addr (entry ph.ram t (pml4Idx v))) := by
    rw [walk, if_pos p₁]
    rfl
  generalize addr (entry ph.ram t (pml4Idx v)) = a₁ at *
  have e₁ : entry ph'.ram a₁ (pdptIdx v) = entry ph.ram a₁ (pdptIdx v) :=
    T.entry_same hsame (h₁ p₁) (hlt _) (by simp) w₁
  simp only [e₁]
  by_cases p₂ : present (entry ph.ram a₁ (pdptIdx v)) = true
  swap
  · simp [p₁, p₂]
  by_cases g₂ : huge (entry ph.ram a₁ (pdptIdx v)) = true
  · simp [p₁, p₂, g₂]
  rw [Bool.not_eq_true] at g₂
  have w₂ : walk ph.ram t [pml4Idx v, pdptIdx v] = some (addr (entry ph.ram a₁ (pdptIdx v))) := by
    rw [show [pml4Idx v, pdptIdx v] = [pml4Idx v] ++ [pdptIdx v] from rfl, walk_concat_of w₁,
      if_pos p₂]
  have f₂ : ∀ u, walk ph.ram t [pml4Idx v] = some u →
      huge (entry ph.ram u (pdptIdx v)) = false := by
    intro u hu
    rwa [Option.some.inj (hu.symm.trans w₁)]
  generalize addr (entry ph.ram a₁ (pdptIdx v)) = a₂ at *
  have e₂ : entry ph'.ram a₂ (pdIdx v) = entry ph.ram a₂ (pdIdx v) :=
    T.entry_same hsame (h₂ _ w₂ f₂) (hlt _) (by simp) w₂
  simp only [e₂]
  by_cases p₃ : present (entry ph.ram a₂ (pdIdx v)) = true
  swap
  · simp [p₁, p₂, g₂, p₃]
  by_cases g₃ : huge (entry ph.ram a₂ (pdIdx v)) = true
  · simp [p₁, p₂, g₂, p₃, g₃]
  rw [Bool.not_eq_true] at g₃
  have w₃ : walk ph.ram t (tables v) = some (addr (entry ph.ram a₂ (pdIdx v))) := by
    rw [show tables v = [pml4Idx v, pdptIdx v] ++ [pdIdx v] from rfl, walk_concat_of w₂, if_pos p₃]
  have e₃ : entry ph'.ram (addr (entry ph.ram a₂ (pdIdx v))) (ptIdx v) =
      entry ph.ram (addr (entry ph.ram a₂ (pdIdx v))) (ptIdx v) := by
    apply T.entry_same hsame (h₃ _ w₃ f₂ _) (hlt _) le_rfl w₃
    intro u hu
    rwa [Option.some.inj (hu.symm.trans w₂)]
  simp only [e₃]

theorem kernelPlaces (m : Mem) (t : ℕ) : Places (KernelPlaces m t) where
  head := by
    rintro p i ⟨v, hv, hp, hpres, hflat⟩
    refine ⟨v, hv, (List.prefix_append p [i]).trans hp, fun _ => hpres (by simp), ?_⟩
    intro q j u hq
    exact hflat q j u (hq.trans (List.prefix_append p [i]))
  lt := by
    rintro p i ⟨v, -, hp, -⟩
    exact lt_of_mem_indices (hp.subset (List.mem_append_right p (List.mem_singleton_self i)))

theorem kernel_same (T : Tree ph t (KernelPlaces ph.ram t))
    (hsame : SameOn pageSize (tablesOf ph.ram t (KernelPlaces ph.ram t)) ph.ram ph'.ram)
    (hv : 256 ≤ pml4Idx v) : translation ph'.ram t v = translation ph.ram t v := by
  have hpres : ∀ p a, walk ph.ram t (pml4Idx v :: p) = some a →
      present (entry ph.ram t (pml4Idx v)) = true := by
    intro p a hw
    by_contra hc
    rw [walk, if_neg hc] at hw
    cases hw
  apply translation_same T hsame
  · exact ⟨v, hv, List.nil_prefix, fun h => absurd rfl h, fun q i u hq => by simp at hq⟩
  · intro h
    refine ⟨v, hv, ⟨_, rfl⟩, fun _ => h, fun q i u hq hne => ?_⟩
    have := hq.length_le
    rw [List.length_append, List.length_singleton, List.length_singleton] at this
    exact absurd (List.length_eq_zero_iff.mp (by omega)) hne
  · intro a hw hflat
    refine ⟨v, hv, ⟨_, rfl⟩, fun _ => hpres _ a hw, fun q i u hq hne _ hu _ => ?_⟩
    rcases q with _ | ⟨x, _ | ⟨y, q⟩⟩
    · exact absurd rfl hne
    · simp only [List.singleton_append, List.cons_prefix_cons] at hq
      obtain ⟨rfl, rfl, -⟩ := hq
      exact hflat u hu
    · have := hq.length_le
      simp at this
  · intro a hw hflat hflat'
    refine ⟨v, hv, ⟨_, rfl⟩, fun _ => hpres _ a hw, fun q i u hq hne _ hu _ => ?_⟩
    rcases q with _ | ⟨x, _ | ⟨y, _ | ⟨z, q⟩⟩⟩
    · exact absurd rfl hne
    · simp only [tables, List.singleton_append, List.cons_prefix_cons] at hq
      obtain ⟨rfl, rfl, -⟩ := hq
      exact hflat u hu
    · simp only [tables, List.cons_append, List.nil_append, List.cons_prefix_cons] at hq
      obtain ⟨rfl, rfl, rfl, -⟩ := hq
      exact hflat' u hu
    · have := hq.length_le
      rw [List.length_append, length_tables] at this
      simp at this
      omega

theorem user_same (T : Tree ph t UserPlaces)
    (hsame : SameOn pageSize (tablesOf ph.ram t UserPlaces) ph.ram ph'.ram)
    (hv : pml4Idx v < 256) : translation ph'.ram t v = translation ph.ram t v := by
  have hp : ∀ p, p <+: indices v → UserPlaces p := fun p hp => ⟨v, hv, hp⟩
  exact translation_same T hsame (hp [] List.nil_prefix) (fun _ => hp _ ⟨_, rfl⟩)
    (fun _ _ _ => hp _ ⟨_, rfl⟩) (fun _ _ _ _ => hp _ ⟨_, rfl⟩)

/-- Roots with the same entry translate the addresses below it in the same way. -/
theorem translation_share (h : entry m r (pml4Idx v) = entry m t (pml4Idx v)) :
    translation m r v = translation m t v := by
  unfold translation vmmVirtToPhys vmmGetPte
  rw [h]

/-- The places of the upper half stay the same if the links stay and new ones are flat. -/
theorem kernelPlaces_iff
    (hwalk : ∀ p u, KernelPlaces m t p → p.length ≤ 3 → walk m t p = some u →
      walk m' t p = some u)
    (hkeep : ∀ p i u, KernelPlaces m t p → i < 512 → p.length ≤ 2 → walk m t p = some u →
      present (entry m u i) = true ∨ ¬ KernelPlaces m t (p ++ [i]) →
      entry m' u i = entry m u i)
    (hflat : ∀ p i u, KernelPlaces m t (p ++ [i]) → p.length ≤ 2 → walk m' t p = some u →
      present (entry m' u i) = true → huge (entry m' u i) = false) :
    KernelPlaces m' t p ↔ KernelPlaces m t p := by
  have hnil : KernelPlaces m t [] :=
    ⟨2 ^ 47, by decide, List.nil_prefix, fun h => absurd rfl h, fun q i u hq => by simp at hq⟩
  -- an entry of the root is kept, present or not
  have hroot : ∀ v, 256 ≤ pml4Idx v →
      entry m' t (pml4Idx v) = entry m t (pml4Idx v) := by
    intro v hv
    apply hkeep [] _ t hnil (Nat.mod_lt _ (by decide)) (by decide) rfl
    by_contra hc
    rw [not_or, not_not] at hc
    obtain ⟨hc, w, hw, hpre, hpres, -⟩ := hc
    have he : pml4Idx v = pml4Idx w := by
      obtain ⟨r, hr⟩ := hpre
      injection hr
    exact hc (by rw [show v / 2 ^ 39 % 512 = pml4Idx w from he]; exact hpres (by simp))
  induction p using List.reverseRecOn with
  | nil =>
    refine iff_of_true ⟨2 ^ 47, by decide, List.nil_prefix, fun h => absurd rfl h, ?_⟩ hnil
    intro q i u hq
    simp at hq
  | append_singleton p i ih =>
    constructor
    · intro h
      have hp := ih.mp ((kernelPlaces m' t).head p i h)
      obtain ⟨v, hv, hpre, hpres, hfl⟩ := h
      refine ⟨v, hv, hpre, fun _ => hroot v hv ▸ hpres (by simp), ?_⟩
      intro q j u hq hne hl hu hpr
      have hqp : KernelPlaces m t q := by
        rcases List.prefix_concat_iff.mp hq with he | hq'
        · rw [(List.append_inj' he rfl).1]
          exact hp
        · exact (kernelPlaces m t).initial hp ((List.prefix_append q [j]).trans hq')
      have hj : j < 512 := lt_of_mem_indices ((hq.trans hpre).subset
        (List.mem_append_right q (List.mem_singleton_self j)))
      have he := hkeep q j u hqp hj hl hu (Or.inl hpr)
      rw [← he] at hpr ⊢
      exact hfl q j u hq hne hl (hwalk q u hqp (by omega) hu) hpr
    · intro h
      obtain ⟨v, hv, hpre, hpres, -⟩ := id h
      refine ⟨v, hv, hpre, fun hne => (hroot v hv).symm ▸ hpres hne, ?_⟩
      intro q j u hq hne hl hu hpr
      exact hflat q j u ((kernelPlaces m t).initial h hq) hl hu hpr

end Translation

/-- The kernel's PML4 and those that `address_space_create` has made. -/
structure Spaces where
  phys : Phys
  kernelPml4 : ℕ
  roots : List ℕ

/-- Calls of `vmm_map_page` and `vmm_unmap_page` on a process and on the kernel. -/
inductive SpaceOp
  | create
  | map (root virt phys flags : ℕ)
  | unmap (root virt : ℕ)
  | mapKernel (virt phys flags : ℕ)
  | unmapKernel (virt : ℕ)

def SpaceOp.On (root : ℕ) : SpaceOp → Prop
  | .map r _ _ _ => r = root
  | .unmap r _ => r = root
  | _ => False

/-- A process is called with addresses of the lower half, the kernel with addresses below
entries of its PML4 that are present. -/
def spaceStep (s : Spaces) : SpaceOp → Option Spaces
  | .create =>
    match addressSpaceCreate s.phys s.kernelPml4 with
    | (ph, cr3) => some { s with phys := ph, roots := if cr3 = 0 then s.roots else cr3 :: s.roots }
  | .map root virt phys flags =>
    if root ∈ s.roots ∧ pml4Idx virt < 256 ∧ flags < 2 ^ 64 then
      some { s with phys := (vmmMapPage s.phys root virt phys flags).1 }
    else none
  | .unmap root virt =>
    if root ∈ s.roots ∧ pml4Idx virt < 256 then
      some { s with phys := (vmmUnmapPage s.phys root virt).1 }
    else none
  | .mapKernel virt phys flags =>
    if 256 ≤ pml4Idx virt ∧ present (entry s.phys.ram s.kernelPml4 (pml4Idx virt)) = true ∧
        flags < 2 ^ 64 then
      some { s with phys := (vmmMapPage s.phys s.kernelPml4 virt phys flags).1 }
    else none
  | .unmapKernel virt =>
    if 256 ≤ pml4Idx virt ∧ present (entry s.phys.ram s.kernelPml4 (pml4Idx virt)) = true then
      some { s with phys := (vmmUnmapPage s.phys s.kernelPml4 virt).1 }
    else none

/-- The tables of the kernel are frames in use, each with one place, and there is no process
yet. -/
def SpacesInit (s : Spaces) : Prop :=
  s.phys.Ok ∧ Tree s.phys s.kernelPml4 (KernelPlaces s.phys.ram s.kernelPml4) ∧ s.roots = []

/-- The kernel is not called with addresses in huge pages. -/
def FlatCall (s : Spaces) : SpaceOp → Prop
  | .mapKernel virt _ _ => NoHuge s.phys.ram s.kernelPml4 virt
  | .unmapKernel virt => NoHuge s.phys.ram s.kernelPml4 virt
  | _ => True

structure SpacesOk (s : Spaces) : Prop where
  ok : s.phys.Ok
  kernel : Tree s.phys s.kernelPml4 (KernelPlaces s.phys.ram s.kernelPml4)
  user : ∀ r ∈ s.roots, Tree s.phys r UserPlaces
  kernel_apart : ∀ r ∈ s.roots, Disjoint (tablesOf s.phys.ram r UserPlaces)
    (tablesOf s.phys.ram s.kernelPml4 (KernelPlaces s.phys.ram s.kernelPml4))
  apart : ∀ r ∈ s.roots, ∀ r' ∈ s.roots, r' ≠ r → Disjoint (tablesOf s.phys.ram r' UserPlaces)
    (tablesOf s.phys.ram r UserPlaces)
  upper : ∀ r ∈ s.roots, ∀ i, 256 ≤ i → i < 512 →
    entry s.phys.ram r i = entry s.phys.ram s.kernelPml4 i

section Spaces

variable {s s' : Spaces} {ph' : Phys} {r r' v i virt phys flags : ℕ} {L : ℕ → ℕ} {a : SpaceOp}
  {P : List ℕ → Prop} {F : Set ℕ}

theorem kernel_nil (m : Mem) (t : ℕ) : KernelPlaces m t [] :=
  ⟨2 ^ 47, by decide, List.nil_prefix, fun h => absurd rfl h, fun q i u hq => by simp at hq⟩

theorem root_same {ph : Phys} {t : ℕ} (T : Tree ph t P) (hP : P [])
    (hsame : SameOn pageSize (tablesOf ph.ram t P) ph.ram ph'.ram) (hi : i < 512) :
    entry ph'.ram t i = entry ph.ram t i :=
  T.entry_same hsame hP hi (Nat.zero_le 3) rfl

theorem kernel_congr {ph : Phys} {t : ℕ} (T : Tree ph t (KernelPlaces ph.ram t))
    (hsame : SameOn pageSize (tablesOf ph.ram t (KernelPlaces ph.ram t)) ph.ram ph'.ram)
    (htotal : ph'.totalFrames = ph.totalFrames)
    (hused : tablesOf ph.ram t (KernelPlaces ph.ram t) ⊆ ph'.inUse) :
    KernelPlaces ph'.ram t = KernelPlaces ph.ram t ∧
      Tree ph' t (KernelPlaces ph'.ram t) ∧
      tablesOf ph'.ram t (KernelPlaces ph'.ram t) = tablesOf ph.ram t (KernelPlaces ph.ram t) := by
  have T' := T.congr hsame htotal hused
  have heq : KernelPlaces ph'.ram t = KernelPlaces ph.ram t := by
    funext p
    apply propext
    apply kernelPlaces_iff
    · intro p u hp hl hw
      exact (T.walk_same hsame hp (by omega)).trans hw
    · intro p i u hp hi hl hw _
      exact T.entry_same hsame hp hi (by omega) hw
    · exact T'.flat
  rw [heq]
  exact ⟨rfl, T', T.tables_same hsame⟩

theorem Edit.kernel {ph : Phys} {t : ℕ} (e : Edit t (KernelPlaces ph.ram t) ph ph' L) :
    KernelPlaces ph'.ram t = KernelPlaces ph.ram t ∧
      ∀ i, 256 ≤ i → i < 512 → entry ph'.ram t i = entry ph.ram t i := by
  have hkeep : ∀ p i u, KernelPlaces ph.ram t p → i < 512 → p.length ≤ 2 →
      PageTree.walk ph.ram t p = some u →
      present (entry ph.ram u i) = true ∨ ¬ KernelPlaces ph.ram t (p ++ [i]) →
      entry ph'.ram u i = entry ph.ram u i := by
    intro p i u hp hi hl hw hc
    exact e.keep p i u hp hi (by omega) hw (hc.imp_left fun h => ⟨hl, h⟩)
  constructor
  · funext p
    apply propext
    exact kernelPlaces_iff (fun p u hp hl hw => e.walk p u hp hl hw) hkeep e.tree.flat
  · intro i hi hlt
    apply hkeep [] i t (kernel_nil _ _) hlt (Nat.zero_le 2) rfl
    by_contra hc
    rw [not_or, not_not] at hc
    obtain ⟨hc, w, -, ⟨q, hq⟩, hpres, -⟩ := hc
    injection hq with hq
    rw [show i = pml4Idx w from hq] at hc
    exact hc (hpres (by simp))

theorem SpacesOk.user_edit (h : SpacesOk s) (hr : r ∈ s.roots)
    (e : Edit r UserPlaces s.phys ph' L) : SpacesOk { s with phys := ph' } ∧
      (∀ v, 256 ≤ pml4Idx v →
        translation ph'.ram s.kernelPml4 v = translation s.phys.ram s.kernelPml4 v) ∧
      ∀ r' ∈ s.roots, r' ≠ r → ∀ v, pml4Idx v < 256 →
        translation ph'.ram r' v = translation s.phys.ram r' v := by
  have hk := (h.kernel_apart r hr).symm
  have hksame := e.own.frame_same h.kernel.tables_subset hk
  obtain ⟨hplaces, hkernel, htables⟩ := kernel_congr h.kernel hksame e.total
    (e.own.frame_subset h.kernel.tables_subset hk)
  have hother : ∀ r' ∈ s.roots, r' ≠ r →
      SameOn pageSize (tablesOf s.phys.ram r' UserPlaces) s.phys.ram ph'.ram := by
    intro r' hr' hne
    exact e.own.frame_same (h.user r' hr').tables_subset (h.apart r hr r' hr' hne)
  have hdisj : ∀ r' ∈ s.roots, r' ≠ r →
      Disjoint (tablesOf ph'.ram r' UserPlaces) (tablesOf ph'.ram r UserPlaces) := by
    intro r' hr' hne
    rw [(h.user r' hr').tables_same (hother r' hr' hne)]
    exact e.own.frame_disjoint (h.user r' hr').tables_subset (h.apart r hr r' hr' hne)
  refine ⟨⟨e.ok h.ok, hkernel, ?_, ?_, ?_, ?_⟩, ?_, ?_⟩
  · intro r' hr'
    by_cases hne : r' = r
    · rw [hne]
      exact e.tree
    · exact (h.user r' hr').congr (hother r' hr' hne) e.total
        (e.own.frame_subset (h.user r' hr').tables_subset (h.apart r hr r' hr' hne))
  · intro r' hr'
    show Disjoint (tablesOf ph'.ram r' _) (tablesOf ph'.ram s.kernelPml4 (KernelPlaces ph'.ram _))
    rw [htables]
    by_cases hne : r' = r
    · rw [hne]
      exact (e.own.frame_disjoint h.kernel.tables_subset hk).symm
    · rw [(h.user r' hr').tables_same (hother r' hr' hne)]
      exact h.kernel_apart r' hr'
  · intro r₁ h₁ r₂ h₂ hne
    show Disjoint (tablesOf ph'.ram r₂ _) (tablesOf ph'.ram r₁ _)
    by_cases hr₁ : r₁ = r
    · rw [hr₁] at hne ⊢
      exact hdisj r₂ h₂ hne
    · by_cases hr₂ : r₂ = r
      · rw [hr₂]
        exact (hdisj r₁ h₁ hr₁).symm
      · rw [(h.user r₁ h₁).tables_same (hother r₁ h₁ hr₁),
          (h.user r₂ h₂).tables_same (hother r₂ h₂ hr₂)]
        exact h.apart r₁ h₁ r₂ h₂ hne
  · intro r' hr' i hi hlt
    show entry ph'.ram r' i = entry ph'.ram s.kernelPml4 i
    rw [root_same h.kernel (kernel_nil _ _) hksame hlt, ← h.upper r' hr' i hi hlt]
    by_cases hne : r' = r
    · rw [hne]
      apply e.keep [] i r ⟨0, by decide, List.nil_prefix⟩ hlt (Nat.zero_le 3) rfl
      exact Or.inr fun hc => absurd (userPlaces_head hc) (by omega)
    · exact root_same (h.user r' hr') ⟨0, by decide, List.nil_prefix⟩ (hother r' hr' hne) hlt
  · intro v hv
    exact kernel_same h.kernel hksame hv
  · intro r' hr' hne v hv
    exact user_same (h.user r' hr') (hother r' hr' hne) hv

theorem SpacesOk.kernel_edit (h : SpacesOk s)
    (e : Edit s.kernelPml4 (KernelPlaces s.phys.ram s.kernelPml4) s.phys ph' L) :
    SpacesOk { s with phys := ph' } := by
  obtain ⟨hplaces, hroot⟩ := e.kernel
  have hsame : ∀ r ∈ s.roots,
      SameOn pageSize (tablesOf s.phys.ram r UserPlaces) s.phys.ram ph'.ram := by
    intro r hr
    exact e.own.frame_same (h.user r hr).tables_subset (h.kernel_apart r hr)
  refine ⟨e.ok h.ok, ?_, ?_, ?_, ?_, ?_⟩
  · show Tree ph' s.kernelPml4 (KernelPlaces ph'.ram s.kernelPml4)
    rw [hplaces]
    exact e.tree
  · intro r hr
    exact (h.user r hr).congr (hsame r hr) e.total
      (e.own.frame_subset (h.user r hr).tables_subset (h.kernel_apart r hr))
  · intro r hr
    show Disjoint (tablesOf ph'.ram r _) (tablesOf ph'.ram s.kernelPml4 (KernelPlaces ph'.ram _))
    rw [(h.user r hr).tables_same (hsame r hr), hplaces]
    exact e.own.frame_disjoint (h.user r hr).tables_subset (h.kernel_apart r hr)
  · intro r hr r' hr' hne
    show Disjoint (tablesOf ph'.ram r' _) (tablesOf ph'.ram r _)
    rw [(h.user r hr).tables_same (hsame r hr), (h.user r' hr').tables_same (hsame r' hr')]
    exact h.apart r hr r' hr' hne
  · intro r hr i hi hlt
    show entry ph'.ram r i = entry ph'.ram s.kernelPml4 i
    rw [root_same (h.user r hr) ⟨0, by decide, List.nil_prefix⟩ (hsame r hr) hlt, hroot i hi hlt]
    exact h.upper r hr i hi hlt

theorem Tree.root_used {ph : Phys} {t : ℕ} (h : Tree ph t P) (hnil : P []) :
    t / pageSize ∈ ph.inUse := by
  obtain ⟨g, -, hg, ht⟩ := h.frame [] _ hnil (Nat.zero_le 3) rfl
  rw [ht, Nat.mul_div_cancel _ (show 0 < pageSize by decide)]
  exact hg

theorem SpacesOk.create_new (h : SpacesOk s) (hfree : s.phys.free ≠ ∅) :
    ∃ s' r, spaceStep s .create = some s' ∧ s'.roots = r :: s.roots ∧ r ∉ s.roots := by
  rcases addressSpaceCreate_cases h.ok h.kernel.root (h.kernel.root_used (kernel_nil _ _)) with
    ⟨hnone, -⟩ | ⟨f, hf, m, hc, hne, -⟩
  · exact absurd hnone hfree
  · refine ⟨_, f * pageSize, by rw [spaceStep, hc], if_neg hne, fun hr => ?_⟩
    have hused := (h.user _ hr).root_used ⟨0, by decide, List.nil_prefix⟩
    rw [Nat.mul_div_cancel _ (show 0 < pageSize by decide)] at hused
    exact Phys.notMem_inUse hf hused

theorem SpacesOk.create (h : SpacesOk s) (hs : spaceStep s .create = some s') : SpacesOk s' := by
  unfold spaceStep at hs
  rcases addressSpaceCreate_cases h.ok h.kernel.root (h.kernel.root_used (kernel_nil _ _)) with
    ⟨-, hc⟩ | ⟨f, hf, m, hc, hne, hout, hlow, hup⟩
  · rw [hc] at hs
    cases hs
    exact h
  · rw [hc] at hs
    simp only [hne, if_false] at hs
    cases hs
    have hfree := Phys.notMem_inUse hf
    have hsame : SameOn pageSize s.phys.inUse s.phys.ram m :=
      fun x hx => hout x fun he => hfree (he ▸ hx)
    have hused : s.phys.inUse ⊆ (s.phys.take f).inUse := by
      rw [Phys.inUse_take]
      exact Set.subset_insert f _
    obtain ⟨hnew, htables, -⟩ := @create_tree m f s.phys hf hlow
    have hksame := hsame.mono h.kernel.tables_subset
    obtain ⟨hplaces, hkernel, hktables⟩ := @kernel_congr { s.phys.take f with ram := m } s.phys
      s.kernelPml4 h.kernel hksame rfl (h.kernel.tables_subset.trans hused)
    have hold : ∀ r ∈ s.roots, tablesOf m r UserPlaces = tablesOf s.phys.ram r UserPlaces :=
      fun r hr => @Tree.tables_same UserPlaces s.phys { s.phys.take f with ram := m } r
        (h.user r hr) (hsame.mono (h.user r hr).tables_subset)
    -- the new table was free and is nobody else's
    have hnewdisj : ∀ S ⊆ s.phys.inUse, Disjoint (tablesOf m (f * pageSize) UserPlaces) S := by
      intro S hS
      rw [htables, Set.disjoint_singleton_left]
      exact fun hc => hfree (hS hc)
    have hrootsame := @root_same { s.phys.take f with ram := m }
    refine ⟨⟨(h.ok.take f).zero, h.ok.bound⟩, hkernel, ?_, ?_, ?_, ?_⟩
    · intro r hr
      rcases List.mem_cons.mp hr with rfl | hr
      · exact hnew
      · exact (h.user r hr).congr (hsame.mono (h.user r hr).tables_subset) rfl
          ((h.user r hr).tables_subset.trans hused)
    · intro r hr
      show Disjoint (tablesOf m r _) (tablesOf m s.kernelPml4 (KernelPlaces m _))
      rw [hktables]
      rcases List.mem_cons.mp hr with rfl | hr
      · exact hnewdisj _ h.kernel.tables_subset
      · rw [hold r hr]
        exact h.kernel_apart r hr
    · intro r hr r' hr' hne'
      show Disjoint (tablesOf m r' _) (tablesOf m r _)
      rcases List.mem_cons.mp hr with rfl | hr
      · rcases List.mem_cons.mp hr' with rfl | hr'
        · exact absurd rfl hne'
        · rw [hold r' hr']
          exact (hnewdisj _ (h.user r' hr').tables_subset).symm
      · rcases List.mem_cons.mp hr' with rfl | hr'
        · rw [hold r hr]
          exact hnewdisj _ (h.user r hr).tables_subset
        · rw [hold r hr, hold r' hr']
          exact h.apart r hr r' hr' hne'
    · intro r hr i hi hlt
      show entry m r i = entry m s.kernelPml4 i
      have hk : entry m s.kernelPml4 i = entry s.phys.ram s.kernelPml4 i :=
        hrootsame h.kernel (kernel_nil _ _) hksame hlt
      rw [hk]
      rcases List.mem_cons.mp hr with rfl | hr
      · have hupi := hup (i - 256) (by omega)
        rwa [Nat.add_sub_cancel' hi] at hupi
      · rw [← h.upper r hr i hi hlt]
        exact hrootsame (h.user r hr) ⟨0, by decide, List.nil_prefix⟩
          (hsame.mono (h.user r hr).tables_subset) hlt

theorem addr_lt (w : ℕ) : addr w < 2 ^ 52 := by
  rw [addr_eq]
  omega

theorem entry_word_lt (hf : flags < 2 ^ 64) : addr phys ||| flags < 2 ^ 64 :=
  Nat.or_lt_two_pow ((addr_lt phys).trans (by norm_num)) hf

/-- An address below a present entry and outside huge pages is one of the kernel's places. -/
theorem kernelPlaces_indices {m : Mem} {t : ℕ} (hv : 256 ≤ pml4Idx virt)
    (hpres : present (entry m t (pml4Idx virt)) = true) (hflat : NoHuge m t virt) :
    KernelPlaces m t (indices virt) := by
  refine ⟨virt, hv, List.prefix_rfl, fun _ => hpres, fun q i u hq _ hl hu hp => ?_⟩
  apply hflat q i u _ hu hp
  apply List.prefix_of_prefix_length_le hq ⟨[ptIdx virt], rfl⟩
  rw [List.length_append, List.length_singleton, length_tables]
  omega

theorem SpacesOk.step (h : SpacesOk s) (hflat : FlatCall s a) (hs : spaceStep s a = some s') :
    SpacesOk s' ∧ s'.kernelPml4 = s.kernelPml4 ∧ (a.On r → s'.roots = s.roots ∧
      (∀ v, 256 ≤ pml4Idx v →
        translation s'.phys.ram s.kernelPml4 v = translation s.phys.ram s.kernelPml4 v) ∧
      ∀ r' ∈ s.roots, r' ≠ r → ∀ v, pml4Idx v < 256 →
        translation s'.phys.ram r' v = translation s.phys.ram r' v) := by
  cases a with
  | create =>
    refine ⟨h.create hs, ?_, fun hc => hc.elim⟩
    cases hs
    rfl
  | map root virt phys flags =>
    simp only [spaceStep] at hs
    split at hs
    · rename_i hc
      cases hs
      obtain ⟨L, e⟩ : ∃ L, Edit root UserPlaces s.phys
          (vmmMapPage s.phys root virt phys flags).1 L := by
        rcases vmmMapPage_edit h.ok (h.user root hc.1) ⟨virt, hc.2.1, List.prefix_rfl⟩
          (entry_word_lt hc.2.2) (Prod.mk.eta (p := vmmMapPage s.phys root virt phys flags)).symm
          with ⟨-, e⟩ | ⟨-, e⟩
        · exact ⟨_, e⟩
        · exact ⟨_, e⟩
      obtain ⟨hok, hkern, huser⟩ := h.user_edit hc.1 e
      refine ⟨hok, rfl, fun hon => ⟨rfl, hkern, fun r' hr' hne => ?_⟩⟩
      rw [← show root = r from hon] at hne
      exact huser r' hr' hne
    · cases hs
  | unmap root virt =>
    simp only [spaceStep] at hs
    split at hs
    · rename_i hc
      cases hs
      obtain ⟨e, -⟩ := vmmUnmapPage_edit (h.user root hc.1) ⟨virt, hc.2, List.prefix_rfl⟩
        (Prod.mk.eta (p := vmmUnmapPage s.phys root virt)).symm
      obtain ⟨hok, hkern, huser⟩ := h.user_edit hc.1 e
      refine ⟨hok, rfl, fun hon => ⟨rfl, hkern, fun r' hr' hne => ?_⟩⟩
      rw [← show root = r from hon] at hne
      exact huser r' hr' hne
    · cases hs
  | mapKernel virt phys flags =>
    simp only [spaceStep] at hs
    split at hs
    · rename_i hc
      cases hs
      refine ⟨?_, rfl, fun hon => hon.elim⟩
      rcases vmmMapPage_edit h.ok h.kernel (kernelPlaces_indices hc.1 hc.2.1 hflat)
        (entry_word_lt hc.2.2)
        (Prod.mk.eta (p := vmmMapPage s.phys s.kernelPml4 virt phys flags)).symm
        with ⟨-, e⟩ | ⟨-, e⟩
      · exact h.kernel_edit e
      · exact h.kernel_edit e
    · cases hs
  | unmapKernel virt =>
    simp only [spaceStep] at hs
    split at hs
    · rename_i hc
      cases hs
      refine ⟨?_, rfl, fun hon => hon.elim⟩
      obtain ⟨e, -⟩ := vmmUnmapPage_edit h.kernel (kernelPlaces_indices hc.1 hc.2 hflat)
        (Prod.mk.eta (p := vmmUnmapPage s.phys s.kernelPml4 virt)).symm
      exact h.kernel_edit e
    · cases hs

theorem reach_spacesOk (h : Reach spaceStep FlatCall SpacesInit s) : SpacesOk s := by
  apply h.invariant (P := SpacesOk)
  · rintro s ⟨hok, hkernel, hroots⟩
    refine ⟨hok, hkernel, ?_, ?_, ?_, ?_⟩ <;> rw [hroots] <;> simp
  · intro s a s' h hflat hs
    exact (h.step (r := 0) hflat hs).1

theorem SpacesOk.share (h : SpacesOk s) (hr : r ∈ s.roots) (hv : 256 ≤ pml4Idx v) :
    translation s.phys.ram r v = translation s.phys.ram s.kernelPml4 v :=
  translation_share (h.upper r hr _ hv (Nat.mod_lt _ (by decide)))

/-- In every run without kernel calls into huge pages, the upper half translates through each
process as through the kernel, and a call on a process changes neither a translation of the
upper half nor one of another process. -/
theorem address_spaces (h : Reach spaceStep FlatCall SpacesInit s) :
    (∀ r ∈ s.roots, ∀ v, 256 ≤ pml4Idx v →
      translation s.phys.ram r v = translation s.phys.ram s.kernelPml4 v) ∧
    ∀ a r s', a.On r → spaceStep s a = some s' →
      (∀ v, 256 ≤ pml4Idx v → ∀ t ∈ s.kernelPml4 :: s.roots,
        translation s'.phys.ram t v = translation s.phys.ram t v) ∧
      ∀ r' ∈ s.roots, r' ≠ r → ∀ v,
        translation s'.phys.ram r' v = translation s.phys.ram r' v := by
  have hok := reach_spacesOk h
  refine ⟨fun r hr v hv => hok.share hr hv, ?_⟩
  intro a r s' hon hs
  have hflat : FlatCall s a := by
    cases a with
    | create => exact hon.elim
    | map => trivial
    | unmap => trivial
    | mapKernel => exact hon.elim
    | unmapKernel => exact hon.elim
  obtain ⟨hok', hkp, hcall⟩ := hok.step (r := r) hflat hs
  obtain ⟨hroots, hkern, huser⟩ := hcall hon
  have hupper : ∀ v, 256 ≤ pml4Idx v → ∀ t ∈ s.kernelPml4 :: s.roots,
      translation s'.phys.ram t v = translation s.phys.ram t v := by
    intro v hv t ht
    rcases List.mem_cons.mp ht with rfl | ht
    · exact hkern v hv
    · rw [hok'.share (hroots.symm ▸ ht) hv, hkp, hok.share ht hv]
      exact hkern v hv
  refine ⟨hupper, fun r' hr' hne v => ?_⟩
  by_cases hv : pml4Idx v < 256
  · exact huser r' hr' hne v hv
  · exact hupper v (by omega) r' (List.mem_cons_of_mem _ hr')

end Spaces

/-- Page tables as a boot loader leaves them: a direct map with a page of 2 MiB, and a table for
the addresses of the kernel. -/
def bootMem : Mem :=
  setEntry (setEntry (setEntry (setEntry (fun _ => 0) 0x1000 256 0x2003) 0x1000 511 0x4003)
    0x2000 0 0x3003) 0x3000 1 0x200083

/-- A machine with `n` frames of which the first `lo` are in use. -/
def bootPhys (lo n : ℕ) : Phys := ⟨bootMem, fun f => decide (f < lo), n⟩

section Boot

variable {i t a lo n : ℕ} {p : List ℕ}

theorem entry_zero (t i : ℕ) : entry (fun _ => 0) t i = 0 := by
  unfold entry word
  simp [load]

theorem bootMem_entry (hi : i < 512) (ht : t % 4096 = 0) : entry bootMem t i =
    if t = 0x3000 ∧ i = 1 then 0x200083 else if t = 0x2000 ∧ i = 0 then 0x3003
    else if t = 0x1000 ∧ i = 511 then 0x4003 else if t = 0x1000 ∧ i = 256 then 0x2003 else 0 := by
  unfold bootMem
  simp only [entry_setEntry_if hi, ht, Nat.reduceLT, Nat.reduceMod, Nat.reducePow, entry_zero]

theorem bootMem_present (hi : i < 512) (ht : t % 4096 = 0)
    (h : present (entry bootMem t i) = true) :
    (t = 0x3000 ∧ i = 1 ∧ entry bootMem t i = 0x200083) ∨
    (t = 0x2000 ∧ i = 0 ∧ entry bootMem t i = 0x3003) ∨
    (t = 0x1000 ∧ i = 511 ∧ entry bootMem t i = 0x4003) ∨
    (t = 0x1000 ∧ i = 256 ∧ entry bootMem t i = 0x2003) := by
  rw [bootMem_entry hi ht] at h ⊢
  split_ifs at h ⊢ with h₁ h₂ h₃ h₄
  · exact Or.inl ⟨h₁.1, h₁.2, rfl⟩
  · exact Or.inr (Or.inl ⟨h₂.1, h₂.2, rfl⟩)
  · exact Or.inr (Or.inr (Or.inl ⟨h₃.1, h₃.2, rfl⟩))
  · exact Or.inr (Or.inr (Or.inr ⟨h₄.1, h₄.2, rfl⟩))
  · exact absurd h (by decide)

theorem bootMem_walk (hp : KernelPlaces bootMem 0x1000 p) (hl : p.length ≤ 3)
    (hw : walk bootMem 0x1000 p = some a) : (p = [] ∧ a = 0x1000) ∨ (p = [511] ∧ a = 0x4000) ∨
      (p = [256] ∧ a = 0x2000) ∨ (p = [256, 0] ∧ a = 0x3000) := by
  induction p using List.reverseRecOn generalizing a with
  | nil => exact Or.inl ⟨rfl, (Option.some.inj hw).symm⟩
  | append_singleton p i ih =>
    have hl' : p.length ≤ 2 := by
      rw [List.length_append, List.length_singleton] at hl
      omega
    have hi := (kernelPlaces _ _).lt p i hp
    obtain ⟨u, hu, hpres, rfl⟩ := walk_concat_eq_some hw
    rcases ih ((kernelPlaces _ _).head p i hp) (by omega) hu with
      ⟨rfl, rfl⟩ | ⟨rfl, rfl⟩ | ⟨rfl, rfl⟩ | ⟨rfl, rfl⟩ <;>
      rcases bootMem_present hi (by decide) hpres with
        ⟨ht, rfl, he⟩ | ⟨ht, rfl, he⟩ | ⟨ht, rfl, he⟩ | ⟨ht, rfl, he⟩ <;>
      first
        | exact absurd ht (by decide)
        | rw [he]
    · exact Or.inr (Or.inl ⟨rfl, by decide⟩)
    · exact Or.inr (Or.inr (Or.inl ⟨rfl, by decide⟩))
    · exact Or.inr (Or.inr (Or.inr ⟨rfl, by decide⟩))
    · -- the last entry maps a page by itself
      obtain ⟨v, -, -, -, hflat⟩ := hp
      have hhuge := hflat _ _ _ List.prefix_rfl (by simp) hl' hu hpres
      rw [he] at hhuge
      exact absurd hhuge (by decide)

theorem bootPhys_tree (hlo : 5 ≤ lo) (hn : lo ≤ n) :
    Tree (bootPhys lo n) 0x1000 (KernelPlaces bootMem 0x1000) := by
  refine ⟨kernelPlaces _ _, by decide, ?_, ?_, ?_⟩
  · intro p q a hp hq hpl hql hwp hwq
    rcases bootMem_walk hp hpl hwp with ⟨rfl, rfl⟩ | ⟨rfl, rfl⟩ | ⟨rfl, rfl⟩ | ⟨rfl, rfl⟩ <;>
      rcases bootMem_walk hq hql hwq with ⟨rfl, h⟩ | ⟨rfl, h⟩ | ⟨rfl, h⟩ | ⟨rfl, h⟩ <;>
      first
        | rfl
        | exact absurd h (by decide)
  · intro p a hp hpl hw
    rcases bootMem_walk hp hpl hw with ⟨-, rfl⟩ | ⟨-, rfl⟩ | ⟨-, rfl⟩ | ⟨-, rfl⟩
    · exact ⟨1, by show 1 < n; omega, decide_eq_true (by omega), rfl⟩
    · exact ⟨4, by show 4 < n; omega, decide_eq_true (by omega), rfl⟩
    · exact ⟨2, by show 2 < n; omega, decide_eq_true (by omega), rfl⟩
    · exact ⟨3, by show 3 < n; omega, decide_eq_true (by omega), rfl⟩
  · intro p i u hp hl hw hpres
    have hi := (kernelPlaces _ _).lt p i hp
    have hu := walk_mod (show (0x1000 : ℕ) % 4096 = 0 by decide) hw
    rcases bootMem_present hi hu hpres with ⟨rfl, -, -⟩ | ⟨-, -, he⟩ | ⟨-, -, he⟩ | ⟨-, -, he⟩
    · obtain ⟨v, -, -, -, hflat⟩ := id hp
      apply hflat p i _ List.prefix_rfl _ hl hw hpres
      rintro rfl
      exact absurd (Option.some.inj hw) (by decide)
    · exact (congrArg huge he).trans (by decide)
    · exact (congrArg huge he).trans (by decide)
    · exact (congrArg huge he).trans (by decide)

theorem bootPhys_ok (hlo : 0 < lo) (hn : n * pageSize ≤ 2 ^ 52) : (bootPhys lo n).Ok :=
  ⟨decide_eq_true hlo, hn⟩

theorem bootPhys_spaces (hlo : 5 ≤ lo) (hn : lo ≤ n) (hb : n * pageSize ≤ 2 ^ 52) :
    SpacesInit ⟨bootPhys lo n, 0x1000, []⟩ :=
  ⟨bootPhys_ok (by omega) hb, bootPhys_tree hlo hn, rfl⟩

theorem bootPhys_create (hlo : 5 ≤ lo) (hn : lo < n) (hb : n * pageSize ≤ 2 ^ 52) :
    ∃ m, Reach spaceStep FlatCall SpacesInit
        ⟨{ (bootPhys lo n).take lo with ram := m }, 0x1000, [lo * pageSize]⟩ ∧
      ∀ x, x / pageSize ≠ lo → m x = bootMem x := by
  have hinit := bootPhys_spaces hlo (le_of_lt hn) hb
  have halloc : pmmAllocFrame (bootPhys lo n) = ((bootPhys lo n).take lo, lo * pageSize) := by
    have hfind : (List.range n).find? (fun f => !decide (f < lo)) = some lo := by
      rw [List.find?_range_eq_some]
      refine ⟨by simp, List.mem_range.mpr hn, ?_⟩
      intro j hj
      simpa using hj
    unfold pmmAllocFrame
    rw [show (List.range (bootPhys lo n).totalFrames).find?
      (fun f => !(bootPhys lo n).used f) = some lo from hfind]
    rfl
  rcases addressSpaceCreate_cases hinit.1 hinit.2.1.root
    (show decide (0x1000 / pageSize < lo) = true from decide_eq_true (by unfold pageSize; omega)) with
    ⟨hnone, -⟩ | ⟨f, hf, m, hc, hne, hout, -, -⟩
  · have : lo ∈ (bootPhys lo n).free := Phys.mem_free.mpr ⟨hn, decide_eq_false (lt_irrefl lo)⟩
    rw [hnone] at this
    exact absurd this (Finset.notMem_empty lo)
  · have hflo : f = lo := by
      have h2 := congrArg Prod.snd hc
      unfold addressSpaceCreate at h2
      rw [halloc] at h2
      dsimp only at h2
      split at h2
      · exact absurd h2.symm hne
      · have h2 : lo * pageSize = f * pageSize := h2
        exact (Nat.eq_of_mul_eq_mul_right (by decide) h2).symm
    rw [hflo] at hc hne hout
    refine ⟨m, Reach.step (a := .create) (.init hinit) trivial ?_, hout⟩
    unfold spaceStep
    rw [hc]
    simp only [hne, if_false]

/-- Two processes, of which the second has mapped a page, when the first maps one. -/
theorem address_spaces_two : ∃ s s' r, Reach spaceStep FlatCall SpacesInit s ∧
    s.roots = [r, 0x200000] ∧ r ≠ 0x200000 ∧
    spaceStep s (.map 0x200000 0x400000 0x5000 7) = some s' ∧
    (∀ v, 256 ≤ pml4Idx v → translation s.phys.ram r v = translation s.phys.ram 0x200000 v) ∧
    ∀ v, translation s'.phys.ram r v = translation s.phys.ram r v := by
  obtain ⟨m, hfirst, -⟩ := @bootPhys_create 512 1024 (by decide) (by decide) (by decide)
  have hfree : 513 ∈ ({ (bootPhys 512 1024).take 512 with ram := m } : Phys).free :=
    Phys.mem_free.mpr ⟨show 513 < 1024 by decide, rfl⟩
  obtain ⟨s₁, r, hsecond, hroots, hne⟩ :=
    (reach_spacesOk hfirst).create_new (Finset.ne_empty_of_mem hfree)
  have hmem : r ∈ s₁.roots := by simp [hroots]
  have hmem' : 0x200000 ∈ s₁.roots := by simp [hroots, pageSize]
  have hmap : ∀ s : Spaces, ∀ root ∈ s.roots, ∀ frame,
      spaceStep s (.map root 0x400000 frame 7) =
        some { s with phys := (vmmMapPage s.phys root 0x400000 frame 7).1 } :=
    fun s root hroot frame => if_pos ⟨hroot, by decide, by decide⟩
  have hcreated : Reach spaceStep FlatCall SpacesInit s₁ :=
    Reach.step (a := SpaceOp.create) hfirst trivial hsecond
  have hreach := Reach.step (a := SpaceOp.map r 0x400000 0x6000 7) hcreated trivial
    (hmap s₁ r hmem 0x6000)
  have hnext := hmap { s₁ with phys := (vmmMapPage s₁.phys r 0x400000 0x6000 7).1 } 0x200000 hmem'
    0x5000
  obtain ⟨hshare, hcalls⟩ := address_spaces hreach
  have hr : r ≠ 0x200000 := fun heq => hne (by simp [heq, pageSize])
  refine ⟨_, _, r, hreach, hroots, hr, hnext, fun v hv => ?_, ?_⟩
  · rw [hshare r hmem v hv, hshare 0x200000 hmem' v hv]
  · exact (hcalls (.map 0x200000 0x400000 0x5000 7) 0x200000 _ rfl hnext).2 r hmem hr

/-- The first process has its PML4 at 2 MiB, where a huge page of the direct map begins. A
mapping in that page stores into the PML4. -/
theorem address_spaces_huge :
    ∃ s r v, Reach spaceStep (fun _ _ => True) SpacesInit s ∧ r ∈ s.roots ∧ 256 ≤ pml4Idx v ∧
      translation s.phys.ram r v ≠ translation s.phys.ram s.kernelPml4 v := by
  obtain ⟨m, hreach, hout⟩ := @bootPhys_create 512 1024 (by decide) (by decide) (by decide)
  have hm : ∀ t i, i < 512 → t = 0x1000 ∨ t = 0x2000 ∨ t = 0x3000 →
      entry m t i = entry bootMem t i := by
    intro t i hi ht
    apply entry_congr hi
    intro x hl hr
    apply hout
    unfold pageSize
    omega
  have h₁ : entry m 0x1000 256 = 0x2003 := by
    rw [hm _ _ (by decide) (by simp), bootMem_entry (by decide) (by decide)]
    rfl
  have h₂ : entry m 0x2000 0 = 0x3003 := by
    rw [hm _ _ (by decide) (by simp), bootMem_entry (by decide) (by decide)]
    rfl
  have h₃ : entry m 0x3000 1 = 0x200083 := by
    rw [hm _ _ (by decide) (by simp), bootMem_entry (by decide) (by decide)]
    rfl
  have h₄ : entry m 0x1000 300 = 0 := by
    rw [hm _ _ (by decide) (by simp), bootMem_entry (by decide) (by decide)]
    rfl
  let ph : Phys := { (bootPhys 512 1024).take 512 with ram := m }
  have hwalk : walk ph.ram 0x1000 (tables 0xFFFF80000032C000) = some 0x200000 := by
    rw [show tables 0xFFFF80000032C000 = [256, 0, 1] by decide +kernel,
      walk, show entry ph.ram 0x1000 256 = 0x2003 from h₁, if_pos (by decide),
      show addr 0x2003 = 0x2000 by decide, walk, show entry ph.ram 0x2000 0 = 0x3003 from h₂,
      if_pos (by decide), show addr 0x3003 = 0x3000 by decide, walk,
      show entry ph.ram 0x3000 1 = 0x200083 from h₃, if_pos (by decide),
      show addr 0x200083 = 0x200000 by decide]
    rfl
  have hs : spaceStep ⟨ph, 0x1000, [512 * pageSize]⟩ (.mapKernel 0xFFFF80000032C000 0x1000 3) =
      some ⟨{ ph with ram := setEntry m 0x200000 300 0x1003 }, 0x1000, [512 * pageSize]⟩ := by
    unfold spaceStep
    dsimp only
    rw [vmmMapPage_of_walk hwalk, show ptIdx 0xFFFF80000032C000 = 300 by decide +kernel, if_pos]
    · rfl
    refine ⟨by decide +kernel, ?_, by decide⟩
    rw [show pml4Idx 0xFFFF80000032C000 = 256 by decide +kernel,
      show entry ph.ram 0x1000 256 = 0x2003 from h₁]
    decide
  refine ⟨_, 0x200000, 300 * 2 ^ 39 + 256 * 2 ^ 30 + 2 ^ 12,
    (hreach.mono fun _ _ _ => trivial).step trivial hs, List.mem_singleton_self _,
    by decide +kernel, ?_⟩
  -- through the process, entry 300 leads to the kernel's own tables
  have hne : ∀ t i, i < 512 → t = 0x1000 ∨ t = 0x2000 ∨ t = 0x3000 →
      entry (setEntry m 0x200000 300 0x1003) t i = entry m t i := by
    intro t i hi ht
    exact entry_setEntry_of_ne hi (by decide) (by decide) (by omega) (by omega)
  have g₀ : entry (setEntry m 0x200000 300 0x1003) 0x200000 300 = 0x1003 :=
    entry_setEntry_self (by decide)
  have g₁ := (hne 0x1000 256 (by decide) (by simp)).trans h₁
  have g₂ := (hne 0x2000 0 (by decide) (by simp)).trans h₂
  have g₃ := (hne 0x3000 1 (by decide) (by simp)).trans h₃
  have g₄ := (hne 0x1000 300 (by decide) (by simp)).trans h₄
  intro hc
  replace hc := congrArg Prod.fst hc
  unfold translation vmmVirtToPhys at hc
  rw [show pml4Idx (300 * 2 ^ 39 + 256 * 2 ^ 30 + 2 ^ 12) = 300 by decide +kernel,
    show pdptIdx (300 * 2 ^ 39 + 256 * 2 ^ 30 + 2 ^ 12) = 256 by decide +kernel,
    show pdIdx (300 * 2 ^ 39 + 256 * 2 ^ 30 + 2 ^ 12) = 0 by decide +kernel,
    show ptIdx (300 * 2 ^ 39 + 256 * 2 ^ 30 + 2 ^ 12) = 1 by decide +kernel] at hc
  simp only [g₀, g₄, show addr 0x1003 = 0x1000 by decide, g₁, show addr 0x2003 = 0x2000 by decide,
    g₂, show addr 0x3003 = 0x3000 by decide, g₃, not_present_zero, Bool.not_false, if_true] at hc
  exact absurd hc (by decide +kernel)

end Boot

/-- Four tables, with two entries in the last one. -/
def twoPageMem (w₁ w₂ : ℕ) : Mem :=
  setEntry (setEntry (setEntry (setEntry (setEntry (fun _ => 0) 0x1000 0 0x2007) 0x2000 0 0x3007)
    0x3000 2 0x4007) 0x4000 510 w₁) 0x4000 511 w₂

/-- The machine around it: the frames below `lo` are in use. -/
def twoPagePhys (w₁ w₂ lo n : ℕ) : Phys := ⟨twoPageMem w₁ w₂, fun f => decide (f < lo), n⟩

section TwoPages

variable {w₁ w₂ t i a v lo n : ℕ} {p : List ℕ} {P : List ℕ → Prop}

theorem twoPageMem_entry (h₁ : w₁ < 2 ^ 64) (h₂ : w₂ < 2 ^ 64) (hi : i < 512) (ht : t % 4096 = 0) :
    entry (twoPageMem w₁ w₂) t i =
      if t = 0x4000 ∧ i = 511 then w₂ else if t = 0x4000 ∧ i = 510 then w₁
      else if t = 0x3000 ∧ i = 2 then 0x4007 else if t = 0x2000 ∧ i = 0 then 0x3007
      else if t = 0x1000 ∧ i = 0 then 0x2007 else 0 := by
  unfold twoPageMem
  rw [entry_setEntry_if hi (by decide) (by decide) ht h₂,
    entry_setEntry_if hi (by decide) (by decide) ht h₁]
  simp only [entry_setEntry_if hi, ht, Nat.reduceLT, Nat.reduceMod, Nat.reducePow, entry_zero]

theorem twoPageMem_present (h₁ : w₁ < 2 ^ 64) (h₂ : w₂ < 2 ^ 64) (hi : i < 512)
    (ht : t % 4096 = 0) (hne : t ≠ 0x4000)
    (hp : present (entry (twoPageMem w₁ w₂) t i) = true) :
    (t = 0x1000 ∧ i = 0 ∧ entry (twoPageMem w₁ w₂) t i = 0x2007) ∨
    (t = 0x2000 ∧ i = 0 ∧ entry (twoPageMem w₁ w₂) t i = 0x3007) ∨
    (t = 0x3000 ∧ i = 2 ∧ entry (twoPageMem w₁ w₂) t i = 0x4007) := by
  rw [twoPageMem_entry h₁ h₂ hi ht, if_neg (fun h => hne h.1), if_neg (fun h => hne h.1)] at hp ⊢
  split_ifs at hp ⊢ with h₃ h₄ h₅
  · exact Or.inr (Or.inr ⟨h₃.1, h₃.2, rfl⟩)
  · exact Or.inr (Or.inl ⟨h₄.1, h₄.2, rfl⟩)
  · exact Or.inl ⟨h₅.1, h₅.2, rfl⟩
  · exact absurd hp (by decide)

theorem twoPageMem_walk (h₁ : w₁ < 2 ^ 64) (h₂ : w₂ < 2 ^ 64) (hP : Places P) (hp : P p)
    (hl : p.length ≤ 3) (hw : walk (twoPageMem w₁ w₂) 0x1000 p = some a) :
    (p = [] ∧ a = 0x1000) ∨ (p = [0] ∧ a = 0x2000) ∨ (p = [0, 0] ∧ a = 0x3000) ∨
      (p = [0, 0, 2] ∧ a = 0x4000) := by
  induction p using List.reverseRecOn generalizing a with
  | nil => exact Or.inl ⟨rfl, (Option.some.inj hw).symm⟩
  | append_singleton p i ih =>
    rw [List.length_append, List.length_singleton] at hl
    have hi := hP.lt p i hp
    obtain ⟨u, hu, hpres, rfl⟩ := walk_concat_eq_some hw
    rcases ih (hP.head p i hp) (by omega) hu with
      ⟨rfl, rfl⟩ | ⟨rfl, rfl⟩ | ⟨rfl, rfl⟩ | ⟨rfl, -⟩
    · rcases twoPageMem_present h₁ h₂ hi (by decide) (by decide) hpres with
        ⟨-, rfl, he⟩ | ⟨ht, -⟩ | ⟨ht, -⟩
      · exact Or.inr (Or.inl ⟨rfl, he ▸ by decide⟩)
      · exact absurd ht (by decide)
      · exact absurd ht (by decide)
    · rcases twoPageMem_present h₁ h₂ hi (by decide) (by decide) hpres with
        ⟨ht, -⟩ | ⟨-, rfl, he⟩ | ⟨ht, -⟩
      · exact absurd ht (by decide)
      · exact Or.inr (Or.inr (Or.inl ⟨rfl, he ▸ by decide⟩))
      · exact absurd ht (by decide)
    · rcases twoPageMem_present h₁ h₂ hi (by decide) (by decide) hpres with
        ⟨ht, -⟩ | ⟨ht, -⟩ | ⟨-, rfl, he⟩
      · exact absurd ht (by decide)
      · exact absurd ht (by decide)
      · exact Or.inr (Or.inr (Or.inr ⟨rfl, he ▸ by decide⟩))
    · exact absurd hl (by decide)

theorem twoPagePhys_tree (h₁ : w₁ < 2 ^ 64) (h₂ : w₂ < 2 ^ 64) (hP : Places P) (hlo : 5 ≤ lo)
    (hn : lo ≤ n) : Tree (twoPagePhys w₁ w₂ lo n) 0x1000 P := by
  refine ⟨hP, by decide, ?_, ?_, ?_⟩
  · intro p q a hp hq hpl hql hwp hwq
    rcases twoPageMem_walk h₁ h₂ hP hp hpl hwp with ⟨rfl, rfl⟩ | ⟨rfl, rfl⟩ | ⟨rfl, rfl⟩ | ⟨rfl, rfl⟩ <;>
      rcases twoPageMem_walk h₁ h₂ hP hq hql hwq with ⟨rfl, h⟩ | ⟨rfl, h⟩ | ⟨rfl, h⟩ | ⟨rfl, h⟩ <;>
      first
        | rfl
        | exact absurd h (by decide)
  · intro p a hp hpl hw
    rcases twoPageMem_walk h₁ h₂ hP hp hpl hw with ⟨-, rfl⟩ | ⟨-, rfl⟩ | ⟨-, rfl⟩ | ⟨-, rfl⟩
    · exact ⟨1, by show 1 < n; omega, decide_eq_true (by omega), rfl⟩
    · exact ⟨2, by show 2 < n; omega, decide_eq_true (by omega), rfl⟩
    · exact ⟨3, by show 3 < n; omega, decide_eq_true (by omega), rfl⟩
    · exact ⟨4, by show 4 < n; omega, decide_eq_true (by omega), rfl⟩
  · intro p i u hp hl hw hpres
    have hi := hP.lt p i hp
    have hu : u % 4096 = 0 := walk_mod (by decide) hw
    have hne : u ≠ 0x4000 := by
      rcases twoPageMem_walk h₁ h₂ hP (hP.head p i hp) (by omega) hw with
        ⟨-, rfl⟩ | ⟨-, rfl⟩ | ⟨-, rfl⟩ | ⟨rfl, -⟩
      · decide
      · decide
      · decide
      · exact absurd hl (by decide)
    rcases twoPageMem_present h₁ h₂ hi hu hne hpres with ⟨-, -, he⟩ | ⟨-, -, he⟩ | ⟨-, -, he⟩
    · exact (congrArg huge he).trans (by decide)
    · exact (congrArg huge he).trans (by decide)
    · exact (congrArg huge he).trans (by decide)

theorem twoPageMem_leaf (h₁ : w₁ < 2 ^ 64) (h₂ : w₂ < 2 ^ 64) :
    leaf (twoPageMem w₁ w₂) 0x1000 v = if v / pageSize % 2 ^ 36 = 0x5FE then w₁
      else if v / pageSize % 2 ^ 36 = 0x5FF then w₂ else 0 := by
  have hlt : ptIdx v < 512 := Nat.mod_lt _ (by decide)
  have hpt : ptIdx v = v / pageSize % 2 ^ 36 % 512 := by
    unfold ptIdx pageSize
    omega
  have htables : tables v = [0, 0, 2] ↔ v / pageSize % 2 ^ 36 / 512 = 2 := by
    unfold tables pml4Idx pdptIdx pdIdx pageSize
    simp only [List.cons.injEq, and_true]
    omega
  by_cases htop : v / pageSize % 2 ^ 36 / 512 = 2
  · have e₁ : entry (twoPageMem w₁ w₂) 0x1000 0 = 0x2007 := by
      simp [twoPageMem_entry h₁ h₂]
    have e₂ : entry (twoPageMem w₁ w₂) 0x2000 0 = 0x3007 := by
      simp [twoPageMem_entry h₁ h₂]
    have e₃ : entry (twoPageMem w₁ w₂) 0x3000 2 = 0x4007 := by
      simp [twoPageMem_entry h₁ h₂]
    have hwalk : walk (twoPageMem w₁ w₂) 0x1000 (tables v) = some 0x4000 := by
      rw [htables.mpr htop, walk, e₁, if_pos (by decide), show addr 0x2007 = 0x2000 by decide,
        walk, e₂, if_pos (by decide), show addr 0x3007 = 0x3000 by decide,
        walk, e₃, if_pos (by decide), show addr 0x4007 = 0x4000 by decide]
      rfl
    rw [leaf_of_walk hwalk, twoPageMem_entry h₁ h₂ hlt (by decide)]
    have hlast : ptIdx v = 510 ↔ v / pageSize % 2 ^ 36 = 0x5FE := by omega
    have hnext : ptIdx v = 511 ↔ v / pageSize % 2 ^ 36 = 0x5FF := by omega
    simp only [true_and, hlast, hnext]
    split_ifs <;> first | rfl | omega
  · have hwalk : walk (twoPageMem w₁ w₂) 0x1000 (tables v) = none := by
      by_contra hc
      obtain ⟨a, ha⟩ := Option.ne_none_iff_exists'.mp hc
      have hp : ∃ u, True ∧ tables v <+: indices u := ⟨v, trivial, ⟨[ptIdx v], rfl⟩⟩
      rcases twoPageMem_walk h₁ h₂ (places_of fun _ => True) hp le_rfl ha with
        ⟨h, -⟩ | ⟨h, -⟩ | ⟨h, -⟩ | ⟨h, -⟩
      · exact absurd (congrArg List.length h) (by simp [length_tables])
      · exact absurd (congrArg List.length h) (by simp [length_tables])
      · exact absurd (congrArg List.length h) (by simp [length_tables])
      · exact htop (htables.mp h)
    rw [leaf_of_walk_none hwalk, if_neg (by omega), if_neg (by omega)]

theorem twoPageMem_translation (h₁ : w₁ < 2 ^ 64) (h₂ : w₂ < 2 ^ 64) :
    translation (twoPageMem w₁ w₂) 0x1000 v =
      (if present (leaf (twoPageMem w₁ w₂) 0x1000 v) then
        addr (leaf (twoPageMem w₁ w₂) 0x1000 v) + v % pageSize else 0,
        leaf (twoPageMem w₁ w₂) 0x1000 v) := by
  have T := twoPagePhys_tree h₁ h₂ (places_of fun _ => True) (le_refl 5) (le_refl 5)
  have hflat : NoHuge (twoPageMem w₁ w₂) 0x1000 v := T.noHuge ⟨v, trivial, List.prefix_rfl⟩
  unfold translation
  rw [vmmVirtToPhys_eq hflat, vmmGetPte_eq hflat,
    or_eq_add (k := 12) (addr_mod _) (Nat.mod_lt _ (by decide))]
  rfl

end TwoPages

end VoidOS.Mm
