import VoidOS.TableLaws

namespace VoidOS.Mm

open ByteMem PageTree Ownership

/-! ## Huge pages -/

/-- The huge page that an address is in: the address in the entry that maps it, and the size. -/
def hugePage (m : Mem) (t v : ℕ) : Option (ℕ × ℕ) :=
  let pml4e := entry m t (pml4Idx v)
  if !present pml4e then none
  else
    let pdpte := entry m (addr pml4e) (pdptIdx v)
    if !present pdpte then none
    else if huge pdpte then some (addr pdpte, 2 ^ 30)
    else
      let pde := entry m (addr pdpte) (pdIdx v)
      if !present pde then none
      else if huge pde then some (addr pde, 2 ^ 21)
      else none

/-- The physical address is in a huge page that is mapped. -/
def HugeCovers (m : Mem) (t x : ℕ) : Prop :=
  ∃ v a n, hugePage m t v = some (a, n) ∧ x / n = a / n

/-- The places down to the first huge entry below the root. -/
def FlatPlaces (m : Mem) (t : ℕ) (p : List ℕ) : Prop :=
  ∃ v, p <+: indices v ∧ ∀ q i u, q ++ [i] <+: p → q ≠ [] → q.length ≤ 2 →
    walk m t q = some u → present (entry m u i) = true → huge (entry m u i) = false

/-- The entries that `vmm_map_page` follows to a table. -/
def mapEntries (m : Mem) (frames : List ℕ) (t virt flags : ℕ) : List ℕ :=
  let tblFlags := if user flags then vmmPresent ||| vmmWrite ||| vmmUser
    else vmmPresent ||| vmmWrite
  match walkOrCreateBy m frames t (pml4Idx virt) tblFlags with
  | (_, _, none) => []
  | (m₁, frames₁, some pdpt) =>
    entry m₁ t (pml4Idx virt) ::
      match walkOrCreateBy m₁ frames₁ pdpt (pdptIdx virt) tblFlags with
      | (_, _, none) => []
      | (m₂, frames₂, some pd) =>
        entry m₂ pdpt (pdptIdx virt) ::
          match walkOrCreateBy m₂ frames₂ pd (pdIdx virt) tblFlags with
          | (_, _, none) => []
          | (m₃, _, some _) => [entry m₃ pd (pdIdx virt)]

/-- The entries that `vmm_unmap_page` follows to a table. -/
def unmapEntries (m : Mem) (t virt : ℕ) : List ℕ :=
  let pml4e := entry m t (pml4Idx virt)
  if !present pml4e then []
  else
    let pdpte := entry m (addr pml4e) (pdptIdx virt)
    if !present pdpte then [pml4e]
    else
      let pde := entry m (addr pdpte) (pdIdx virt)
      if !present pde then [pml4e, pdpte]
      else [pml4e, pdpte, pde]

/-- The entry is no huge leaf, and leads to a table of the tree or to a new frame. -/
def ToTable (m : Mem) (t : ℕ) (frames : List ℕ) (w : ℕ) : Prop :=
  huge w = false ∧ (addr w / pageSize ∈ tablesOf m t (FlatPlaces m t) ∨ addr w ∈ frames)

/-- The bytes of the huge pages, outside the tables of the tree and the new frames, are kept. -/
def KeepsHuge (m : Mem) (t : ℕ) (frames : List ℕ) (m' : Mem) : Prop :=
  ∀ x, HugeCovers m t x → x / pageSize ∉ tablesOf m t (FlatPlaces m t) →
    x / pageSize * pageSize ∉ frames → m' x = m x

/-- What an address on a page with this entry translates to. -/
def pageAddr (w v : ℕ) : ℕ := if present w then addr w + v % pageSize else 0

/-- `vmm_map_page` walks tables only, keeps the huge pages, and the address translates as it
reports. -/
structure SafeMap (m : Mem) (frames : List ℕ) (t virt phys flags : ℕ) : Prop where
  walked : ∀ w ∈ mapEntries m frames t virt flags, ToTable m t frames w
  bytes : KeepsHuge m t frames (vmmMapPageBy m frames t virt phys flags).1
  agrees : vmmVirtToPhys (vmmMapPageBy m frames t virt phys flags).1 t virt =
    if (vmmMapPageBy m frames t virt phys flags).2 then pageAddr (addr phys ||| flags) virt
    else vmmVirtToPhys m t virt

/-- The same for `vmm_unmap_page`, which reports the frame that was mapped. -/
structure SafeUnmap (ph : Phys) (t virt : ℕ) : Prop where
  walked : ∀ w ∈ unmapEntries ph.ram t virt, ToTable ph.ram t [] w
  bytes : KeepsHuge ph.ram t [] (vmmUnmapPage ph t virt).1.ram
  agrees : vmmVirtToPhys (vmmUnmapPage ph t virt).1.ram t virt = 0 ∧
    (vmmUnmapPage ph t virt).2 = vmmVirtToPhys ph.ram t virt / pageSize * pageSize

section Huge

variable {m m' : Mem} {ph ph' : Phys} {t u v x virt phys flags a i f : ℕ} {frames frames' : List ℕ}
  {P : List ℕ → Prop} {L : ℕ → ℕ} {p : List ℕ}

theorem flatPlaces (m : Mem) (t : ℕ) : Places (FlatPlaces m t) where
  head := by
    rintro p i ⟨v, hp, hflat⟩
    exact ⟨v, (List.prefix_append p [i]).trans hp,
      fun q j u hq => hflat q j u (hq.trans (List.prefix_append p [i]))⟩
  lt := by
    rintro p i ⟨v, hp, -⟩
    exact lt_of_mem_indices (hp.subset (List.mem_append_right p (List.mem_singleton_self i)))

/-- An address in no huge page is below no huge entry. -/
theorem flat_of_none (h : hugePage m t v = none) : FlatPlaces m t (indices v) := by
  refine ⟨v, List.prefix_rfl, ?_⟩
  intro q i u hq hne hlen hw hp
  unfold hugePage at h
  -- the entry is the one in the second or in the third table
  match q, hne, hlen with
  | [j], _, _ =>
    obtain ⟨rfl, rfl⟩ : j = pml4Idx v ∧ i = pdptIdx v := by simpa [indices_eq, tables] using hq
    obtain ⟨r, hr, hp₁, rfl⟩ := walk_concat_eq_some (p := []) hw
    cases hr
    by_contra hh
    rw [Bool.not_eq_false] at hh
    simp [hp₁, hp, hh] at h
  | [j, k], _, _ =>
    obtain ⟨rfl, rfl, rfl⟩ : j = pml4Idx v ∧ k = pdptIdx v ∧ i = pdIdx v := by
      simpa [indices_eq, tables] using hq
    obtain ⟨r, hr, hp₂, rfl⟩ := walk_concat_eq_some (p := [pml4Idx v]) hw
    obtain ⟨s, hs, hp₁, rfl⟩ := walk_concat_eq_some (p := []) hr
    cases hs
    by_cases hh : huge (entry m (addr (entry m t (pml4Idx v))) (pdptIdx v)) = true
    · simp [hp₁, hp₂, hh] at h
    · simpa [hp₁, hp₂, hh, hp] using h

/-- Where an address is in a huge page, both calls follow the entry that maps it. -/
theorem follows_huge {b : ℕ × ℕ} (h : hugePage m t virt = some b) :
    (∃ w ∈ mapEntries m frames t virt flags, huge w = true) ∧
      ∃ w ∈ unmapEntries m t virt, huge w = true := by
  unfold hugePage at h
  dsimp only at h
  by_cases p₁ : present (entry m t (pml4Idx virt)) = true
  swap
  · simp [p₁] at h
  by_cases p₂ : present (entry m (addr (entry m t (pml4Idx virt))) (pdptIdx virt)) = true
  swap
  · simp [p₁, p₂] at h
  by_cases g₂ : huge (entry m (addr (entry m t (pml4Idx virt))) (pdptIdx virt)) = true
  · refine ⟨⟨_, ?_, g₂⟩, ⟨_, ?_, g₂⟩⟩
    · simp [mapEntries, walkOrCreateBy, p₁, p₂]
    · unfold unmapEntries
      dsimp only
      simp only [p₁, p₂, Bool.not_true, Bool.false_eq_true, if_false]
      split <;> simp
  · by_cases p₃ : present (entry m (addr (entry m (addr (entry m t (pml4Idx virt)))
        (pdptIdx virt))) (pdIdx virt)) = true
    swap
    · simp [p₁, p₂, g₂, p₃] at h
    by_cases g₃ : huge (entry m (addr (entry m (addr (entry m t (pml4Idx virt)))
        (pdptIdx virt))) (pdIdx virt)) = true
    swap
    · simp [p₁, p₂, g₂, p₃, g₃] at h
    refine ⟨⟨_, ?_, g₃⟩, ⟨_, ?_, g₃⟩⟩
    · simp [mapEntries, walkOrCreateBy, p₁, p₂, p₃]
    · simp [unmapEntries, p₁, p₂, p₃]

/-- A table that an edit adds was one of the answers. -/
theorem Edit.tables_new (e : Edit t P (withFrames m frames) ph' L) (hf : f ∈ tablesOf ph'.ram t P) :
    f ∈ tablesOf m t P ∨ f * pageSize ∈ frames := by
  by_contra hc
  push Not at hc
  have hused : f ∈ (withFrames m frames).inUse := withFrames_used.mpr (Or.inr hc.2)
  exact Set.disjoint_left.mp e.own.apart hf ⟨hused, hc.1⟩

/-- What an entry on the way to a table is, after an edit. -/
theorem Edit.toTable (e : Edit t (FlatPlaces m t) (withFrames m frames) ph' L)
    (hp : FlatPlaces m t (p ++ [i])) (hlen : p.length ≤ 2) (hu : PageTree.walk ph'.ram t p = some u)
    (ha : PageTree.walk ph'.ram t (p ++ [i]) = some a) :
    ToTable m t frames (entry ph'.ram u i) := by
  obtain ⟨u', hu', hpres, rfl⟩ := walk_concat_eq_some ha
  obtain rfl : u = u' := Option.some.inj (hu.symm.trans hu')
  refine ⟨e.tree.flat p i u hp hlen hu hpres, ?_⟩
  have hdiv : addr (entry ph'.ram u i) / pageSize * pageSize = addr (entry ph'.ram u i) :=
    Nat.div_mul_cancel (Nat.dvd_of_mod_eq_zero (addr_mod _))
  rw [← hdiv] at ha
  have hmem := e.tables_new ⟨p ++ [i], hp, by simpa using Nat.succ_le_succ hlen, ha⟩
  rwa [hdiv] at hmem

/-- Above the last level `vmm_map_page` follows the entries of the tree. -/
theorem mapEntries_toTable (T : TableTree m t (FlatPlaces m t))
    (hfr : Outside m t (FlatPlaces m t) frames) (hv : FlatPlaces m t (indices virt)) :
    ∀ w ∈ mapEntries m frames t virt flags, ToTable m t frames w := by
  have hplace : ∀ p, p <+: indices virt → FlatPlaces m t p := fun p hp => T.places.initial hv hp
  have hok := withFrames_ok m frames
  have hT := T.tree hfr
  have htbl := tblFlags_cases flags
  unfold mapEntries
  dsimp only
  split
  · exact fun w hw => absurd hw List.not_mem_nil
  rename_i hw₁
  obtain ⟨ph₁, rfl, e₁, hfr₁, s₁⟩ := walkOrCreateBy_edit hok hT (p := []) (hplace [_] ⟨_, rfl⟩)
    (by simp) rfl htbl hfr.answers hw₁
  have s₁ := s₁ _ rfl
  have hok₁ := e₁.ok hok
  refine List.forall_mem_cons.mpr ⟨e₁.toTable (p := []) (hplace [_] ⟨_, rfl⟩) (by simp) rfl s₁, ?_⟩
  split
  · exact fun w hw => absurd hw List.not_mem_nil
  rename_i hw₂
  obtain ⟨ph₂, rfl, e₂, hfr₂, s₂⟩ := walkOrCreateBy_edit hok₁ e₁.tree (p := [_])
    (hplace [_, _] ⟨_, rfl⟩) (by simp) s₁ htbl hfr₁ hw₂
  have s₂ := s₂ _ rfl
  have e₁₂ := e₁.trans e₂
  have w₂ := e₂.walk _ _ (hplace [_] ⟨_, rfl⟩) (by simp) s₁
  refine List.forall_mem_cons.mpr
    ⟨e₁₂.toTable (p := [_]) (hplace [_, _] ⟨_, rfl⟩) (by simp) w₂ s₂, ?_⟩
  split
  · exact fun w hw => absurd hw List.not_mem_nil
  rename_i hw₃
  obtain ⟨ph₃, rfl, e₃, -, s₃⟩ := walkOrCreateBy_edit (e₂.ok hok₁) e₂.tree (p := [_, _])
    (hplace [_, _, _] ⟨_, rfl⟩) (by simp) s₂ htbl hfr₂ hw₃
  have w₃ := e₃.walk _ _ (hplace [_, _] ⟨_, rfl⟩) (by simp) s₂
  exact List.forall_mem_singleton.mpr
    ((e₁₂.trans e₃).toTable (p := [_, _]) (hplace [_, _, _] ⟨_, rfl⟩) (by simp) w₃ (s₃ _ rfl))

/-- So does `vmm_unmap_page`. -/
theorem unmapEntries_toTable (T : TableTree m t (FlatPlaces m t))
    (hv : FlatPlaces m t (indices virt)) : ∀ w ∈ unmapEntries m t virt, ToTable m t [] w := by
  have hplace : ∀ p, p <+: indices virt → FlatPlaces m t p := fun p hp => T.places.initial hv hp
  have e := (T.tree (outside_nil m t _)).refl
  have hstep : ∀ p i u, p ++ [i] <+: indices virt → p.length ≤ 2 → walk m t p = some u →
      present (entry m u i) = true →
      ToTable m t [] (entry m u i) ∧ walk m t (p ++ [i]) = some (addr (entry m u i)) := by
    intro p i u hp hlen hu hpres
    have ha : walk m t (p ++ [i]) = some (addr (entry m u i)) := by
      rw [walk_concat_of hu, if_pos hpres]
    exact ⟨e.toTable (hplace _ hp) hlen hu ha, ha⟩
  unfold unmapEntries
  dsimp only
  by_cases p₁ : present (entry m t (pml4Idx virt)) = true
  swap
  · simp [p₁]
  obtain ⟨h₁, w₁⟩ := hstep [] (pml4Idx virt) t ⟨_, rfl⟩ (by simp) rfl p₁
  by_cases p₂ : present (entry m (addr (entry m t (pml4Idx virt))) (pdptIdx virt)) = true
  swap
  · simp [p₁, p₂, h₁]
  obtain ⟨h₂, w₂⟩ := hstep [pml4Idx virt] (pdptIdx virt) _ ⟨_, rfl⟩ (by simp) w₁ p₂
  by_cases p₃ : present (entry m (addr (entry m (addr (entry m t (pml4Idx virt)))
      (pdptIdx virt))) (pdIdx virt)) = true
  swap
  · simp [p₁, p₂, p₃, h₁, h₂]
  obtain ⟨h₃, -⟩ := hstep [pml4Idx virt, pdptIdx virt] (pdIdx virt) _ ⟨_, rfl⟩ (by simp) w₂ p₃
  simp [p₁, p₂, p₃, h₁, h₂, h₃]

end Huge

/-! ## Huge leaves as tables -/

/-- Both calls are safe at exactly the addresses that are in no huge page. -/
theorem huge_leaves_walked {ph : Phys} {t virt phys flags : ℕ} {frames : List ℕ}
    (T : TableTree ph.ram t (FlatPlaces ph.ram t))
    (hfr : Outside ph.ram t (FlatPlaces ph.ram t) frames) (hflags : flags < 2 ^ 64) :
    (SafeMap ph.ram frames t virt phys flags ↔ hugePage ph.ram t virt = none) ∧
      (SafeUnmap ph t virt ↔ hugePage ph.ram t virt = none) := by
  have hphys : ∀ {m}, TableTree m t (FlatPlaces ph.ram t) → FlatPlaces ph.ram t (indices virt) →
      vmmVirtToPhys m t virt = pageAddr (leaf m t virt) virt :=
    fun T₁ hv => congrArg Prod.fst (T₁.translation hv)
  have hself : SamePage virt virt := rfl
  constructor
  · constructor
    · intro h
      by_contra hc
      obtain ⟨b, hb⟩ := Option.ne_none_iff_exists'.mp hc
      obtain ⟨⟨w, hw, hhuge⟩, -⟩ := @follows_huge ph.ram t virt flags frames b hb
      exact Bool.false_ne_true ((h.walked w hw).1.symm.trans hhuge)
    · intro hnone
      have hv := flat_of_none hnone
      cases hr : vmmMapPageBy ph.ram frames t virt phys flags with
      | mk m' b =>
      obtain ⟨T', hleaf, hkeep⟩ := T.map hfr hv hflags hr
      refine ⟨mapEntries_toTable T hfr hv, ?_, ?_⟩
      · rw [hr]
        exact fun x _ ht hx => hkeep x hx ht
      · rw [hr, hphys T' hv, hleaf virt hv]
        cases b with
        | true =>
          rw [if_pos ⟨rfl, hself⟩]
          rfl
        | false =>
          rw [if_neg (fun h => Bool.false_ne_true h.1)]
          exact (hphys T hv).symm
  · constructor
    · intro h
      by_contra hc
      obtain ⟨b, hb⟩ := Option.ne_none_iff_exists'.mp hc
      obtain ⟨-, w, hw, hhuge⟩ := @follows_huge ph.ram t virt flags frames b hb
      exact Bool.false_ne_true ((h.walked w hw).1.symm.trans hhuge)
    · intro hnone
      have hv := flat_of_none hnone
      obtain ⟨T', hleaf, hold, hkeep⟩ := T.unmap hv rfl
      refine ⟨unmapEntries_toTable T hv, fun x _ ht _ => hkeep x ht, ?_, ?_⟩
      · rw [hphys T' hv]
        apply if_neg
        rw [hleaf virt hv]
        by_cases hp : present (leaf ph.ram t virt) = true
        · rw [if_pos ⟨hself, hp⟩, not_present_zero]
          exact Bool.false_ne_true
        · rwa [if_neg (fun h => hp h.2)]
      · rw [hold, hphys T hv, pageAddr]
        have hmod := addr_mod (leaf ph.ram t virt)
        split
        · unfold pageSize
          omega
        · rfl

section Boot

variable {p : List ℕ} {a i : ℕ}

/-- The tables of the boot loader are those of the kernel. -/
theorem bootMem_flat (hp : FlatPlaces bootMem 0x1000 p) (hw : walk bootMem 0x1000 p = some a) :
    KernelPlaces bootMem 0x1000 p := by
  obtain ⟨v, hpre, hflat⟩ := hp
  cases p with
  | nil =>
    exact ⟨0xFFFF800000000000, by decide, List.nil_prefix, fun h => absurd rfl h, hflat⟩
  | cons i p =>
    obtain ⟨hi, -⟩ := List.cons_prefix_cons.mp (show i :: p <+: pml4Idx v :: _ from hpre)
    subst hi
    have hpres : present (entry bootMem 0x1000 (pml4Idx v)) = true := by
      by_contra hc
      rw [walk, if_neg hc] at hw
      cases hw
    refine ⟨v, ?_, hpre, fun _ => hpres, hflat⟩
    rcases bootMem_present (show pml4Idx v < 512 from Nat.mod_lt _ (by decide)) (by decide) hpres
      with ⟨h, -⟩ | ⟨h, -⟩ | ⟨-, h, -⟩ | ⟨-, h, -⟩
    · exact absurd h (by decide)
    · exact absurd h (by decide)
    · omega
    · omega

theorem bootMem_tables : TableTree bootMem 0x1000 (FlatPlaces bootMem 0x1000) := by
  have T := @bootPhys_tree 512 512 (by decide) le_rfl
  refine ⟨flatPlaces _ _, by decide, ?_, ?_⟩
  · intro p q a hp hq hpl hql hwp hwq
    exact T.apart p q a (bootMem_flat hp hwp) (bootMem_flat hq hwq) hpl hql hwp hwq
  · intro p i u hp hl hw hpres
    have hnext : walk bootMem 0x1000 (p ++ [i]) = some (addr (entry bootMem u i)) := by
      rw [walk_concat_of hw, if_pos hpres]
    exact T.flat p i u (bootMem_flat hp hnext) hl hw hpres

theorem bootMem_outside :
    Outside bootMem 0x1000 (FlatPlaces bootMem 0x1000) [0x5000, 0x6000, 0x7000] := by
  refine ⟨by decide, fun a ha _ => ?_⟩
  have hrange : 0x5000 ≤ a ∧ a % pageSize = 0 ∧ a < 2 ^ 52 := by
    simp only [List.mem_cons, List.not_mem_nil, or_false] at ha
    rcases ha with rfl | rfl | rfl <;> decide
  refine ⟨hrange.2.1, hrange.2.2, fun p hp hl hw => ?_⟩
  rcases bootMem_walk (bootMem_flat hp hw) hl hw with ⟨-, h⟩ | ⟨-, h⟩ | ⟨-, h⟩ | ⟨-, h⟩ <;> omega

end Boot

theorem huge_leaves_walked_boot :
    hugePage bootMem 0x1000 0x400000 = none ∧
      (vmmMapPageBy bootMem [0x5000, 0x6000, 0x7000] 0x1000 0x400000 0x8000 3).2 = true ∧
      SafeMap (bootPhys 512 1024).ram [0x5000, 0x6000, 0x7000] 0x1000 0x400000 0x8000 3 ∧
      SafeUnmap (bootPhys 512 1024) 0x1000 0x400000 := by
  have hnone : hugePage bootMem 0x1000 0x400000 = none := by decide +kernel
  obtain ⟨hmap, hunmap⟩ := @huge_leaves_walked (bootPhys 512 1024) 0x1000 0x400000 0x8000 3 _
    bootMem_tables bootMem_outside (by decide)
  exact ⟨hnone, by decide +kernel, hmap.mpr hnone, hunmap.mpr hnone⟩

/-- In the tables of the boot loader, a call inside the direct map writes an entry into the data
of a huge page; it reports success, and the address translates as before. -/
theorem direct_map_overwritten :
    TableTree bootMem 0x1000 (FlatPlaces bootMem 0x1000) ∧
    hugePage bootMem 0x1000 0xFFFF800000200000 = some (0x200000, 2 ^ 21) ∧
    HugeCovers bootMem 0x1000 0x200000 ∧
    (vmmMapPageBy bootMem [] 0x1000 0xFFFF800000200000 0x5000 3).1 0x200000 ≠ bootMem 0x200000 ∧
    (vmmMapPageBy bootMem [] 0x1000 0xFFFF800000200000 0x5000 3).2 = true ∧
    vmmVirtToPhys (vmmMapPageBy bootMem [] 0x1000 0xFFFF800000200000 0x5000 3).1 0x1000
      0xFFFF800000200000 = 0x200000 ∧
    ¬ SafeMap bootMem [] 0x1000 0xFFFF800000200000 0x5000 3 ∧
    ¬ SafeUnmap (bootPhys 512 1024) 0x1000 0xFFFF800000200000 := by
  have hpage : hugePage bootMem 0x1000 0xFFFF800000200000 = some (0x200000, 2 ^ 21) := by
    decide +kernel
  obtain ⟨⟨w, hw, hhuge⟩, w', hw', hhuge'⟩ := @follows_huge _ _ _ 3 [] _ hpage
  refine ⟨bootMem_tables, hpage, ⟨_, _, _, hpage, rfl⟩, by decide +kernel, by decide +kernel,
    by decide +kernel, fun h => ?_, fun h => ?_⟩
  · exact Bool.false_ne_true ((h.walked w hw).1.symm.trans hhuge)
  · exact Bool.false_ne_true ((h.walked w' hw').1.symm.trans hhuge')

end VoidOS.Mm
