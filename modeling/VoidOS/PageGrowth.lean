import VoidOS.MmapReserve
import VoidOS.PageRelease

namespace VoidOS.Mm

open ByteMem PageTree Ownership

/-- How many tables are missing on the way down from the table `u`. -/
def missing (m : Mem) : ℕ → List ℕ → ℕ
  | _, [] => 0
  | u, i :: q => if present (entry m u i) then missing m (addr (entry m u i)) q else q.length + 1

/-- What a page at the address takes: an address of the user half, an entry of the record, and a
frame for it and for each table that is missing. -/
def Room (ph : Phys) (sp : Space) (virt : ℕ) : Prop :=
  virt < userLimit ∧ sp.umap.length < maxUmap ∧
    missing ph.ram sp.cr3 (tables virt) < ph.free.card

instance (ph : Phys) (sp : Space) (virt : ℕ) : Decidable (Room ph sp virt) := by
  delta Room
  infer_instance

section Room

variable {ph ph' : Phys} {sp sp' : Space} {t u i virt phys flags f : ℕ} {p q : List ℕ} {r : Option ℕ}
  {P : List ℕ → Prop} {m : Mem} {b : Bool}

theorem missing_same (T : Tree ph t P)
    (hsame : SameOn pageSize (tablesOf ph.ram t P) ph.ram ph'.ram)
    (hu : walk ph.ram t p = some u) (hq : P (p ++ q)) (hlen : (p ++ q).length ≤ 4) :
    missing ph'.ram u q = missing ph.ram u q := by
  induction q generalizing p u with
  | nil => rfl
  | cons i q ih =>
    rw [← List.singleton_append, ← List.append_assoc] at hq hlen
    have hi := T.places.append hq
    have hlen' := hlen
    rw [List.length_append, List.length_append, List.length_singleton] at hlen'
    rw [missing, missing, T.entry_same hsame (T.head hi) (T.lt hi) (by omega) hu]
    by_cases hp : present (entry ph.ram u i) = true
    · rw [if_pos hp, if_pos hp]
      exact ih (by rw [walk_concat_of hu, if_pos hp]) hq hlen
    · rw [if_neg hp, if_neg hp]

theorem missing_empty (h : ∀ i ∈ q, entry m u i = 0) : missing m u q = q.length := by
  cases q with
  | nil => rfl
  | cons i q =>
    rw [missing, h i List.mem_cons_self, not_present_zero, if_neg Bool.false_ne_true,
      List.length_cons]

/-- One level: there are frames enough before it if it succeeds and there are enough after it. -/
theorem walkOrCreate_missing (hok : ph.Ok) (T : Tree ph t P) (hp : P p) (hlen : p.length ≤ 3)
    (hu : walk ph.ram t p = some u) (hi : i < 512) (hq : ∀ j ∈ q, j < 512)
    (hflags : flags = 3 ∨ flags = 7) (hr : walkOrCreate ph u i flags = (ph', r)) :
    missing ph.ram u (i :: q) ≤ ph.free.card ↔
      ∃ a, r = some a ∧ missing ph'.ram a q ≤ ph'.free.card := by
  rw [missing]
  rcases @walkOrCreate_cases ph u i flags hok hflags with
    ⟨hpres, hw⟩ | ⟨habs, hnone, hw⟩ | ⟨f, hf, habs, hw⟩
  · rw [hw] at hr
    cases hr
    rw [if_pos hpres]
    simp
  · rw [hw] at hr
    cases hr
    rw [habs, if_neg Bool.false_ne_true, hnone, Finset.card_empty]
    simp
  · rw [hw] at hr
    cases hr
    rw [habs, if_neg Bool.false_ne_true]
    -- the new table is empty, and it is not the one above it
    obtain ⟨g, -, hg, rfl⟩ := T.frame p u hp hlen hu
    have hne : f ≠ g := by
      rintro rfl
      rw [(Phys.mem_free.mp hf).2] at hg
      cases hg
    have hempty : ∀ j ∈ q, entry (setEntry (zeros ph.ram (f * pageSize) pageSize) (g * pageSize) i
        (f * pageSize ||| flags)) (f * pageSize) j = 0 := by
      intro j hj
      have hmod : ∀ g, g * pageSize % 4096 = 0 := fun g => Nat.mul_mod_left g 4096
      rw [entry_setEntry_of_ne (hq j hj) hi (hmod g) (hmod f)]
      · exact entry_zeros (hq j hj)
      · rintro ⟨h, -⟩
        exact hne (Nat.eq_of_mul_eq_mul_right (by decide) h)
    have hcard := Phys.card_free_take hf
    have hfree : ∀ r : Mem, ({ ph.take f with ram := r } : Phys).free = (ph.take f).free :=
      fun _ => rfl
    simp only [Option.some.injEq, exists_eq_left', missing_empty hempty, hfree]
    omega

/-- `vmm_map_page` succeeds exactly if there is a frame for every table that is missing. -/
theorem vmmMapPage_succeeds (hok : ph.Ok) (T : Tree ph t P) (hv : P (indices virt)) :
    (vmmMapPage ph t virt phys flags).2 = true ↔
      missing ph.ram t (tables virt) ≤ ph.free.card := by
  have hplace : ∀ p, p <+: indices virt → P p := fun p hp => T.places.initial hv hp
  have htbl := tblFlags_cases flags
  have hlt : ∀ i ∈ indices virt, i < 512 := fun i hi => lt_of_mem_indices hi
  have h₁ : pml4Idx virt < 512 := hlt _ (by simp [indices_eq, tables])
  have h₂ : pdptIdx virt < 512 := hlt _ (by simp [indices_eq, tables])
  have h₃ : pdIdx virt < 512 := hlt _ (by simp [indices_eq, tables])
  unfold vmmMapPage tables
  dsimp only
  generalize (if user flags then vmmPresent ||| vmmWrite ||| vmmUser
    else vmmPresent ||| vmmWrite) = fl at htbl
  cases hw₁ : walkOrCreate ph t (pml4Idx virt) fl with
  | mk ph₁ r₁ =>
  rw [walkOrCreate_missing hok T (hplace [] List.nil_prefix) (by simp) rfl h₁
    (by simp [h₂, h₃]) htbl hw₁]
  obtain ⟨e₁, s₁⟩ := walkOrCreate_edit hok T (p := []) (hplace [_] ⟨_, rfl⟩) (by simp) rfl htbl hw₁
  cases r₁ with
  | none => simp
  | some pdpt =>
  dsimp only
  simp only [Option.some.injEq, exists_eq_left']
  have hok₁ := e₁.ok hok
  cases hw₂ : walkOrCreate ph₁ pdpt (pdptIdx virt) fl with
  | mk ph₂ r₂ =>
  rw [walkOrCreate_missing hok₁ e₁.tree (hplace [_] ⟨_, rfl⟩) (by simp) (s₁ _ rfl) h₂
    (by simp [h₃]) htbl hw₂]
  obtain ⟨e₂, s₂⟩ := walkOrCreate_edit hok₁ e₁.tree (p := [_]) (hplace [_, _] ⟨_, rfl⟩) (by simp)
    (s₁ _ rfl) htbl hw₂
  cases r₂ with
  | none => simp
  | some pd =>
  dsimp only
  simp only [Option.some.injEq, exists_eq_left']
  cases hw₃ : walkOrCreate ph₂ pd (pdIdx virt) fl with
  | mk ph₃ r₃ =>
  rw [walkOrCreate_missing (e₂.ok hok₁) e₂.tree (hplace [_, _] ⟨_, rfl⟩) (by simp) (s₂ _ rfl) h₃
    (by simp) htbl hw₃]
  cases r₃ with
  | none => simp
  | some pt => simp [missing]

theorem processAllocUserPage_succeeds (h : SpaceOk ph sp) :
    (processAllocUserPage ph sp virt flags).2.2 = true ↔ Room ph sp virt := by
  unfold processAllocUserPage Room
  rcases pmmAllocFrame_cases ph with ⟨hnone, ha⟩ | ⟨f, hf, ha⟩
  · rw [ha, hnone, Finset.card_empty]
    simp
  rw [ha]
  have hne := h.phys.ne_zero hf
  dsimp only
  rw [if_neg hne]
  have hsame : SameOn pageSize (tablesOf ph.ram sp.cr3 UserPlaces) ph.ram
      (zeros ph.ram (f * pageSize) pageSize) := by
    intro x hx
    apply zeros_apply
    by_contra hc
    have hxf : x / pageSize = f := div_page (by omega) (by omega)
    exact Phys.notMem_inUse hf (h.tree.tables_subset (hxf ▸ hx))
  generalize hph : ({ ph.take f with ram := zeros (ph.take f).ram (f * pageSize) pageSize } : Phys) =
    ph₁
  have hram : ph₁.ram = zeros ph.ram (f * pageSize) pageSize := by rw [← hph]; rfl
  have hfree : ph₁.free = (ph.take f).free := by rw [← hph]; rfl
  have hok₁ : ph₁.Ok := by
    rw [← hph]
    exact ⟨(h.phys.take f).zero, h.phys.bound⟩
  rw [← hram] at hsame
  have htree : Tree ph₁ sp.cr3 UserPlaces := by
    apply h.tree.congr hsame
    · rw [← hph]
      rfl
    · rw [← hph]
      show _ ⊆ (ph.take f).inUse
      rw [Phys.inUse_take]
      exact h.tree.tables_subset.trans (Set.subset_insert _ _)
  unfold processMapUser
  by_cases hv : userLimit ≤ virt
  · rw [if_pos hv]
    simp [Nat.not_lt.mpr hv]
  rw [if_neg hv]
  rw [not_le] at hv
  by_cases hlen : maxUmap ≤ sp.umap.length
  · rw [if_pos hlen]
    simp [Nat.not_lt.mpr hlen]
  rw [if_neg hlen]
  rw [not_le] at hlen
  have hmap := @vmmMapPage_succeeds ph₁ sp.cr3 virt (f * pageSize) (flags ||| vmmPresent ||| vmmUser)
    UserPlaces hok₁ htree (userPlaces_indices hv)
  have hmissing : missing ph₁.ram sp.cr3 (tables virt) = missing ph.ram sp.cr3 (tables virt) :=
    missing_same h.tree hsame (p := []) rfl (h.tree.place (userPlaces_indices hv))
      (show 3 ≤ 4 by decide)
  have hcard := Phys.card_free_take hf
  rw [hmissing, hfree] at hmap
  have hroom : (virt < userLimit ∧ sp.umap.length < maxUmap ∧
      missing ph.ram sp.cr3 (tables virt) < ph.free.card) ↔
      missing ph.ram sp.cr3 (tables virt) ≤ (ph.take f).free.card := by
    constructor
    · rintro ⟨-, -, h⟩
      omega
    · intro h
      exact ⟨hv, hlen, by omega⟩
  rw [hroom, ← hmap]
  cases vmmMapPage ph₁ sp.cr3 virt (f * pageSize) (flags ||| vmmPresent ||| vmmUser) with
  | mk ph₂ b =>
    cases b with
    | true => simp
    | false => simp

end Room

def pageEntry (phys flags : ℕ) : ℕ := phys ||| (flags ||| vmmPresent ||| vmmUser)

theorem present_pageEntry (phys flags : ℕ) : present (pageEntry phys flags) = true := by
  have hbit : Nat.testBit vmmPresent 0 = true := by decide
  unfold present pageEntry
  rw [Nat.testBit_or, Nat.testBit_or, Nat.testBit_or, hbit]
  simp

/-- The entries `es` have been added: each page is mapped and holds zeros, and nothing else has
happened to a page of the process. -/
structure Allocated (ph : Phys) (sp : Space) (ph' : Phys) (sp' : Space) (flags : ℕ)
    (es : List Mapping) : Prop where
  acts : Acts ph sp ph' sp'
  space : sp' = { sp with umap := sp.umap ++ es }
  virt : ∀ e ∈ es, e.virt < userLimit
  new : ∀ e ∈ es, ∀ v < userLimit, v / pageSize = e.virt / pageSize →
    leaf ph'.ram sp.cr3 v = pageEntry e.phys flags
  old : ∀ v < userLimit, (∀ e ∈ es, v / pageSize ≠ e.virt / pageSize) →
    leaf ph'.ram sp.cr3 v = leaf ph.ram sp.cr3 v
  zero : ∀ e ∈ es, ∀ x, x / pageSize * pageSize = e.phys → ph'.ram x = 0
  same : SameOn pageSize sp.data ph.ram ph'.ram

section Alloc

variable {ph ph' ph'' : Phys} {sp sp' sp'' : Space} {es es' : List Mapping} {e : Mapping}
  {v virt va flags n k base : ℕ} {b : Bool}

theorem Allocated.refl (h : SpaceOk ph sp) (flags : ℕ) : Allocated ph sp ph sp flags [] := by
  refine ⟨.refl h, ?_, ?_, ?_, fun _ _ _ => rfl, ?_, fun _ _ => rfl⟩
  · rw [List.append_nil]
  all_goals simp

theorem Allocated.trans (h : Allocated ph sp ph' sp' flags es)
    (h' : Allocated ph' sp' ph'' sp'' flags es')
    (hapart : ∀ e ∈ es, ∀ e' ∈ es', e.virt / pageSize ≠ e'.virt / pageSize) :
    Allocated ph sp ph'' sp'' flags (es ++ es') := by
  have hcr3 := h.acts.cr3
  have hdata : ∀ e ∈ sp.umap ++ es, ∀ f, e.phys = f * pageSize → f ∈ sp'.data := by
    intro e he f hf
    refine ⟨e, ?_, hf⟩
    rw [h.space]
    exact he
  refine ⟨h.acts.trans h'.acts, ?_, ?_, ?_, ?_, ?_, ?_⟩
  · rw [h'.space, h.space, List.append_assoc]
  · exact List.forall_mem_append.mpr ⟨h.virt, h'.virt⟩
  · refine List.forall_mem_append.mpr ⟨fun e he v hv hpage => ?_, fun e he v hv hpage => ?_⟩
    · rw [← hcr3, h'.old v hv fun e' he' => hpage ▸ hapart e he e' he', hcr3]
      exact h.new e he v hv hpage
    · rw [← hcr3]
      exact h'.new e he v hv hpage
  · intro v hv hne
    rw [List.forall_mem_append] at hne
    rw [← hcr3, h'.old v hv hne.2, hcr3]
    exact h.old v hv hne.1
  · refine List.forall_mem_append.mpr ⟨fun e he x hx => ?_, h'.zero⟩
    rw [h'.same x (hdata e (List.mem_append_right _ he) _ hx.symm)]
    exact h.zero e he x hx
  · refine h.same.trans (h'.same.mono ?_)
    rintro f ⟨e, he, hf⟩
    exact hdata e (List.mem_append_left _ he) f hf

theorem processAllocUserPage_allocated (h : SpaceOk ph sp) (hflags : PageFlags flags)
    (hr : processAllocUserPage ph sp virt flags = (ph', sp', b)) :
    ∃ es, Allocated ph sp ph' sp' flags es ∧
      ((b = false ∧ es = []) ∨ (b = true ∧ ∃ phys, es = [⟨virt, phys⟩])) := by
  obtain ⟨hacts, hsame, hcase⟩ := processAllocUserPage_spec h hflags hr
  rcases hcase with ⟨hb, hsp, hleaf⟩ | ⟨hb, hvirt, -, f, hf, hsp, hleaf, hzero⟩
  · refine ⟨[], ⟨hacts, ?_, by simp, by simp, fun v hv _ => hleaf v hv, by simp, hsame⟩,
      Or.inl ⟨hb, rfl⟩⟩
    rw [hsp, List.append_nil]
  · refine ⟨[⟨virt, f * pageSize⟩], ⟨hacts, hsp, by simpa using hvirt, ?_, ?_, ?_, hsame⟩,
      Or.inr ⟨hb, _, rfl⟩⟩
    · intro e he v hv hpage
      rw [List.mem_singleton.mp he] at hpage ⊢
      rw [hleaf v hv, if_pos hpage]
      rfl
    · intro v hv hne
      rw [hleaf v hv, if_neg (hne _ (List.mem_singleton_self _))]
    · intro e he x hx
      rw [List.mem_singleton.mp he] at hx
      exact hzero x (Nat.eq_of_mul_eq_mul_right (by decide) hx)

def pageRun (va n : ℕ) : List ℕ := (List.range n).map fun k => va + k * pageSize

theorem pageRun_succ (va n : ℕ) : pageRun va (n + 1) = va :: pageRun (va + pageSize) n := by
  unfold pageRun
  rw [List.range_succ_eq_map, List.map_cons, List.map_map, Nat.zero_mul, Nat.add_zero]
  congr 1
  apply List.map_congr_left
  intro k _
  rw [Function.comp_apply, Nat.succ_mul]
  omega

theorem allocPages_allocated (h : SpaceOk ph sp) (hflags : PageFlags flags)
    (hr : allocPages flags n va ph sp = (ph', sp', b)) :
    ∃ es, Allocated ph sp ph' sp' flags es ∧ es.map Mapping.virt = pageRun va es.length ∧
      (b = true → es.length = n) ∧ (0 < n → (es = [] ↔ ¬ Room ph sp va)) ∧ es.length ≤ n := by
  induction n generalizing va ph sp with
  | zero =>
    cases hr
    exact ⟨[], .refl h flags, rfl, fun _ => rfl, fun hn => absurd hn (Nat.lt_irrefl 0), le_rfl⟩
  | succ n ih =>
    rw [allocPages] at hr
    cases hp : processAllocUserPage ph sp va flags with
    | mk ph₁ r =>
    obtain ⟨sp₁, b₁⟩ := r
    have hroom := @processAllocUserPage_succeeds ph sp va flags h
    rw [hp] at hr hroom
    obtain ⟨es₁, ha₁, hcase⟩ := processAllocUserPage_allocated h hflags hp
    rcases hcase with ⟨rfl, rfl⟩ | ⟨rfl, phys, rfl⟩
    · cases hr
      exact ⟨[], ha₁, rfl, fun hc => absurd hc Bool.false_ne_true,
        fun _ => ⟨fun _ hc => absurd (hroom.mpr hc) Bool.false_ne_true, fun _ => rfl⟩,
        Nat.zero_le _⟩
    · obtain ⟨es, ha, hvirt, hlen, -, hle⟩ := ih ha₁.acts.ok hr
      refine ⟨[⟨va, phys⟩] ++ es, ha₁.trans ha ?_, ?_, fun hb => ?_, fun _ => ?_, ?_⟩
      · intro e he e' he'
        rw [List.mem_singleton.mp he]
        have hmem : e'.virt ∈ pageRun (va + pageSize) es.length :=
          hvirt ▸ List.mem_map_of_mem he'
        obtain ⟨k, -, hk⟩ := List.mem_map.mp hmem
        rw [← hk]
        show va / pageSize ≠ _
        unfold pageSize
        omega
      · rw [List.map_append, hvirt, List.length_append, List.length_singleton,
          Nat.add_comm 1, pageRun_succ]
        rfl
      · rw [List.length_append, hlen hb, List.length_singleton, Nat.add_comm]
      · exact ⟨fun hc => absurd hc (List.cons_ne_nil _ _), fun hc => absurd (hroom.mp rfl) hc⟩
      · rw [List.length_append, List.length_singleton]
        omega

/-- The loop of `sys_mmap` adds the same pages, and unmaps them if it fails. -/
theorem mmapLoop_eq : (mmapLoop flags base n k ph sp).2 =
    (allocPages flags n (base + k * pageSize) ph sp).2 := by
  induction n generalizing k ph sp with
  | zero => rfl
  | succ n ih =>
    rw [mmapLoop, allocPages]
    cases processAllocUserPage ph sp (base + k * pageSize) flags with
    | mk ph₁ r =>
    obtain ⟨sp₁, b₁⟩ := r
    cases b₁ with
    | false => rfl
    | true =>
      dsimp only
      rw [ih, Nat.succ_mul, ← Nat.add_assoc]

theorem mmapLoop_fst {ph₁ : Phys} {sp₁ : Space} (h : SpaceOk ph sp) (hflags : PageFlags flags)
    (hal : allocPages flags n (base + k * pageSize) ph sp = (ph₁, sp₁, b)) :
    (mmapLoop flags base n k ph sp).1 = if b then ph₁
      else unmapPages ph₁ sp.cr3 base (k + (sp₁.umap.length - sp.umap.length)) := by
  induction n generalizing k ph sp with
  | zero =>
    cases hal
    rfl
  | succ n ih =>
    rw [mmapLoop]
    rw [allocPages] at hal
    cases hp : processAllocUserPage ph sp (base + k * pageSize) flags with
    | mk ph₂ r =>
    obtain ⟨sp₂, b₂⟩ := r
    rw [hp] at hal
    obtain ⟨es, ha, hcase⟩ := processAllocUserPage_allocated h hflags hp
    rcases hcase with ⟨rfl, rfl⟩ | ⟨rfl, phys, rfl⟩
    · cases hal
      rw [ha.space]
      simp
    · dsimp only at hal ⊢
      have hnext : base + k * pageSize + pageSize = base + (k + 1) * pageSize := by
        rw [Nat.succ_mul, Nat.add_assoc]
      rw [hnext] at hal
      obtain ⟨es, ha', -⟩ := allocPages_allocated ha.acts.ok hflags hal
      have hlen₁ := congrArg (fun sp : Space => sp.umap.length) ha'.space
      have hlen₂ := congrArg (fun sp : Space => sp.umap.length) ha.space
      simp only [List.length_append, List.length_singleton] at hlen₁ hlen₂
      rw [ih ha.acts.ok hal, ha.acts.cr3, show k + 1 + (sp₁.umap.length - sp₂.umap.length) =
        k + (sp₁.umap.length - sp.umap.length) by omega]

end Alloc

theorem umBrkSet_grow {ph ph' : Phys} {sp sp' : Space} {newBrk : ℕ} {r : ℤ}
    (hgt : sp.brkCurrent < newBrk) (hr : umBrkSet ph sp newBrk = (ph', sp', r)) :
    (r = veInval ∧ ph' = ph ∧ sp' = sp) ∨
    (r = veNomem ∧ allocPages sp.brkPerm (pagesTo sp.brkCurrent newBrk) sp.brkCurrent ph sp =
      (ph', sp', false)) ∨
    (r = 0 ∧ ∃ sp₁, allocPages sp.brkPerm (pagesTo sp.brkCurrent newBrk) sp.brkCurrent ph sp =
      (ph', sp₁, true)) := by
  unfold umBrkSet umBrkGrow at hr
  by_cases hz : sp.heapStart = 0
  · rw [if_pos hz] at hr
    cases hr
    exact Or.inl ⟨rfl, rfl, rfl⟩
  rw [if_neg hz] at hr
  by_cases hlow : newBrk < sp.heapStart
  · rw [if_pos hlow] at hr
    cases hr
    exact Or.inl ⟨rfl, rfl, rfl⟩
  rw [if_neg hlow, if_pos hgt] at hr
  split at hr
  · rename_i hal
    cases hr
    exact Or.inr (Or.inl ⟨rfl, hal⟩)
  · rename_i sp₁ hal
    cases hr
    exact Or.inr (Or.inr ⟨rfl, sp₁, hal⟩)

/-- The heap has grown: its bytes are in user pages with the flags of the heap, what was mapped is
mapped as before and holds the same bytes, and new pages hold zeros. -/
structure GrowsHeap (ph : Phys) (sp : Space) (ph' : Phys) (newBrk : ℕ) : Prop where
  covered : ∀ v, sp.brkCurrent ≤ v → v < newBrk → v < userLimit ∧
    vmmGetPte ph'.ram sp.cr3 v = pageEntry (addr (vmmGetPte ph'.ram sp.cr3 v)) sp.brkPerm
  kept : ∀ v < userLimit, present (vmmGetPte ph.ram sp.cr3 v) = true →
    vmmGetPte ph'.ram sp.cr3 v = vmmGetPte ph.ram sp.cr3 v ∧
    ∀ x, x / pageSize * pageSize = addr (vmmGetPte ph.ram sp.cr3 v) → ph'.ram x = ph.ram x
  fresh : ∀ v < userLimit, present (vmmGetPte ph.ram sp.cr3 v) = false →
    present (vmmGetPte ph'.ram sp.cr3 v) = true →
    ∀ x, x / pageSize * pageSize = addr (vmmGetPte ph'.ram sp.cr3 v) → ph'.ram x = 0

/-- The loop of `um_brk_grow` visits the page of the address. -/
def Visited (sp : Space) (newBrk v : ℕ) : Prop :=
  ∃ k < pagesTo sp.brkCurrent newBrk, (sp.brkCurrent + k * pageSize) / pageSize = v / pageSize

/-- No page that the loop visits is mapped, and a page that it misses is mapped for the heap. -/
def GrowRoom (ph : Phys) (sp : Space) (newBrk : ℕ) : Prop :=
  (∀ v < userLimit, Visited sp newBrk v → present (vmmGetPte ph.ram sp.cr3 v) = false) ∧
  ∀ v, sp.brkCurrent ≤ v → v < newBrk → ¬ Visited sp newBrk v → v < userLimit ∧
    vmmGetPte ph.ram sp.cr3 v = pageEntry (addr (vmmGetPte ph.ram sp.cr3 v)) sp.brkPerm

section Grow

variable {ph ph' : Phys} {sp sp' : Space} {es : List Mapping} {newBrk v flags : ℕ}

theorem Allocated.fresh (ha : Allocated ph sp ph' sp' flags es) {e e' : Mapping} (he : e ∈ es)
    (he' : e' ∈ sp.umap) : e.phys ≠ e'.phys := by
  have hnd := ha.acts.ok.nodup
  rw [ha.space, List.map_append, List.nodup_append] at hnd
  exact fun hc => hnd.2.2 _ (List.mem_map_of_mem he') _ (List.mem_map_of_mem he) hc.symm

theorem Allocated.addr_entry (ha : Allocated ph sp ph' sp' flags es) (hflags : PageFlags flags)
    {e : Mapping} (he : e ∈ es) : addr (pageEntry e.phys flags) = e.phys := by
  have hmem : e ∈ sp'.umap := by
    rw [ha.space]
    exact List.mem_append_right _ he
  obtain ⟨f, hf, -, hp, -⟩ := ha.acts.ok.frame e hmem
  have hlt := ha.acts.ok.phys.frame_lt hf
  have hzero : addr (flags ||| vmmPresent ||| vmmUser) = 0 := by
    have hfl := hflags.2
    unfold addr at hfl ⊢
    rw [Nat.and_or_distrib_right, Nat.and_or_distrib_right, hfl]
    decide
  rw [hp]
  apply addr_or _ _ hzero
  · unfold pageSize
    omega
  · unfold pageSize at *
    omega

theorem visited_iff (hvirt : es.map Mapping.virt = pageRun sp.brkCurrent es.length)
    (hlen : es.length = pagesTo sp.brkCurrent newBrk) :
    Visited sp newBrk v ↔ ∃ e ∈ es, v / pageSize = e.virt / pageSize := by
  have hmem : ∀ a, a ∈ pageRun sp.brkCurrent es.length ↔
      ∃ k < pagesTo sp.brkCurrent newBrk, sp.brkCurrent + k * pageSize = a := by
    intro a
    unfold pageRun
    rw [hlen]
    simp only [List.mem_map, List.mem_range]
  constructor
  · rintro ⟨k, hk, hv⟩
    have hin := (hmem _).mpr ⟨k, hk, rfl⟩
    rw [← hvirt] at hin
    obtain ⟨e, he, hev⟩ := List.mem_map.mp hin
    exact ⟨e, he, by rw [hev, hv]⟩
  · rintro ⟨e, he, hv⟩
    have hin : e.virt ∈ pageRun sp.brkCurrent es.length := hvirt ▸ List.mem_map_of_mem he
    obtain ⟨k, hk, hev⟩ := (hmem _).mp hin
    exact ⟨k, hk, by rw [hev, hv]⟩

theorem GrowsHeap.visited (h : SpaceOk ph sp) (hg : GrowsHeap ph sp ph' newBrk)
    (ha : Allocated ph sp ph' sp' sp.brkPerm es) {e : Mapping} (he : e ∈ es) (hv : v < userLimit)
    (hpage : v / pageSize = e.virt / pageSize) :
    present (vmmGetPte ph.ram sp.cr3 v) = false := by
  by_contra hc
  rw [Bool.not_eq_false] at hc
  have hkept := (hg.kept v hv hc).1
  rw [h.pte hv] at hkept hc
  obtain ⟨e', he', -, hphys⟩ := h.recorded v hv hc
  have hpte : vmmGetPte ph'.ram sp.cr3 v = leaf ph'.ram sp.cr3 v := by
    rw [← ha.acts.cr3]
    exact ha.acts.ok.pte hv
  rw [hpte, ha.new e he v hv hpage] at hkept
  apply ha.fresh he he'
  rw [hphys, ← hkept, ha.addr_entry h.perm he]

end Grow

/-- `um_brk_set` with a higher break that succeeds grows the heap exactly if its loop finds no page
mapped and misses none. -/
theorem brk_grows_heap {ph ph' : Phys} {sp sp' : Space} {newBrk : ℕ} (h : SpaceOk ph sp)
    (hgt : sp.brkCurrent < newBrk) (hr : umBrkSet ph sp newBrk = (ph', sp', 0)) :
    GrowsHeap ph sp ph' newBrk ↔ GrowRoom ph sp newBrk := by
  rcases umBrkSet_grow hgt hr with ⟨hc, -⟩ | ⟨hc, -⟩ | ⟨-, sp₁, halloc⟩
  · exact absurd hc (by decide)
  · exact absurd hc (by decide)
  obtain ⟨es, ha, hvirt, hlen, -⟩ := allocPages_allocated h h.perm halloc
  have hlen := hlen rfl
  have hpte : ∀ v < userLimit, vmmGetPte ph'.ram sp.cr3 v = leaf ph'.ram sp.cr3 v := by
    intro v hv
    rw [← ha.acts.cr3]
    exact ha.acts.ok.pte hv
  -- what the reader gives afterwards, for a page that is visited and for one that is not
  have hnew : ∀ v < userLimit, Visited sp newBrk v → ∃ e ∈ es,
      vmmGetPte ph'.ram sp.cr3 v = pageEntry e.phys sp.brkPerm := by
    intro v hv hvis
    obtain ⟨e, he, hpage⟩ := (visited_iff hvirt hlen).mp hvis
    exact ⟨e, he, by rw [hpte v hv, ha.new e he v hv hpage]⟩
  have hold : ∀ v < userLimit, ¬ Visited sp newBrk v →
      vmmGetPte ph'.ram sp.cr3 v = vmmGetPte ph.ram sp.cr3 v := by
    intro v hv hvis
    rw [hpte v hv, h.pte hv]
    exact ha.old v hv fun e he hpage => hvis ((visited_iff hvirt hlen).mpr ⟨e, he, hpage⟩)
  constructor
  · intro hg
    refine ⟨fun v hv hvis => ?_, fun v hl hu hvis => ?_⟩
    · obtain ⟨e, he, hpage⟩ := (visited_iff hvirt hlen).mp hvis
      exact hg.visited h ha he hv hpage
    · obtain ⟨hv, hcov⟩ := hg.covered v hl hu
      rw [hold v hv hvis] at hcov
      exact ⟨hv, hcov⟩
  · rintro ⟨hclear, hmissed⟩
    refine ⟨fun v hl hu => ?_, fun v hv hp => ?_, fun v hv habs hp x hx => ?_⟩
    · by_cases hvis : Visited sp newBrk v
      · obtain ⟨e, he, hpage⟩ := (visited_iff hvirt hlen).mp hvis
        have hv : v < userLimit := by
          have hlt := ha.virt e he
          have hlim : userLimit % pageSize = 0 := by decide
          unfold pageSize at *
          omega
        rw [hpte v hv, ha.new e he v hv hpage, ha.addr_entry h.perm he]
        exact ⟨hv, rfl⟩
      · obtain ⟨hv, hcov⟩ := hmissed v hl hu hvis
        rw [hold v hv hvis]
        exact ⟨hv, hcov⟩
    · have hvis : ¬ Visited sp newBrk v := fun hc => by
        rw [hclear v hv hc] at hp
        cases hp
      refine ⟨hold v hv hvis, fun x hx => ?_⟩
      rw [h.pte hv] at hp hx
      obtain ⟨e, he, -, hphys⟩ := h.recorded v hv hp
      exact ha.same x ⟨e, he, hphys.trans hx.symm⟩
    · have hvis : Visited sp newBrk v := by
        by_contra hc
        rw [hold v hv hc, habs] at hp
        cases hp
      obtain ⟨e, he, hentry⟩ := hnew v hv hvis
      rw [hentry, ha.addr_entry h.perm he] at hx
      exact ha.zero e he x hx

section TwoPages

theorem growRoom_twoPage :
    GrowRoom (twoPagePhys 0x5007 0x6007 7 64) (twoPageSpace 0x401000) 0x402000 := by
  have hpages : pagesTo (twoPageSpace 0x401000).brkCurrent 0x402000 = 1 := by decide
  refine ⟨fun v _ => ?_, fun v hl hu hvis => absurd ⟨0, ?_, ?_⟩ hvis⟩
  · rintro ⟨k, hk, hv⟩
    rw [hpages] at hk
    obtain rfl : k = 0 := by omega
    replace hv : 0x401000 / pageSize = v / pageSize := hv
    apply @twoPage_clear 0x401000 0x402000 (Or.inl (by decide)) (by decide +kernel)
    · unfold pageSize at hv
      omega
    · unfold pageSize at hv
      omega
  · rw [hpages]
    exact Nat.one_pos
  · replace hl : 0x401000 ≤ v := hl
    show 0x401000 / pageSize = v / pageSize
    unfold pageSize
    omega

end TwoPages

/-- One more page for the heap of the process with two pages. -/
theorem brk_grows_heap_page : GrowsHeap (twoPagePhys 0x5007 0x6007 7 64) (twoPageSpace 0x401000)
    (umBrkSet (twoPagePhys 0x5007 0x6007 7 64) (twoPageSpace 0x401000) 0x402000).1 0x402000 := by
  have hok := twoPageSpace_ok 0x401000 (le_refl 7) (show 7 ≤ 64 by decide) (by decide)
  have hzero : (umBrkSet (twoPagePhys 0x5007 0x6007 7 64) (twoPageSpace 0x401000) 0x402000).2.2 =
      0 := by decide +kernel
  exact (brk_grows_heap hok (by decide) (Prod.ext rfl (Prod.ext rfl hzero))).mpr growRoom_twoPage

/-- What a failed call has to leave as it was: the pages of the process, its record and its break,
and the frames that are recorded and in use. -/
structure Unchanged (ph : Phys) (sp : Space) (ph' : Phys) (sp' : Space) : Prop where
  pages : ∀ v < userLimit, vmmGetPte ph'.ram sp.cr3 v = vmmGetPte ph.ram sp.cr3 v
  umap : sp'.umap = sp.umap
  brk : sp'.brkCurrent = sp.brkCurrent
  frames : sp'.data ∩ ph'.inUse = sp.data ∩ ph.inUse

/-- `sys_mmap` accepts its arguments, and this is the place for the mapping: the address that is
asked for, if it is free, or the highest window. -/
structure MmapPlace (m : Mem) (sp : Space) (addr length prot flags : ℕ) (fd : ℤ) (offset base : ℕ) :
    Prop where
  accepted : 0 < length ∧ length < userMmapTop ∧ fd = -1 ∧ offset = 0 ∧ flags = 0x22 ∧ prot ≠ 0
  place : if addr = 0 then HighestWindow m sp.cr3 (searchFloor sp) (pageUp length) (some base)
    else base = addr ∧ addr % pageSize = 0 ∧ addr < userMmapTop ∧
      Clear m sp.cr3 addr (addr + pageUp length)

section Failures

variable {ph ph' : Phys} {sp sp' : Space} {es : List Mapping} {addr length prot flags offset base n : ℕ}
  {fd : ℤ} {m : Mem}

theorem Unchanged.refl (ph : Phys) (sp : Space) : Unchanged ph sp ph sp :=
  ⟨fun _ _ => rfl, rfl, rfl, rfl⟩

theorem Allocated.unchanged_iff (h : SpaceOk ph sp) (ha : Allocated ph sp ph' sp' flags es) :
    Unchanged ph sp ph' sp' ↔ es = [] := by
  constructor
  · intro hu
    have humap := hu.umap
    rw [ha.space] at humap
    exact List.append_right_eq_self.mp humap
  · rintro rfl
    have hsp : sp' = sp := by
      rw [ha.space, List.append_nil]
    subst hsp
    refine ⟨fun v hv => ?_, rfl, rfl, ?_⟩
    · rw [ha.acts.ok.pte hv, h.pte hv]
      exact ha.old v hv (by simp)
    · rw [Set.inter_eq_left.mpr ha.acts.ok.data_subset, Set.inter_eq_left.mpr h.data_subset]

theorem pageUp_of_lt (h : length < userMmapTop) :
    pageDown (add64 length (pageSize - 1)) = pageUp length ∧ pageUp length ≤ userMmapTop ∧
      pageUp length % pageSize = 0 ∧ length ≤ pageUp length := by
  have hlim := userMmapTop_lt
  have htop : userMmapTop % pageSize = 0 := by decide
  unfold pageUp
  rw [add64_of_lt (by unfold pageSize; omega)]
  unfold pageDown pageSize at *
  omega

/-- The three ways in which the place of a mapping is chosen; the last is a search that has
wrapped around. -/
theorem mmapBase_cases (hacc : 0 < length ∧ length < userMmapTop ∧ fd = -1 ∧ offset = 0 ∧
      flags = 0x22 ∧ prot ≠ 0) :
    (∃ e, mmapBase m sp addr (pageUp length) = .error e ∧
      ∀ base, ¬ MmapPlace m sp addr length prot flags fd offset base) ∨
    (∃ base, mmapBase m sp addr (pageUp length) = .ok base ∧ base + pageUp length < 2 ^ 48 ∧
      ∀ b, MmapPlace m sp addr length prot flags fd offset b ↔ b = base) ∨
    ∃ base, mmapBase m sp addr (pageUp length) = .ok base ∧
      add64 base (pageUp length) ≤ base ∧
      ∀ b, ¬ MmapPlace m sp addr length prot flags fd offset b := by
  obtain ⟨hpos, hlt, -⟩ := id hacc
  obtain ⟨-, hle, hmod, hlen⟩ := pageUp_of_lt hlt
  have hlim := userMmapTop_lt
  unfold mmapBase
  by_cases hz : addr = 0
  · rw [if_pos hz]
    obtain ⟨hbig, hfit⟩ := @umMmapReserve_spec m sp (pageUp length) hmod (by omega)
    have hplace : ∀ b, MmapPlace m sp addr length prot flags fd offset b ↔
        HighestWindow m sp.cr3 (searchFloor sp) (pageUp length) (some b) := by
      intro b
      constructor
      · intro h
        have := h.place
        rwa [if_pos hz] at this
      · intro h
        exact ⟨hacc, by rwa [if_pos hz]⟩
    by_cases hroom : searchFloor sp + pageUp length ≤ userMmapTop
    · rcases (hfit hroom).2 with ⟨base, hr, hbase⟩ | ⟨hno, -, hr⟩ | ⟨hno, -, base, hr, -, hwrap⟩
      · rw [hr]
        refine Or.inr (Or.inl ⟨base, rfl, ?_, fun b => ?_⟩)
        · have := hbase.1.top
          omega
        · rw [hplace]
          constructor
          · intro hb
            exact le_antisymm (hbase.2 b hb.1) (hb.2 base hbase.1)
          · rintro rfl
            exact hbase
      · rw [hr]
        exact Or.inl ⟨_, rfl, fun b hb => hno b ((hplace b).mp hb).1⟩
      · rw [hr]
        exact Or.inr (Or.inr ⟨base, rfl, hwrap, fun b hb => hno b ((hplace b).mp hb).1⟩)
    · rw [hbig (by omega)]
      exact Or.inl ⟨_, rfl, fun b hb => @no_window _ sp _ _ (by omega) b ((hplace b).mp hb).1⟩
  · rw [if_neg hz]
    have hplace : ∀ b, MmapPlace m sp addr length prot flags fd offset b ↔
        b = addr ∧ addr % pageSize = 0 ∧ addr < userMmapTop ∧
          Clear m sp.cr3 addr (addr + pageUp length) := by
      intro b
      constructor
      · intro h
        have := h.place
        rwa [if_neg hz] at this
      · intro h
        exact ⟨hacc, by rwa [if_neg hz]⟩
    by_cases hal : addr % pageSize = 0
    swap
    · rw [if_pos hal]
      exact Or.inl ⟨_, rfl, fun b hb => hal ((hplace b).mp hb).2.1⟩
    rw [if_neg (not_not.mpr hal)]
    by_cases htop : userMmapTop ≤ addr
    · rw [if_pos htop]
      exact Or.inl ⟨_, rfl, fun b hb => absurd ((hplace b).mp hb).2.2.1 (by omega)⟩
    have hadd : add64 addr (pageUp length) = addr + pageUp length := add64_of_lt (by omega)
    rw [if_neg htop, hadd, if_neg (by omega)]
    have hclear := @umRangeClear_iff m sp.cr3 addr (addr + pageUp length) hal (by omega)
    by_cases hc : Clear m sp.cr3 addr (addr + pageUp length)
    · rw [hclear.mpr hc]
      refine Or.inr (Or.inl ⟨addr, rfl, by omega, fun b => ?_⟩)
      rw [hplace]
      exact and_iff_left ⟨hal, by omega, hc⟩
    · have hfalse : umRangeClear m sp.cr3 addr (addr + pageUp length) = false := by
        rw [← Bool.not_eq_true, hclear]
        exact hc
      rw [hfalse]
      exact Or.inl ⟨_, rfl, fun b hb => hc ((hplace b).mp hb).2.2.2⟩

theorem brk_failed (h : SpaceOk ph sp) (hr : sysBrk ph sp addr = (ph', sp', veNomem)) :
    Unchanged ph sp ph' sp' ↔ ¬ Room ph sp sp.brkCurrent := by
  have hbrk : ∀ b : ℕ, (b : ℤ) ≠ veNomem := by
    intro b hc
    have : veNomem = -12 := rfl
    omega
  unfold sysBrk at hr
  split at hr
  · exact absurd (congrArg (fun r => r.2.2) hr) (show veInval ≠ veNomem by decide)
  split at hr
  · exact absurd (congrArg (fun r => r.2.2) hr) (hbrk _)
  split at hr
  · exact absurd (congrArg (fun r => r.2.2) hr) (hbrk _)
  have hset : umBrkSet ph sp addr = (ph', sp', veNomem) := by
    split at hr
    · exact absurd (congrArg (fun r => r.2.2) hr) (hbrk _)
    · rename_i hs
      exact hs.trans hr
  rename_i hz _ hlow
  have hgt : sp.brkCurrent < addr := by
    by_contra hc
    unfold umBrkSet at hset
    rw [if_neg hz, if_neg hlow, if_neg hc] at hset
    split at hset
    · exact absurd (congrArg (fun r => r.2.2) hset) (show (0 : ℤ) ≠ veNomem by decide)
    · exact absurd (congrArg (fun r => r.2.2) hset) (show (0 : ℤ) ≠ veNomem by decide)
  rcases umBrkSet_grow hgt hset with ⟨hc, -⟩ | ⟨-, halloc⟩ | ⟨hc, -⟩
  · exact absurd hc (by decide)
  · obtain ⟨es, ha, -, -, hempty, -⟩ := allocPages_allocated h h.perm halloc
    rw [ha.unchanged_iff h]
    apply hempty
    unfold pagesTo pageSize
    omega
  · exact absurd hc (by decide)

/-- What `sys_mmap` can do: refuse, add the pages, or add some, fail and unmap them. -/
inductive Mmapped (ph : Phys) (sp : Space) (addr length prot flags : ℕ) (fd : ℤ) (offset perm : ℕ) :
    Phys → Space → ℤ → Prop
  | refused {r : ℤ} : (∀ b, ¬ MmapPlace ph.ram sp addr length prot flags fd offset b) →
      Mmapped ph sp addr length prot flags fd offset perm ph sp r
  | mapped {base : ℕ} {ph' : Phys} {sp' : Space} {es : List Mapping} :
      (∀ b, MmapPlace ph.ram sp addr length prot flags fd offset b ↔ b = base) →
      base + pageUp length < 2 ^ 48 → Allocated ph sp ph' sp' perm es →
      es.map Mapping.virt = pageRun base es.length → es.length = pageUp length / pageSize →
      Mmapped ph sp addr length prot flags fd offset perm ph' sp' base
  | failed {base : ℕ} {ph₁ : Phys} {sp' : Space} {es : List Mapping} :
      (∀ b, MmapPlace ph.ram sp addr length prot flags fd offset b ↔ b = base) →
      base + pageUp length < 2 ^ 48 → Allocated ph sp ph₁ sp' perm es →
      es.map Mapping.virt = pageRun base es.length → es.length ≤ pageUp length / pageSize →
      (es = [] ↔ ¬ Room ph sp base) →
      allocPages perm (pageUp length / pageSize) base ph sp = (ph₁, sp', false) →
      Mmapped ph sp addr length prot flags fd offset perm
        (unmapPages ph₁ sp.cr3 base es.length) sp' veNomem

theorem mmapped {nxOk : Bool} {r : ℤ} (h : SpaceOk ph sp)
    (hr : sysMmap nxOk ph sp addr length prot flags fd offset = (ph', sp', r)) :
    Mmapped ph sp addr length prot flags fd offset (mmapProtFlags nxOk prot) ph' sp' r := by
  have hflags : PageFlags (mmapProtFlags nxOk prot) :=
    (pageFlags_ite pageFlags_write).or (pageFlags_ite pageFlags_nx)
  -- nothing has been tried
  have hnone : (∀ base, ¬ MmapPlace ph.ram sp addr length prot flags fd offset base) →
      (ph', sp') = (ph, sp) →
      Mmapped ph sp addr length prot flags fd offset (mmapProtFlags nxOk prot) ph' sp' r := by
    rintro hno ⟨⟩
    exact .refused hno
  by_cases hacc : 0 < length ∧ length < userMmapTop ∧ fd = -1 ∧ offset = 0 ∧ flags = 0x22 ∧ prot ≠ 0
  swap
  · apply hnone fun base hb => hacc hb.accepted
    unfold sysMmap at hr
    split_ifs at hr with h₁ h₂ h₃ h₄ h₅
    · cases hr
      rfl
    · cases hr
      rfl
    · cases hr
      rfl
    · cases hr
      rfl
    · cases hr
      rfl
    · exfalso
      apply hacc
      push Not at h₃
      exact ⟨by omega, by omega, h₃.1, h₃.2, not_not.mp h₄, h₅⟩
  obtain ⟨hpos, hlt, hfd, hoff, hfl, hprot⟩ := id hacc
  obtain ⟨hsize, hle, hmod, hlen⟩ := pageUp_of_lt hlt
  have hlim := userMmapTop_lt
  unfold sysMmap at hr
  rw [if_neg (by omega), if_neg (by omega), if_neg (by simp [hfd, hoff]), if_neg (by simp [hfl]),
    if_neg hprot] at hr
  dsimp only at hr
  rw [hsize] at hr
  rcases @mmapBase_cases sp addr length prot flags offset fd ph.ram hacc with
    ⟨e, hb, hno⟩ | ⟨base, hb, hbound, hplace⟩ | ⟨base, hb, hwrap, hno⟩
  · rw [hb] at hr
    cases hr
    exact hnone hno rfl
  · rw [hb] at hr
    dsimp only at hr
    rw [add64_of_lt (by omega), if_pos (by omega)] at hr
    have hpages : 0 < pageUp length / pageSize := by
      unfold pageSize at *
      omega
    have hloop := @mmapLoop_eq ph sp (mmapProtFlags nxOk prot) (pageUp length / pageSize) 0 base
    rw [show base + 0 * pageSize = base by omega] at hloop
    cases hal : allocPages (mmapProtFlags nxOk prot) (pageUp length / pageSize) base ph sp with
    | mk ph₁ r₁ =>
    obtain ⟨sp₁, b₁⟩ := r₁
    obtain ⟨es, ha, hvirt, hall, hempty, hsome⟩ := allocPages_allocated h hflags hal
    have hfst := @mmapLoop_fst ph sp (mmapProtFlags nxOk prot) (pageUp length / pageSize) 0 base b₁
      ph₁ sp₁ h hflags (by rw [show base + 0 * pageSize = base by omega, hal])
    have hadded : 0 + (sp₁.umap.length - sp.umap.length) = es.length := by
      rw [ha.space]
      simp
    rw [hadded] at hfst
    rw [hal] at hloop
    cases hm : mmapLoop (mmapProtFlags nxOk prot) base (pageUp length / pageSize) 0 ph sp with
    | mk ph₂ r₂ =>
    rw [hm] at hloop hr hfst
    dsimp only at hloop hfst
    subst hloop hfst
    cases b₁ with
    | true =>
      cases hr
      -- a base of the user half is not negative
      have hbmod : (base : ℤ).bmod (2 ^ 64) = base := by
        apply Int.bmod_eq_of_le
        · omega
        · omega
      rw [hbmod]
      exact .mapped hplace hbound ha hvirt (hall rfl)
    | false =>
      cases hr
      exact .failed hplace hbound ha hvirt hsome (hempty hpages) hal
  · rw [hb] at hr
    dsimp only at hr
    rw [if_neg (by omega)] at hr
    cases hr
    exact hnone hno rfl

theorem mmap_failed {nxOk : Bool} {r : ℤ} (h : SpaceOk ph sp) (hneg : r < 0)
    (hr : sysMmap nxOk ph sp addr length prot flags fd offset = (ph', sp', r)) :
    Unchanged ph sp ph' sp' ↔
      ∀ base, MmapPlace ph.ram sp addr length prot flags fd offset base → ¬ Room ph sp base := by
  cases mmapped h hr with
  | refused hno => exact ⟨fun _ base hb => absurd hb (hno base), fun _ => .refl ph sp⟩
  | mapped => omega
  | failed hplace hbound ha hvirt hsome hempty hal =>
    simp only [hplace, forall_eq]
    rw [← hempty]
    constructor
    · intro hu
      have humap := hu.umap
      rw [ha.space] at humap
      exact List.append_right_eq_self.mp humap
    · rintro rfl
      exact (ha.unchanged_iff h).mpr rfl

end Failures

/-- A failed `sys_brk` or `sys_mmap` changes nothing exactly if there is no room for the first page,
or `sys_mmap` finds no place. -/
theorem failed_calls_unchanged {ph : Phys} {sp : Space} (h : SpaceOk ph sp) :
    (∀ addr ph' sp', sysBrk ph sp addr = (ph', sp', veNomem) →
      (Unchanged ph sp ph' sp' ↔ ¬ Room ph sp sp.brkCurrent)) ∧
    ∀ nxOk addr length prot flags fd offset ph' sp' r,
      sysMmap nxOk ph sp addr length prot flags fd offset = (ph', sp', r) → r < 0 →
      (Unchanged ph sp ph' sp' ↔ ∀ base,
        MmapPlace ph.ram sp addr length prot flags fd offset base → ¬ Room ph sp base) :=
  ⟨fun _ _ _ hr => brk_failed h hr, fun _ _ _ _ _ _ _ _ _ _ hr hneg => mmap_failed h hneg hr⟩

/-- No frame is left for the process with two pages. -/
theorem failed_calls_unchanged_full :
    Unchanged (twoPagePhys 0x5007 0x6007 7 7) (twoPageSpace 0x401000)
      (sysBrk (twoPagePhys 0x5007 0x6007 7 7) (twoPageSpace 0x401000) 0x403000).1
      (sysBrk (twoPagePhys 0x5007 0x6007 7 7) (twoPageSpace 0x401000) 0x403000).2.1 := by
  have hok := twoPageSpace_ok 0x401000 (le_refl 7) (le_refl 7) (by decide)
  have hfail : (sysBrk (twoPagePhys 0x5007 0x6007 7 7) (twoPageSpace 0x401000) 0x403000).2.2 =
      veNomem := by decide +kernel
  exact ((failed_calls_unchanged hok).1 _ _ _ (Prod.ext rfl (Prod.ext rfl hfail))).mpr
    (by decide +kernel)

/-- One frame is left: both calls fail at their second page, and keep the first. -/
theorem failed_calls_keep_page :
    SpaceOk (twoPagePhys 0x5007 0x6007 7 8) (twoPageSpace 0x401000) ∧
    (sysBrk (twoPagePhys 0x5007 0x6007 7 8) (twoPageSpace 0x401000) 0x403000).2.2 = veNomem ∧
    ¬ Unchanged (twoPagePhys 0x5007 0x6007 7 8) (twoPageSpace 0x401000)
      (sysBrk (twoPagePhys 0x5007 0x6007 7 8) (twoPageSpace 0x401000) 0x403000).1
      (sysBrk (twoPagePhys 0x5007 0x6007 7 8) (twoPageSpace 0x401000) 0x403000).2.1 ∧
    (sysMmap false (twoPagePhys 0x5007 0x6007 7 8) (twoPageSpace 0x401000) 0x402000 0x2000 3 0x22
      (-1) 0).2.2 = veNomem ∧
    ¬ Unchanged (twoPagePhys 0x5007 0x6007 7 8) (twoPageSpace 0x401000)
      (sysMmap false (twoPagePhys 0x5007 0x6007 7 8) (twoPageSpace 0x401000) 0x402000 0x2000 3 0x22
        (-1) 0).1
      (sysMmap false (twoPagePhys 0x5007 0x6007 7 8) (twoPageSpace 0x401000) 0x402000 0x2000 3 0x22
        (-1) 0).2.1 := by
  refine ⟨twoPageSpace_ok _ (by decide) (by decide) (by decide), by decide +kernel, fun hc => ?_,
    by decide +kernel, fun hc => ?_⟩
  · exact absurd hc.umap (by decide +kernel)
  · exact absurd hc.umap (by decide +kernel)

end VoidOS.Mm
