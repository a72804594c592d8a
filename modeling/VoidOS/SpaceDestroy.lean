import VoidOS.SpaceOps

namespace VoidOS.Mm

open ByteMem PageTree Ownership

/-- The frames of a table and of the tables up to `n` levels below it. -/
def tablesBelow (m : Mem) (t n : ℕ) : Set ℕ :=
  {f | ∃ p, p.length ≤ n ∧ (∀ i ∈ p, i < 512) ∧ walk m t p = some (f * pageSize)}

/-- Frees a table and the tables up to `n` levels below it. -/
def freeLevels : ℕ → Phys → ℕ → Phys
  | 0, ph, t => pmmFreeFrame ph t
  | n + 1, ph, t =>
    pmmFreeFrame ((List.range 512).foldl
      (fun ph i =>
        if present (entry ph.ram t i) then freeLevels n ph (addr (entry ph.ram t i)) else ph) ph) t

section Levels

variable {ph ph' : Phys} {m : Mem} {sp : Space} {t u n i k f : ℕ} {p : List ℕ} {S : ℕ → Set ℕ}

theorem tablesBelow_zero (h : t % pageSize = 0) : tablesBelow m t 0 = {t / pageSize} := by
  ext f
  constructor
  · rintro ⟨p, hl, -, hw⟩
    rw [List.length_eq_zero_iff.mp (Nat.le_zero.mp hl)] at hw
    rw [Option.some.inj hw, Nat.mul_div_cancel _ (show 0 < pageSize by decide)]
    rfl
  · intro hf
    refine ⟨[], le_rfl, by simp, ?_⟩
    rw [Set.mem_singleton_iff.mp hf, Nat.div_mul_cancel (Nat.dvd_of_mod_eq_zero h)]
    rfl

theorem tablesBelow_succ (h : t % pageSize = 0) : tablesBelow m t (n + 1) =
    {t / pageSize} ∪ {f | ∃ i < 512, present (entry m t i) = true ∧
      f ∈ tablesBelow m (addr (entry m t i)) n} := by
  ext f
  constructor
  · rintro ⟨p, hl, hlt, hw⟩
    cases p with
    | nil =>
      left
      rw [Option.some.inj hw, Nat.mul_div_cancel _ (show 0 < pageSize by decide)]
      rfl
    | cons i p =>
      rw [walk] at hw
      split at hw
      · rename_i hp
        rw [List.length_cons] at hl
        exact Or.inr ⟨i, hlt i (List.mem_cons_self ..), hp, p, by omega,
          fun j hj => hlt j (List.mem_cons_of_mem i hj), hw⟩
      · cases hw
  · rintro (hf | ⟨i, hi, hp, p, hl, hlt, hw⟩)
    · refine ⟨[], Nat.zero_le _, by simp, ?_⟩
      rw [Set.mem_singleton_iff.mp hf, Nat.div_mul_cancel (Nat.dvd_of_mod_eq_zero h)]
      rfl
    · refine ⟨i :: p, by rw [List.length_cons]; omega, ?_, ?_⟩
      · intro j hj
        rcases List.mem_cons.mp hj with rfl | hj
        · exact hi
        · exact hlt j hj
      · rw [walk, if_pos hp]
        exact hw

theorem foldl_free {g : Phys → ℕ → Phys} (hg : ∀ ph' i, i < k → ph'.ram = ph.ram →
      ph'.totalFrames = ph.totalFrames → (g ph' i).ram = ph.ram ∧
        (g ph' i).totalFrames = ph.totalFrames ∧ (g ph' i).inUse = ph'.inUse \ S i) :
    let ph' := (List.range k).foldl g ph
    ph'.ram = ph.ram ∧ ph'.totalFrames = ph.totalFrames ∧
      ph'.inUse = ph.inUse \ {f | ∃ i < k, f ∈ S i} := by
  induction k with
  | zero => exact ⟨rfl, rfl, by simp⟩
  | succ k ih =>
    obtain ⟨hram, htotal, hused⟩ := ih fun ph' i hi => hg ph' i (by omega)
    rw [List.range_succ, List.foldl_append, List.foldl_cons, List.foldl_nil]
    obtain ⟨h₁, h₂, h₃⟩ := hg _ k (by omega) hram htotal
    refine ⟨h₁, h₂, ?_⟩
    rw [h₃, hused, Set.sdiff_sdiff]
    congr 1
    ext f
    constructor
    · rintro (⟨i, hi, hf⟩ | hf)
      · exact ⟨i, by omega, hf⟩
      · exact ⟨k, by omega, hf⟩
    · rintro ⟨i, hi, hf⟩
      by_cases hik : i = k
      · exact Or.inr (hik ▸ hf)
      · exact Or.inl ⟨i, by omega, hf⟩

theorem inUse_free_addr (ht : t % pageSize = 0) (hlt : t / pageSize < ph.totalFrames) :
    (pmmFreeFrame ph t).inUse = ph.inUse \ {t / pageSize} := by
  have := @Phys.inUse_free ph (t / pageSize) hlt
  rwa [Nat.div_mul_cancel (Nat.dvd_of_mod_eq_zero ht)] at this

theorem freeLevels_spec (ht : t % pageSize = 0)
    (hlt : ∀ f ∈ tablesBelow ph.ram t n, f < ph.totalFrames) :
    (freeLevels n ph t).ram = ph.ram ∧ (freeLevels n ph t).totalFrames = ph.totalFrames ∧
      (freeLevels n ph t).inUse = ph.inUse \ tablesBelow ph.ram t n := by
  induction n generalizing ph t with
  | zero =>
    rw [tablesBelow_zero ht] at hlt ⊢
    exact ⟨pmmFreeFrame_ram ph t, pmmFreeFrame_total ph t,
      inUse_free_addr ht (hlt _ (Set.mem_singleton _))⟩
  | succ n ih =>
    rw [tablesBelow_succ ht] at hlt ⊢
    have hround := @foldl_free ph 512
      (fun i => {f | present (entry ph.ram t i) = true ∧
        f ∈ tablesBelow ph.ram (addr (entry ph.ram t i)) n})
      (fun ph i => if present (entry ph.ram t i) then freeLevels n ph (addr (entry ph.ram t i))
        else ph) (by
        intro ph' i hi hram htotal
        rw [hram]
        split
        · rename_i hp
          have hbelow : ∀ f ∈ tablesBelow ph'.ram (addr (entry ph.ram t i)) n,
              f < ph'.totalFrames := by
            intro f hf
            rw [hram] at hf
            rw [htotal]
            exact hlt f (Or.inr ⟨i, hi, hp, hf⟩)
          obtain ⟨h₁, h₂, h₃⟩ := ih (addr_mod (entry ph.ram t i)) hbelow
          refine ⟨h₁.trans hram, h₂.trans htotal, ?_⟩
          rw [h₃, hram]
          congr 1
          ext f
          simp [hp]
        · rename_i hp
          refine ⟨hram, htotal, ?_⟩
          simp [hp])
    obtain ⟨h₁, h₂, h₃⟩ := hround
    rw [freeLevels]
    refine ⟨(pmmFreeFrame_ram _ _).trans h₁, (pmmFreeFrame_total _ _).trans h₂, ?_⟩
    rw [inUse_free_addr ht (by rw [h₂]; exact hlt _ (Or.inl rfl)), h₃, Set.sdiff_sdiff,
      Set.union_comm]
    congr 1

end Levels

section Destroy

variable {ph ph' : Phys} {m' : Mem} {sp : Space} {t u n i j k f : ℕ} {p : List ℕ}

theorem userPlaces_cons (hi : i < 256) (hlt : ∀ j ∈ p, j < 512) (hl : p.length ≤ 2) :
    UserPlaces (i :: p) := by
  obtain ⟨a, b, ha, hb, hp⟩ : ∃ a b, a < 512 ∧ b < 512 ∧ p <+: [a, b] := by
    rcases p with _ | ⟨a, _ | ⟨b, _ | ⟨c, p⟩⟩⟩
    · exact ⟨0, 0, by decide, by decide, List.nil_prefix⟩
    · exact ⟨a, 0, hlt a (by simp), by decide, ⟨[0], rfl⟩⟩
    · exact ⟨a, b, hlt a (by simp), hlt b (by simp), List.prefix_rfl⟩
    · simp at hl
  have hv : indices (i * 2 ^ 39 + a * 2 ^ 30 + b * 2 ^ 21) = i :: [a, b] ++ [0] := by
    simp only [indices, List.cons_append, List.nil_append, List.cons.injEq, and_true]
    omega
  refine ⟨i * 2 ^ 39 + a * 2 ^ 30 + b * 2 ^ 21, ?_, ?_⟩
  · unfold pml4Idx
    omega
  · rw [hv]
    exact (List.cons_prefix_cons.mpr ⟨rfl, hp⟩).trans (List.prefix_append _ _)

section Below

variable (T : Tree ph t UserPlaces) (hi : i < 256) (hp : present (entry ph.ram t i) = true)

include hi hp

theorem tablesBelow_subset : tablesBelow ph.ram (addr (entry ph.ram t i)) 2 ⊆
    tablesOf ph.ram t UserPlaces := by
  rintro f ⟨p, hl, hlt, hw⟩
  refine ⟨i :: p, userPlaces_cons hi hlt hl, by rw [List.length_cons]; omega, ?_⟩
  rw [walk, if_pos hp]
  exact hw

include T

theorem tablesBelow_same (hm : ∀ x, x / pageSize ≠ t / pageSize → m' x = ph.ram x) :
    tablesBelow m' (addr (entry ph.ram t i)) 2 =
      tablesBelow ph.ram (addr (entry ph.ram t i)) 2 := by
  have hwalk : ∀ p, (∀ j ∈ p, j < 512) → p.length ≤ 2 →
      walk m' (addr (entry ph.ram t i)) p = walk ph.ram (addr (entry ph.ram t i)) p := by
    intro p
    induction p using List.reverseRecOn with
    | nil => exact fun _ _ => rfl
    | append_singleton p j ih =>
      intro hlt hl
      rw [List.length_append, List.length_singleton] at hl
      have hlt' : ∀ j ∈ p, j < 512 := fun j hj => hlt j (List.mem_append_left _ hj)
      rw [walk_concat, walk_concat, ih hlt' (by omega)]
      cases hw : walk ph.ram (addr (entry ph.ram t i)) p with
      | none => rfl
      | some a =>
        have hwa : walk ph.ram t (i :: p) = some a := by
          rw [walk, if_pos hp]
          exact hw
        have hplace := userPlaces_cons hi hlt' (by omega)
        obtain ⟨f, -, -, rfl⟩ := T.frame _ a hplace (by rw [List.length_cons]; omega) hwa
        have hne : f ≠ t / pageSize := by
          rintro rfl
          rw [Nat.div_mul_cancel (Nat.dvd_of_mod_eq_zero T.root)] at hwa
          have := T.apart (i :: p) [] t hplace (userPlaces.append (p := []) hplace)
            (by rw [List.length_cons]; omega) (Nat.zero_le 3) hwa rfl
          cases this
        have he : entry m' (f * pageSize) j = entry ph.ram (f * pageSize) j := by
          apply entry_congr (hlt j (by simp))
          intro x hl' hr'
          apply hm
          rwa [div_page hl' hr']
        rw [Option.bind_some, Option.bind_some, he]
  ext f
  constructor
  · rintro ⟨p, hl, hlt, hw⟩
    exact ⟨p, hl, hlt, (hwalk p hlt hl).symm.trans hw⟩
  · rintro ⟨p, hl, hlt, hw⟩
    exact ⟨p, hl, hlt, (hwalk p hlt hl).trans hw⟩

end Below

def clearEntry (ph : Phys) (t i : ℕ) : Phys :=
  { ph with ram := setEntry ph.ram t i 0 }

theorem clearEntry_totalFrames (ph : Phys) (t i : ℕ) :
    (clearEntry ph t i).totalFrames = ph.totalFrames := rfl

theorem clearEntry_ram (ph : Phys) (t i : ℕ) :
    (clearEntry ph t i).ram = setEntry ph.ram t i 0 := rfl

theorem clearEntry_inUse (ph : Phys) (t i : ℕ) : (clearEntry ph t i).inUse = ph.inUse := rfl

/-- One round of `freeTables`: the tables below entry `i` of the root. -/
def freeEntry (t : ℕ) (ph : Phys) (i : ℕ) : Phys :=
  if present (entry ph.ram t i) then
    clearEntry (freeLevels 2 ph (addr (entry ph.ram t i))) t i
  else ph

theorem freeTables_eq : freeTables ph t = (List.range 256).foldl (freeEntry t) ph := rfl

def tablesUnder (m : Mem) (t i : ℕ) : Set ℕ :=
  {f | present (entry m t i) = true ∧ f ∈ tablesBelow m (addr (entry m t i)) 2}

theorem tablesUnder_of_present {m : Mem} (hp : present (entry m t i) = true) :
    tablesUnder m t i = tablesBelow m (addr (entry m t i)) 2 := by
  ext f
  simp [tablesUnder, hp]

/-- The tables of a process: its root and what is below the entries of the lower half. -/
theorem tablesOf_eq (ht : t % pageSize = 0) : tablesOf ph.ram t UserPlaces =
    {t / pageSize} ∪ {f | ∃ i < 256, f ∈ tablesUnder ph.ram t i} := by
  ext f
  constructor
  · rintro ⟨p, hp, hl, hw⟩
    cases p with
    | nil =>
      left
      rw [Option.some.inj hw, Nat.mul_div_cancel _ (show 0 < pageSize by decide)]
      rfl
    | cons i p =>
      rw [walk] at hw
      split at hw
      · rename_i hpres
        obtain ⟨v, -, hpre⟩ := id hp
        rw [List.length_cons] at hl
        exact Or.inr ⟨i, userPlaces_head hp, hpres, p, by omega,
          fun j hj => lt_of_mem_indices (hpre.subset (List.mem_cons_of_mem i hj)), hw⟩
      · cases hw
  · rintro (hf | ⟨i, hi, hpres, p, hl, hlt, hw⟩)
    · refine ⟨[], ⟨0, by decide, List.nil_prefix⟩, Nat.zero_le 3, ?_⟩
      rw [Set.mem_singleton_iff.mp hf, Nat.div_mul_cancel (Nat.dvd_of_mod_eq_zero ht)]
      rfl
    · refine ⟨i :: p, userPlaces_cons hi hlt hl, by rw [List.length_cons]; omega, ?_⟩
      rw [walk, if_pos hpres]
      exact hw

theorem freeEntry_spec (ht : t % pageSize = 0) (hi : i < 512)
    (hlt : ∀ f ∈ tablesUnder ph.ram t i, f < ph.totalFrames) :
    (freeEntry t ph i).totalFrames = ph.totalFrames ∧
      (∀ x, x / pageSize ≠ t / pageSize → (freeEntry t ph i).ram x = ph.ram x) ∧
      (∀ j, j ≠ i → j < 512 → entry (freeEntry t ph i).ram t j = entry ph.ram t j) ∧
      (freeEntry t ph i).inUse = ph.inUse \ tablesUnder ph.ram t i := by
  by_cases hp : present (entry ph.ram t i) = true
  · obtain ⟨hram, htotal, hused⟩ :=
      @freeLevels_spec ph _ 2 (addr_mod (entry ph.ram t i)) (fun f hf => hlt f ⟨hp, hf⟩)
    rw [freeEntry, if_pos hp, clearEntry_totalFrames, clearEntry_ram, clearEntry_inUse, hram]
    refine ⟨htotal, ?_, ?_, ?_⟩
    · intro x hx
      rw [setEntry_apply hi]
      unfold pageSize at *
      omega
    · intro j hj hj'
      rw [entry_setEntry_of_ne hj' hi ht ht (fun h => hj h.2)]
    · rw [hused, tablesUnder_of_present hp]
  · rw [freeEntry, if_neg hp]
    refine ⟨rfl, fun _ _ => rfl, fun _ _ _ => rfl, ?_⟩
    simp [tablesUnder, hp]

theorem freeTables_rounds (T : Tree ph t UserPlaces) (hk : k ≤ 256)
    (hph : ph' = (List.range k).foldl (freeEntry t) ph) :
    ph'.totalFrames = ph.totalFrames ∧
      (∀ x, x / pageSize ≠ t / pageSize → ph'.ram x = ph.ram x) ∧
      (∀ j, k ≤ j → j < 512 → entry ph'.ram t j = entry ph.ram t j) ∧
      ph'.inUse = ph.inUse \ {f | ∃ i < k, f ∈ tablesUnder ph.ram t i} := by
  induction k generalizing ph' with
  | zero =>
    subst hph
    exact ⟨rfl, fun _ _ => rfl, fun _ _ _ => rfl, by simp⟩
  | succ k ih =>
    obtain ⟨htotal, hout, hentry, hused⟩ := ih (by omega) rfl
    rw [List.range_succ, List.foldl_append, List.foldl_cons, List.foldl_nil] at hph
    generalize (List.range k).foldl (freeEntry t) ph = ph₁ at *
    subst hph
    -- the rounds before have not touched what this one frees
    have hunder : tablesUnder ph₁.ram t k = tablesUnder ph.ram t k := by
      ext f
      simp only [tablesUnder, Set.mem_ofPred_eq, hentry k le_rfl (by omega)]
      refine and_congr_right fun hp => ?_
      rw [tablesBelow_same T (by omega) hp hout]
    obtain ⟨htotal₂, hout₂, hentry₂, hused₂⟩ :=
      @freeEntry_spec ph₁ t k T.root (by omega) (by
        rw [hunder, htotal]
        rintro f ⟨hp, hf⟩
        exact T.tables_lt (tablesBelow_subset (by omega) hp hf))
    refine ⟨htotal₂.trans htotal, fun x hx => (hout₂ x hx).trans (hout x hx), ?_, ?_⟩
    · intro j hj hj'
      exact (hentry₂ j (by omega) hj').trans (hentry j (by omega) hj')
    · rw [hused₂, hused, hunder, Set.sdiff_sdiff]
      congr 1
      ext f
      simp only [Set.mem_union, Set.mem_ofPred_eq, Nat.exists_lt_succ_right]

/-- `process_destroy_user_space` gives back all frames of the process and touches no other. -/
theorem processDestroyUserSpace_local (h : SpaceOk ph sp) :
    ph.Local (sp.frames ph) ∅ (processDestroyUserSpace ph sp).1 ∧
      (processDestroyUserSpace ph sp).1.totalFrames = ph.totalFrames := by
  have hacts := @releasePages_acts ph sp { sp with umap := [] } h rfl rfl h.perm
  unfold processDestroyUserSpace
  dsimp only
  generalize releasePages ph sp.cr3 sp.umap = ph₁ at *
  have T : Tree ph₁ sp.cr3 UserPlaces := hacts.ok.tree
  have hframes : ({ sp with umap := [] } : Space).frames ph₁ = tablesOf ph₁.ram sp.cr3 UserPlaces := by
    unfold Space.frames Space.data
    simp
  obtain ⟨htotal, hout, -, hused⟩ := freeTables_rounds T (le_refl 256) freeTables_eq
  generalize freeTables ph₁ sp.cr3 = ph₂ at *
  have hroot : sp.cr3 / pageSize ∈ tablesOf ph₁.ram sp.cr3 UserPlaces := by
    rw [tablesOf_eq T.root]
    exact Or.inl rfl
  have hown := hacts.own
  rw [hframes] at hown
  refine ⟨hown.trans ⟨?_, ?_, ?_⟩, ?_⟩
  · rw [Set.empty_union, inUse_free_addr T.root (htotal ▸ T.tables_lt hroot), hused,
      tablesOf_eq T.root, Set.sdiff_sdiff, Set.union_comm]
  · exact Set.empty_disjoint _
  · intro x hx
    rw [pmmFreeFrame_ram]
    apply hout
    intro hc
    exact hx.2 (hc ▸ hroot)
  · rw [pmmFreeFrame_total, htotal]
    exact hacts.total

end Destroy

end VoidOS.Mm
