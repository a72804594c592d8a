import Mathlib

/-!
# Ownership of blocks of memory

Memory is cut into blocks of `b` cells, some of which are in use. A step is local to a set of
blocks if it takes and gives back blocks of that set only and leaves the cells of all other
blocks in use as they are.
-/

namespace Ownership

variable {α : Type*} {b f : ℕ} {F F' F'' G used used' used'' : Set ℕ} {m m' m'' : ℕ → α}

/-- The cells of the blocks in `S` are the same in both memories. -/
def SameOn (b : ℕ) (S : Set ℕ) (m m' : ℕ → α) : Prop := ∀ x, x / b ∈ S → m' x = m x

theorem SameOn.mono {S T : Set ℕ} (h : SameOn b T m m') (hST : S ⊆ T) : SameOn b S m m' :=
  fun x hx => h x (hST hx)

theorem SameOn.trans {S : Set ℕ} (h : SameOn b S m m') (h' : SameOn b S m' m'') :
    SameOn b S m m'' :=
  fun x hx => (h' x hx).trans (h x hx)

/-- A step that owns the blocks `F` before and `F'` after. -/
structure Local (b : ℕ) (F F' used used' : Set ℕ) (m m' : ℕ → α) : Prop where
  used_eq : used' = F' ∪ (used \ F)
  apart : Disjoint F' (used \ F)
  same : SameOn b (used \ F) m m'

namespace Local

theorem rest (h : Local b F F' used used' m m') : used' \ F' = used \ F := by
  rw [h.used_eq, Set.union_sdiff_left]
  exact h.apart.symm.sdiff_eq_left

theorem owned_subset (h : Local b F F' used used' m m') : F' ⊆ used' := by
  rw [h.used_eq]
  exact Set.subset_union_left

theorem of_same (hF : F ⊆ used) (h : SameOn b (used \ F) m m') : Local b F F used used m m' :=
  ⟨(Set.union_sdiff_cancel hF).symm, Set.disjoint_sdiff_right, h⟩

theorem refl (hF : F ⊆ used) : Local b F F used used m m := of_same hF fun _ _ => rfl

theorem trans (h : Local b F F' used used' m m') (h' : Local b F' F'' used' used'' m' m'') :
    Local b F F'' used used'' m m'' := by
  have hrest := h.rest
  refine ⟨?_, ?_, ?_⟩
  · rw [h'.used_eq, hrest]
  · rw [← hrest]
    exact h'.apart
  · apply h.same.trans
    rw [← hrest]
    exact h'.same

theorem take (hF : F ⊆ used) (hf : f ∉ used) (h : SameOn b (used \ F) m m') :
    Local b F (insert f F) used (insert f used) m m' := by
  refine ⟨?_, ?_, h⟩
  · rw [Set.insert_union, Set.union_sdiff_cancel hF]
  · rw [Set.disjoint_insert_left]
    exact ⟨fun hc => hf hc.1, Set.disjoint_sdiff_right⟩

theorem give (hF : F ⊆ used) (hf : f ∈ F) : Local b F (F \ {f}) used (used \ {f}) m m := by
  refine ⟨?_, ?_, fun _ _ => rfl⟩
  · ext n
    simp only [Set.mem_sdiff, Set.mem_union, Set.mem_singleton_iff]
    constructor
    · rintro ⟨hn, hne⟩
      by_cases hnF : n ∈ F
      · exact Or.inl ⟨hnF, hne⟩
      · exact Or.inr ⟨hn, hnF⟩
    · rintro (⟨hn, hne⟩ | ⟨hn, hnF⟩)
      · exact ⟨hF hn, hne⟩
      · exact ⟨hn, fun he => hnF (he ▸ hf)⟩
  · exact Set.disjoint_sdiff_right.mono_left Set.sdiff_subset

section Frame

variable (h : Local b F F' used used' m m') (hG : G ⊆ used) (hFG : Disjoint G F)

include h hG hFG

theorem frame_subset : G ⊆ used' := by
  rw [h.used_eq]
  exact fun n hn => Or.inr ⟨hG hn, Set.disjoint_left.mp hFG hn⟩

theorem frame_disjoint : Disjoint G F' := by
  apply (h.apart.mono_right _).symm
  exact fun n hn => ⟨hG hn, Set.disjoint_left.mp hFG hn⟩

theorem frame_same : SameOn b G m m' :=
  h.same.mono fun _ hn => ⟨hG hn, Set.disjoint_left.mp hFG hn⟩

theorem frame : Local b (F ∪ G) (F' ∪ G) used used' m m' := by
  refine ⟨?_, ?_, ?_⟩
  · rw [h.used_eq]
    ext n
    simp only [Set.mem_sdiff, Set.mem_union, not_or]
    constructor
    · rintro (hn | ⟨hn, hF⟩)
      · exact Or.inl (Or.inl hn)
      · by_cases hnG : n ∈ G
        · exact Or.inl (Or.inr hnG)
        · exact Or.inr ⟨hn, hF, hnG⟩
    · rintro ((hn | hn) | ⟨hn, hF, -⟩)
      · exact Or.inl hn
      · exact Or.inr ⟨hG hn, Set.disjoint_left.mp hFG hn⟩
      · exact Or.inr ⟨hn, hF⟩
  · rw [Set.disjoint_union_left, ← Set.sdiff_sdiff]
    exact ⟨h.apart.mono_right Set.sdiff_subset, Set.disjoint_sdiff_right⟩
  · rw [← Set.sdiff_sdiff]
    exact h.same.mono Set.sdiff_subset

end Frame

end Local

structure Shared {ι : Type*} (own : ι → Set ℕ) (used : Set ℕ) : Prop where
  cover : used = ⋃ i, own i
  apart : ∀ i j, i ≠ j → Disjoint (own i) (own j)

namespace Shared

variable {ι κ : Type*} {own own' : ι → Set ℕ} {i j : ι}

theorem subset (h : Shared own used) (i : ι) : own i ⊆ used := by
  rw [h.cover]
  exact Set.subset_iUnion own i

theorem comp (h : Shared own used) (e : κ ≃ ι) : Shared (fun x => own (e x)) used := by
  refine ⟨?_, fun x y hxy => h.apart _ _ fun hc => hxy (e.injective hc)⟩
  rw [h.cover]
  exact (e.surjective.iUnion_comp own).symm

section Step

variable (h : Shared own used) (hl : Local b (own i) F' used used' m m')

include h hl

theorem same (hj : j ≠ i) : SameOn b (own j) m m' := hl.frame_same (h.subset j) (h.apart j i hj)

theorem stays (hj : j ≠ i) : own j ⊆ used' := hl.frame_subset (h.subset j) (h.apart j i hj)

theorem step (hi : own' i = F') (hrest : ∀ j, j ≠ i → own' j = own j) : Shared own' used' := by
  have hapart : ∀ j, j ≠ i → Disjoint (own' i) (own' j) := by
    intro j hj
    rw [hi, hrest j hj]
    exact (hl.frame_disjoint (h.subset j) (h.apart j i hj)).symm
  constructor
  · ext f
    rw [hl.used_eq, Set.mem_union, Set.mem_sdiff, Set.mem_iUnion, h.cover, Set.mem_iUnion]
    constructor
    · rintro (hf | ⟨⟨j, hf⟩, hnot⟩)
      · exact ⟨i, hi ▸ hf⟩
      · by_cases hj : j = i
        · exact absurd (hj ▸ hf) hnot
        · exact ⟨j, hrest j hj ▸ hf⟩
    · rintro ⟨j, hf⟩
      by_cases hj : j = i
      · rw [hj, hi] at hf
        exact Or.inl hf
      · rw [hrest j hj] at hf
        exact Or.inr ⟨⟨j, hf⟩, Set.disjoint_left.mp (h.apart j i hj) hf⟩
  · intro j k hjk
    by_cases hj : j = i
    · exact hj ▸ hapart k fun hk => hjk (hj.trans hk.symm)
    · by_cases hk : k = i
      · exact hk ▸ (hapart j hj).symm
      · rw [hrest j hj, hrest k hk]
        exact h.apart j k hjk

end Step

end Shared

end Ownership
