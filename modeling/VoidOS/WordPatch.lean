import VoidOS.ByteMem

/-!
# Words stored at many places

A list of addresses with the words to store there, one after the other. If no two
of the places overlap, or only where they are the same with the same word, the
outcome depends on the set of the pairs only: neither their order nor how often
one occurs matters.
-/

namespace ByteMem

/-- The words are stored in the order of the list. -/
def patch (m : Mem) (ps : List (ℕ × ℕ)) : Mem := ps.foldl (fun m p => setWord m p.1 p.2) m

/-- Two of the pairs are the same or their places are apart. -/
def PlacesApart (ps : List (ℕ × ℕ)) : Prop :=
  ∀ p ∈ ps, ∀ q ∈ ps, p = q ∨ p.1 + 8 ≤ q.1 ∨ q.1 + 8 ≤ p.1

section Patch

variable {m m' : Mem} {ps qs : List (ℕ × ℕ)} {p : ℕ × ℕ} {x : ℕ}

theorem patch_append (m : Mem) (ps qs : List (ℕ × ℕ)) :
    patch m (ps ++ qs) = patch (patch m ps) qs := by
  simp [patch]

theorem patch_cons (m : Mem) (p : ℕ × ℕ) (ps : List (ℕ × ℕ)) :
    patch m (p :: ps) = patch (setWord m p.1 p.2) ps := rfl

theorem PlacesApart.left (h : PlacesApart (ps ++ qs)) : PlacesApart ps := fun p hp q hq =>
  h p (List.mem_append_left qs hp) q (List.mem_append_left qs hq)

theorem patch_outside (h : ∀ p ∈ ps, x < p.1 ∨ p.1 + 8 ≤ x) : patch m ps x = m x := by
  induction ps generalizing m with
  | nil => rfl
  | cons p ps ih =>
    rw [patch_cons, ih fun q hq => h q (List.mem_cons_of_mem p hq)]
    exact setWord_apply (h p List.mem_cons_self)

theorem setWord_inside (hl : p.1 ≤ x) (hr : x < p.1 + 8) :
    setWord m p.1 p.2 x = setWord m' p.1 p.2 x := by
  unfold setWord store
  rw [if_pos ⟨hl, hr⟩, if_pos ⟨hl, hr⟩]

theorem patch_inside (h : PlacesApart ps) (hp : p ∈ ps) (hl : p.1 ≤ x) (hr : x < p.1 + 8) :
    patch m ps x = setWord m' p.1 p.2 x := by
  induction ps using List.reverseRecOn with
  | nil => cases hp
  | append_singleton ps q ih =>
    rw [patch_append]
    change setWord (patch m ps) q.1 q.2 x = _
    have hq : q ∈ ps ++ [q] := List.mem_append_right ps (List.mem_singleton_self q)
    rcases h p hp q hq with rfl | hfar
    · exact setWord_inside hl hr
    · have hmem : p ∈ ps := by
        rcases List.mem_append.mp hp with hmem | hmem
        · exact hmem
        · rw [List.mem_singleton.mp hmem] at hfar
          omega
      rw [setWord_apply (by omega)]
      exact ih h.left hmem

theorem word_patch (h : PlacesApart ps) (hp : p ∈ ps) (hv : p.2 < 2 ^ 64) :
    word (patch m ps) p.1 = p.2 := by
  rw [← @word_setWord_self m p.1 p.2 hv]
  exact word_congr fun x hl hr => patch_inside h hp hl hr

theorem patch_congr (h : PlacesApart ps) (h' : PlacesApart qs) (hmem : ∀ p, p ∈ ps ↔ p ∈ qs)
    (hx : m x = m' x) : patch m ps x = patch m' qs x := by
  by_cases hin : ∃ p ∈ ps, p.1 ≤ x ∧ x < p.1 + 8
  · obtain ⟨p, hp, hl, hr⟩ := hin
    rw [@patch_inside m m ps p x h hp hl hr, @patch_inside m' m qs p x h' ((hmem p).mp hp) hl hr]
  · have hout : ∀ p ∈ ps, x < p.1 ∨ p.1 + 8 ≤ x := by
      intro p hp
      by_contra hc
      exact hin ⟨p, hp, by omega, by omega⟩
    rw [patch_outside hout, patch_outside fun p hp => hout p ((hmem p).mpr hp), hx]

end Patch

end ByteMem
