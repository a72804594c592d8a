import Mathlib

/-!
# Reference counts

Objects carry a count while they are allocated. The counts are exact if an object is allocated as
long as there are references to it, and its count is their number.
-/

namespace RefCount

variable {ο : Type*}

/-- `rc` gives the counts of the allocated objects, `n` the number of references. -/
def Exact (rc : ο → Option ℤ) (n : ο → ℕ) : Prop :=
  ∀ o, rc o = if n o = 0 then none else some (n o : ℤ)

variable {rc : ο → Option ℤ} {n : ο → ℕ} {o : ο}

theorem Exact.congr {n' : ο → ℕ} (h : Exact rc n) (hn : ∀ o, n' o = n o) : Exact rc n' := by
  intro o
  rw [hn o]
  exact h o

theorem Exact.pos_iff (h : Exact rc n) : 0 < n o ↔ rc o ≠ none := by
  rw [h o]
  split <;> simp <;> omega

theorem Exact.eq_some {c : ℤ} (h : Exact rc n) (hc : rc o = some c) : c = n o := by
  rw [h o] at hc
  split at hc
  · cases hc
  · exact (Option.some.inj hc).symm

variable [DecidableEq ο]

theorem Exact.inc (h : Exact rc n) (hpos : 0 < n o) :
    Exact (Function.update rc o ((rc o).map (· + 1))) (Function.update n o (n o + 1)) := by
  intro a
  by_cases ha : a = o
  · rw [ha, Function.update_self, Function.update_self, h o, if_neg (by omega), if_neg (by omega)]
    simp
  · rw [Function.update_of_ne ha, Function.update_of_ne ha]
    exact h a

theorem Exact.dec (h : Exact rc n) (hpos : 0 < n o) :
    Exact (Function.update rc o ((rc o).bind fun c => if c - 1 ≤ 0 then none else some (c - 1)))
      (Function.update n o (n o - 1)) := by
  intro a
  by_cases ha : a = o
  · rw [ha, Function.update_self, Function.update_self, h o, if_neg (by omega), Option.bind_some]
    by_cases hone : n o = 1
    · rw [hone]
      rfl
    · rw [if_neg (by omega), if_neg (by omega)]
      congr 1
      omega
  · rw [Function.update_of_ne ha, Function.update_of_ne ha]
    exact h a

theorem Exact.alloc (h : Exact rc n) (hnone : rc o = none) :
    Exact (Function.update rc o (some 1)) (Function.update n o (n o + 1)) := by
  have hzero : n o = 0 := by
    by_contra hc
    exact (h.pos_iff.mp (Nat.pos_of_ne_zero hc)) hnone
  intro a
  by_cases ha : a = o
  · rw [ha, Function.update_self, Function.update_self, hzero]
    rfl
  · rw [Function.update_of_ne ha, Function.update_of_ne ha]
    exact h a

end RefCount
