import Mathlib

/-!
# Bit sets in bytes

A set of numbers below some bound, kept as bits in an array of bytes: number `f` is bit
`f % 8` of byte `f / 8`. The lemmas say what one changed bit does to the tests of the others
and to the set of clear bits.
-/

namespace Bitmap

abbrev Bytes := ℕ → BitVec 8

def test (m : Bytes) (f : ℕ) : Bool := (m (f / 8) >>> (f % 8)) &&& 1#8 = 1#8

def set (m : Bytes) (f : ℕ) : Bytes :=
  Function.update m (f / 8) (m (f / 8) ||| 1#8 <<< (f % 8))

def clear (m : Bytes) (f : ℕ) : Bytes :=
  Function.update m (f / 8) (m (f / 8) &&& ~~~(1#8 <<< (f % 8)))

def clearBits (m : Bytes) (n : ℕ) : Finset ℕ := (Finset.range n).filter fun f => test m f = false

section Bits

variable {m : Bytes} {f g n : ℕ}

theorem test_eq (m : Bytes) (f : ℕ) : test m f = (m (f / 8)).getLsbD (f % 8) := by
  have hbit : ∀ b : BitVec 8, (b &&& 1#8 = 1#8) ↔ b.getLsbD 0 = true := by decide
  unfold test
  rw [Bool.eq_iff_iff, decide_eq_true_iff, hbit]
  simp

theorem byte_full {i : ℕ} : m i = 255#8 ↔ ∀ j < 8, test m (8 * i + j) = true := by
  have hbits : ∀ b : BitVec 8, b = 255#8 ↔ ∀ j : Fin 8, b.getLsbD j = true := by decide
  rw [hbits]
  constructor
  · intro h j hj
    rw [test_eq, show (8 * i + j) / 8 = i by omega, show (8 * i + j) % 8 = j by omega]
    exact h ⟨j, hj⟩
  · intro h j
    have hj := h j j.isLt
    rw [test_eq, show (8 * i + j.val) / 8 = i by omega, show (8 * i + j.val) % 8 = j by omega] at hj
    exact hj

theorem test_set : test (set m f) g = if g = f then true else test m g := by
  rw [test_eq, test_eq, set, Function.update_apply]
  by_cases hg : g / 8 = f / 8
  · rw [if_pos hg, hg, BitVec.getLsbD_or, BitVec.getLsbD_shiftLeft]
    by_cases he : g = f
    · rw [he]
      simp [Nat.mod_lt]
    · have hne : g % 8 ≠ f % 8 := by omega
      have hone : ∀ d : ℕ, d ≠ 0 → (1#8).getLsbD d = false := by
        intro d hd
        simp [BitVec.getLsbD_one, hd]
      by_cases hlt : g % 8 < f % 8
      · simp [he, hlt]
      · have hd := hone (g % 8 - f % 8) (by omega)
        simp only [hd, if_neg he, Bool.and_false, Bool.or_false]
  · have he : g ≠ f := fun hc => hg (by rw [hc])
    rw [if_neg hg, if_neg he]

theorem test_clear : test (clear m f) g = if g = f then false else test m g := by
  rw [test_eq, test_eq, clear, Function.update_apply]
  by_cases hg : g / 8 = f / 8
  · have hlt : g % 8 < 8 := Nat.mod_lt _ (by norm_num)
    rw [if_pos hg, hg, BitVec.getLsbD_and, BitVec.getLsbD_not, BitVec.getLsbD_shiftLeft]
    by_cases he : g = f
    · rw [he]
      simp [Nat.mod_lt]
    · have hne : g % 8 ≠ f % 8 := by omega
      by_cases hl : g % 8 < f % 8
      · simp [he, hl, hlt]
      · have hd : (1#8).getLsbD (g % 8 - f % 8) = false := by
          have hz : g % 8 - f % 8 ≠ 0 := by omega
          simp [BitVec.getLsbD_one, hz]
        simp [hd, he, hlt]
  · have he : g ≠ f := fun hc => hg (by rw [hc])
    rw [if_neg hg, if_neg he]

theorem mem_clearBits : f ∈ clearBits m n ↔ f < n ∧ test m f = false := by
  rw [clearBits, Finset.mem_filter, Finset.mem_range]

theorem clearBits_set : clearBits (set m f) n = (clearBits m n).erase f := by
  ext g
  rw [mem_clearBits, Finset.mem_erase, mem_clearBits, test_set]
  by_cases hg : g = f
  · simp [hg]
  · simp [hg]

theorem clearBits_clear (hf : f < n) : clearBits (clear m f) n = insert f (clearBits m n) := by
  ext g
  rw [mem_clearBits, Finset.mem_insert, mem_clearBits, test_clear]
  by_cases hg : g = f
  · simp [hg, hf]
  · simp [hg]

theorem card_clearBits_le : (clearBits m n).card ≤ n := by
  calc (clearBits m n).card ≤ (Finset.range n).card := Finset.card_filter_le _ _
    _ = n := Finset.card_range n

theorem card_set (hf : f < n) (hclear : test m f = false) :
    (clearBits (set m f) n).card + 1 = (clearBits m n).card := by
  rw [clearBits_set]
  exact Finset.card_erase_add_one (mem_clearBits.mpr ⟨hf, hclear⟩)

theorem card_clear (hf : f < n) (hset : test m f = true) :
    (clearBits (clear m f) n).card = (clearBits m n).card + 1 := by
  rw [clearBits_clear hf]
  apply Finset.card_insert_of_notMem
  intro hin
  rw [mem_clearBits, hset] at hin
  exact absurd hin.2 (by simp)

end Bits

end Bitmap
