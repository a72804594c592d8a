import Mathlib

/-!
# Terminated strings in fixed buffers

A buffer is a function from positions to bytes. It spells a text if the text stands at
its beginning, free of zero bytes, and a zero byte follows. The loops below look at no
more than a given number of positions.
-/

namespace CString

abbrev Buffer := ℕ → UInt8

structure Spells (s : Buffer) (l : List UInt8) : Prop where
  text : ∀ i (h : i < l.length), s i = l[i]
  ne_zero : ∀ b ∈ l, b ≠ 0
  stop : s l.length = 0

/-- The position of the terminator, looking at the `n` positions from `k` on. -/
def length (s : Buffer) : ℕ → ℕ → ℕ
  | 0, k => k
  | n + 1, k => if s k = 0 then k else length s n (k + 1)

/-- Compares from position `k` on until the terminator, at most `n` positions. -/
def equal (a b : Buffer) : ℕ → ℕ → Bool
  | 0, _ => true
  | n + 1, k => if a k ≠ b k then false else if b k = 0 then true else equal a b n (k + 1)

/-- Copies from position `k` on up to the terminator, at most `n` positions. -/
def copy (dst src : Buffer) : ℕ → ℕ → Buffer
  | 0, _ => dst
  | n + 1, k =>
    if src k = 0 then Function.update dst k (src k)
    else copy (Function.update dst k (src k)) src n (k + 1)

variable {s a b dst src : Buffer} {l l' : List UInt8} {n k i : ℕ}

namespace Spells

theorem apply_ne_zero (h : Spells s l) (hi : i < l.length) : s i ≠ 0 := by
  rw [h.text i hi]
  exact h.ne_zero _ (List.getElem_mem hi)

theorem lt_of_ne_zero (h : Spells s l) (hk : k ≤ l.length) (hs : s k ≠ 0) : k < l.length := by
  apply lt_of_le_of_ne hk
  rintro rfl
  exact hs h.stop

theorem eq_of_zero (h : Spells s l) (hk : k ≤ l.length) (hs : s k = 0) : k = l.length := by
  by_contra hne
  exact h.apply_ne_zero (lt_of_le_of_ne hk hne) hs

theorem congr (h : Spells a l) (hab : ∀ i ≤ l.length, b i = a i) : Spells b l :=
  ⟨fun i hi => (hab i hi.le).trans (h.text i hi), h.ne_zero, (hab _ le_rfl).trans h.stop⟩

theorem eq_of_agree (ha : Spells a l) (hb : Spells b l') (hlen : l.length = l'.length)
    (hab : ∀ i < l.length, a i = b i) : l = l' := by
  apply List.ext_getElem hlen
  intro i h₁ h₂
  rw [← ha.text i h₁, ← hb.text i h₂, hab i h₁]

theorem unique (h : Spells s l) (h' : Spells s l') : l = l' := by
  apply h.eq_of_agree h' _ fun _ _ => rfl
  rcases Nat.le_total l.length l'.length with hle | hle
  · exact h'.eq_of_zero hle h.stop
  · exact (h.eq_of_zero hle h'.stop).symm

theorem eq_nil_iff (h : Spells s l) : s 0 = 0 ↔ l = [] := by
  constructor
  · intro h0
    exact List.length_eq_zero_iff.mp (h.eq_of_zero (Nat.zero_le _) h0).symm
  · rintro rfl
    exact h.stop

theorem length_from (h : Spells s l) (hk : k ≤ l.length) :
    CString.length s n k = min l.length (k + n) := by
  induction n generalizing k with
  | zero =>
    rw [CString.length]
    omega
  | succ n ih =>
    rw [CString.length]
    split
    · rename_i h0
      have := h.eq_of_zero hk h0
      omega
    · rename_i h0
      have := h.lt_of_ne_zero hk h0
      rw [ih this]
      omega

theorem length_eq (h : Spells s l) : CString.length s n 0 = min l.length n := by
  rw [h.length_from (Nat.zero_le _), Nat.zero_add]

/-- The comparison from `k` on decides equality if what lies before agrees. -/
theorem equal_from (ha : Spells a l) (hb : Spells b l') (hk : k ≤ l.length) (hk' : k ≤ l'.length)
    (hn : l'.length < k + n) (hab : ∀ i < k, a i = b i) : equal a b n k = true ↔ l = l' := by
  induction n generalizing k with
  | zero => omega
  | succ n ih =>
    rw [equal]
    split
    · rename_i hne
      simp only [Bool.false_eq_true, false_iff]
      rintro rfl
      rcases Nat.lt_or_eq_of_le hk with hlt | rfl
      · exact hne ((ha.text k hlt).trans (hb.text k hlt).symm)
      · exact hne (ha.stop.trans hb.stop.symm)
    · rename_i hne
      rw [ne_eq, not_not] at hne
      split
      · rename_i h0
        have h₁ := ha.eq_of_zero hk (hne.trans h0)
        have h₂ := hb.eq_of_zero hk' h0
        simp only [true_iff]
        exact ha.eq_of_agree hb (h₁.symm.trans h₂) (h₁ ▸ hab)
      · rename_i h0
        have h₁ := ha.lt_of_ne_zero hk (hne ▸ h0)
        have h₂ := hb.lt_of_ne_zero hk' h0
        apply ih h₁ h₂ (by omega)
        intro i hi
        rcases Nat.lt_or_eq_of_le (Nat.le_of_lt_succ hi) with hlt | rfl
        · exact hab i hlt
        · exact hne

theorem equal_iff (ha : Spells a l) (hb : Spells b l') (hn : l'.length < n) :
    equal a b n 0 = true ↔ l = l' :=
  ha.equal_from hb (Nat.zero_le _) (Nat.zero_le _) (by omega) fun _ hi =>
    absurd hi (Nat.not_lt_zero _)

theorem copy_from (h : Spells src l) (hk : k ≤ l.length) (hn : l.length < k + n)
    (hdst : ∀ i < k, dst i = src i) : ∀ i ≤ l.length, copy dst src n k i = src i := by
  induction n generalizing k dst with
  | zero => omega
  | succ n ih =>
    have hset : ∀ i ≤ k, Function.update dst k (src k) i = src i := by
      intro i hi
      rcases Nat.lt_or_eq_of_le hi with hlt | rfl
      · rw [Function.update_of_ne hlt.ne]
        exact hdst i hlt
      · exact Function.update_self ..
    intro i hi
    rw [copy]
    split
    · rename_i h0
      have hend := h.eq_of_zero hk h0
      exact hset i (hend ▸ hi)
    · rename_i h0
      apply ih (h.lt_of_ne_zero hk h0) (by omega) _ i hi
      intro j hj
      exact hset j (Nat.le_of_lt_succ hj)

theorem copy (h : Spells src l) (dst : Buffer) (hn : l.length < n) : Spells (copy dst src n 0) l := by
  apply h.congr
  apply h.copy_from (Nat.zero_le _) (by omega)
  intro i hi
  exact absurd hi (Nat.not_lt_zero _)

end Spells

end CString
