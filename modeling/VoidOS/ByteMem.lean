import Mathlib

/-!
# Byte-addressed memory and 64-bit words

A memory is a function from addresses to bytes. Words are little-endian; the
lemmas say what a word store changes and what a word load depends on. Machine
addition and subtraction wrap at `2 ^ 64`.
-/

namespace ByteMem

abbrev Mem := ℕ → UInt8

/-- The little-endian number in the `n` bytes from `a`. -/
def load (m : Mem) (a : ℕ) : ℕ → ℕ
  | 0 => 0
  | n + 1 => (m a).toNat + 256 * load m (a + 1) n

def store (m : Mem) (a v n : ℕ) : Mem :=
  fun x => if a ≤ x ∧ x < a + n then UInt8.ofNat (v / 256 ^ (x - a)) else m x

def word (m : Mem) (a : ℕ) : ℕ := load m a 8

def setWord (m : Mem) (a v : ℕ) : Mem := store m a v 8

def zeros (m : Mem) (a n : ℕ) : Mem := fun x => if a ≤ x ∧ x < a + n then 0 else m x

def blit (m : Mem) (a : ℕ) (bytes : List UInt8) : Mem :=
  fun x => if a ≤ x ∧ x < a + bytes.length then bytes.getD (x - a) 0 else m x

def add64 (x y : ℕ) : ℕ := (x + y) % 2 ^ 64

def sub64 (x y : ℕ) : ℕ := (x + (2 ^ 64 - y)) % 2 ^ 64

section Words

variable {m m' : Mem} {a b v n x y : ℕ}

theorem load_congr (h : ∀ x, a ≤ x → x < a + n → m' x = m x) : load m' a n = load m a n := by
  induction n generalizing a with
  | zero => rfl
  | succ n ih =>
    have hrest : load m' (a + 1) n = load m (a + 1) n := by
      apply ih
      intro x hl hr
      exact h x (by omega) (by omega)
    rw [load, load, hrest, h a le_rfl (by omega)]

theorem load_lt (m : Mem) (a n : ℕ) : load m a n < 256 ^ n := by
  induction n generalizing a with
  | zero => simp [load]
  | succ n ih =>
    have hb := (m a).toNat_lt
    have hr := ih (a + 1)
    rw [load, pow_succ]
    omega

theorem load_digits (h : ∀ i < n, m (a + i) = UInt8.ofNat (v / 256 ^ i)) :
    load m a n = v % 256 ^ n := by
  induction n generalizing a v with
  | zero => simp [load, Nat.mod_one]
  | succ n ih =>
    have hrest : load m (a + 1) n = v / 256 % 256 ^ n := by
      apply ih
      intro i hi
      have hd := h (i + 1) (by omega)
      rw [pow_succ', ← Nat.div_div_eq_div_mul] at hd
      rw [← hd, add_assoc, add_comm 1 i]
    have h0 := h 0 (by omega)
    simp only [add_zero, pow_zero, Nat.div_one] at h0
    have hbyte : (m a).toNat = v % 256 := by
      rw [h0]
      simp
    rw [load, hrest, hbyte, pow_succ', Nat.mod_mul]

theorem word_lt (m : Mem) (a : ℕ) : word m a < 2 ^ 64 := by
  have h := load_lt m a 8
  norm_num at h ⊢
  exact h

theorem toNat_of_word (m : Mem) (a : ℕ) : (m a).toNat = word m a % 256 := by
  have hb := (m a).toNat_lt
  rw [word, load]
  omega

theorem word_congr (h : ∀ x, a ≤ x → x < a + 8 → m' x = m x) : word m' a = word m a :=
  load_congr h

theorem setWord_apply (h : x < a ∨ a + 8 ≤ x) : setWord m a v x = m x := by
  rw [setWord, store, if_neg (by omega)]

theorem word_setWord_self (hv : v < 2 ^ 64) : word (setWord m a v) a = v := by
  have hd : load (setWord m a v) a 8 = v % 256 ^ 8 := by
    apply load_digits
    intro i hi
    rw [setWord, store, if_pos (by omega), Nat.add_sub_cancel_left]
  rw [word, hd]
  apply Nat.mod_eq_of_lt
  norm_num
  exact hv

theorem word_setWord_of_disjoint (h : b + 8 ≤ a ∨ a + 8 ≤ b) :
    word (setWord m a v) b = word m b := by
  apply word_congr
  intro x hl hr
  apply setWord_apply
  omega

theorem zeros_apply (h : x < a ∨ a + n ≤ x) : zeros m a n x = m x := by
  rw [zeros, if_neg (by omega)]

theorem word_zeros (ha : a ≤ b) (hb : b + 8 ≤ a + n) : word (zeros m a n) b = 0 := by
  have hd : load (zeros m a n) b 8 = 0 % 256 ^ 8 := by
    apply load_digits
    intro i hi
    rw [zeros, if_pos (by omega), Nat.zero_div]
    rfl
  exact hd

theorem blit_apply {bytes : List UInt8} (h : x < a ∨ a + bytes.length ≤ x) :
    blit m a bytes x = m x := by
  rw [blit, if_neg (by omega)]

theorem blit_add {bytes : List UInt8} (h : n < bytes.length) :
    blit m a bytes (a + n) = bytes.getD n 0 := by
  rw [blit, if_pos (by omega), Nat.add_sub_cancel_left]

theorem blit_nil : blit m a [] = m := by
  funext x
  exact blit_apply (by rw [List.length_nil]; omega)

theorem blit_append {xs ys : List UInt8} :
    blit (blit m a xs) (a + xs.length) ys = blit m a (xs ++ ys) := by
  funext x
  unfold blit
  rw [List.length_append]
  by_cases hys : a + xs.length ≤ x ∧ x < a + xs.length + ys.length
  · rw [if_pos hys, if_pos (by omega), List.getD_append_right _ _ _ _ (by omega), Nat.sub_sub]
  · rw [if_neg hys]
    by_cases hxs : a ≤ x ∧ x < a + xs.length
    · rw [if_pos hxs, if_pos (by omega), List.getD_append _ _ _ _ (by omega)]
    · rw [if_neg hxs, if_neg (by omega)]

theorem add64_of_lt (h : x + y < 2 ^ 64) : add64 x y = x + y := Nat.mod_eq_of_lt h

theorem add64_eq_mod : add64 x y = (x + y) % 2 ^ 64 := rfl

theorem sub64_of_le (hy : y ≤ x) (hx : x < 2 ^ 64) : sub64 x y = x - y := by
  unfold sub64
  omega

end Words

-- the lemmas above are the interface; unfolding these in a unification runs into `2 ^ 64`
attribute [irreducible] word setWord add64 sub64

end ByteMem
