import VoidOS.ByteMem

namespace VoidOS.Libc

open ByteMem

/-- The forward loop of `memmove`; the argument counts the bytes it has copied. -/
def moveForward (m : Mem) (dst src : ℕ) : ℕ → Mem
  | 0 => m
  | n + 1 =>
    Function.update (moveForward m dst src n) (add64 dst n) (moveForward m dst src n (add64 src n))

/-- The loop `while (n--)` of `memmove`; the argument is what is left of `n`. -/
def moveBackward (m : Mem) (dst src : ℕ) : ℕ → Mem
  | 0 => m
  | n + 1 => moveBackward (Function.update m (add64 dst n) (m (add64 src n))) dst src n

/-- `memmove`: the memory afterwards, and the pointer it returns. -/
def memmove (m : Mem) (dst src n : ℕ) : Mem × ℕ :=
  if dst ≤ src then (moveForward m dst src n, dst) else (moveBackward m dst src n, dst)

/-- The memory with the `n` bytes at `src` put at `dst`, all at once. -/
def moved (m : Mem) (dst src n : ℕ) : Mem := fun x =>
  if dst ≤ x ∧ x < dst + n then m (src + (x - dst)) else m x

section Moved

variable {m : Mem} {dst src n x i : ℕ}

theorem moved_inside (hi : i < n) : moved m dst src n (dst + i) = m (src + i) := by
  rw [moved, if_pos (by omega), Nat.add_sub_cancel_left]

theorem moved_outside (hx : x < dst ∨ dst + n ≤ x) : moved m dst src n x = m x :=
  if_neg (by omega)

theorem moved_succ :
    moved m dst src (n + 1) = Function.update (moved m dst src n) (dst + n) (m (src + n)) := by
  funext x
  by_cases hx : x = dst + n
  · rw [hx, Function.update_self]
    exact moved_inside (Nat.lt_succ_self n)
  · rw [Function.update_of_ne hx]
    have hiff : dst ≤ x ∧ x < dst + (n + 1) ↔ dst ≤ x ∧ x < dst + n := by omega
    simp only [moved, hiff]

/-- Up to the source the forward loop reads bytes that it has not stored to yet. -/
theorem moveForward_eq (hle : dst ≤ src) (hd : dst + n ≤ 2 ^ 64) (hs : src + n ≤ 2 ^ 64) :
    moveForward m dst src n = moved m dst src n := by
  induction n with
  | zero =>
    funext x
    exact (moved_outside (by omega)).symm
  | succ n ih =>
    have hread : moved m dst src n (src + n) = m (src + n) := moved_outside (by omega)
    rw [moveForward, ih (by omega) (by omega), add64_of_lt (by omega), add64_of_lt (by omega),
      hread, moved_succ]

theorem moveBackward_eq (hlt : src < dst) (hd : dst + n ≤ 2 ^ 64) (hs : src + n ≤ 2 ^ 64) :
    moveBackward m dst src n = moved m dst src n := by
  induction n generalizing m with
  | zero =>
    funext x
    exact (moved_outside (by omega)).symm
  | succ n ih =>
    rw [moveBackward, ih (by omega) (by omega), add64_of_lt (by omega), add64_of_lt (by omega)]
    funext x
    by_cases hx : dst ≤ x ∧ x < dst + n
    · -- the byte that was just stored lies above everything that is still to be read
      rw [moved, if_pos hx, moved, if_pos (by omega), Function.update_of_ne (by omega)]
    · rw [moved, if_neg hx, moved_succ]
      by_cases hn : x = dst + n
      · rw [hn, Function.update_self, Function.update_self]
      · rw [Function.update_of_ne hn, Function.update_of_ne hn]
        exact (moved_outside (by omega)).symm

theorem memmove_eq (hd : dst + n ≤ 2 ^ 64) (hs : src + n ≤ 2 ^ 64) :
    memmove m dst src n = (moved m dst src n, dst) := by
  by_cases hle : dst ≤ src
  · rw [memmove, if_pos hle, moveForward_eq hle hd hs]
  · rw [memmove, if_neg hle, moveBackward_eq (by omega) hd hs]

/-- Whatever the overlap, the destination gets the bytes that were at the source, and nothing
else changes. -/
theorem memmove_spec (hd : dst + n ≤ 2 ^ 64) (hs : src + n ≤ 2 ^ 64) :
    (∀ i < n, (memmove m dst src n).1 (dst + i) = m (src + i)) ∧
      ∀ x, (x < dst ∨ dst + n ≤ x) → (memmove m dst src n).1 x = m x := by
  rw [memmove_eq hd hs]
  constructor
  · intro i hi
    exact moved_inside hi
  · intro x hx
    exact moved_outside hx

end Moved

/-- Three bytes that move up by one, over two of themselves. -/
theorem memmove_overlap : (memmove (fun x => UInt8.ofNat x) 6 5 3).1 (6 + 1) = 6 :=
  (memmove_spec (by norm_num) (by norm_num)).1 1 (by norm_num)

end VoidOS.Libc
