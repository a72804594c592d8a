import Mathlib

/-!
# Bounded queues in a circular array

The queue holds `count` values from position `head` on, modulo the capacity. Its
meaning is the list of those values, oldest first.
-/

namespace RingBuffer

structure Buffer (α : Type*) where
  slots : ℕ → α
  head : ℕ
  tail : ℕ
  count : ℕ

variable {α : Type*} {n : ℕ} {r : Buffer α} {x : α}

def empty (x : α) : Buffer α := ⟨fun _ => x, 0, 0, 0⟩

/-- Stores at `tail`; the caller has checked that there is room. -/
def push (n : ℕ) (r : Buffer α) (x : α) : Buffer α :=
  ⟨Function.update r.slots r.tail x, r.head, (r.tail + 1) % n, r.count + 1⟩

/-- Takes from `head`; the caller has checked that there is a value. -/
def pop (n : ℕ) (r : Buffer α) : α × Buffer α :=
  (r.slots r.head, ⟨r.slots, (r.head + 1) % n, r.tail, r.count - 1⟩)

def toList (n : ℕ) (r : Buffer α) : List α :=
  (List.range r.count).map fun i => r.slots ((r.head + i) % n)

structure Ok (n : ℕ) (r : Buffer α) : Prop where
  head_lt : r.head < n
  count_le : r.count ≤ n
  tail_eq : r.tail = (r.head + r.count) % n

theorem length_toList : (toList n r).length = r.count := by
  simp [toList]

theorem ok_empty (hn : 0 < n) : Ok n (empty x) := ⟨hn, Nat.zero_le _, (Nat.zero_mod n).symm⟩

theorem Ok.push (h : Ok n r) (hc : r.count < n) : Ok n (push n r x) := by
  refine ⟨h.head_lt, hc, ?_⟩
  show (r.tail + 1) % n = (r.head + (r.count + 1)) % n
  rw [h.tail_eq, Nat.mod_add_mod, Nat.add_assoc]

theorem toList_push (h : Ok n r) (hc : r.count < n) :
    toList n (RingBuffer.push n r x) = toList n r ++ [x] := by
  unfold toList RingBuffer.push
  dsimp only
  rw [List.range_succ, List.map_append, List.map_singleton]
  congr 1
  · apply List.map_congr_left
    intro i hi
    rw [List.mem_range] at hi
    apply Function.update_of_ne
    rw [h.tail_eq]
    -- two places less than `n` apart have different residues
    intro he
    have h₁ : (r.head + i) ≡ (r.head + r.count) [MOD n] := he
    have h₂ := Nat.ModEq.add_left_cancel' r.head h₁
    have h₃ := Nat.ModEq.eq_of_lt_of_lt h₂ (by omega) hc
    omega
  · rw [h.tail_eq, Function.update_self]

theorem Ok.pop (h : Ok n r) (hc : 0 < r.count) : Ok n (pop n r).2 := by
  have hn := h.head_lt
  have hle := h.count_le
  refine ⟨Nat.mod_lt _ (by omega), ?_, ?_⟩
  · show r.count - 1 ≤ n
    omega
  · show r.tail = ((r.head + 1) % n + (r.count - 1)) % n
    rw [h.tail_eq, Nat.mod_add_mod]
    congr 1
    omega

theorem toList_pop (h : Ok n r) (hc : 0 < r.count) :
    toList n r = (pop n r).1 :: toList n (pop n r).2 := by
  obtain ⟨c, hc'⟩ := Nat.exists_eq_succ_of_ne_zero (by omega : r.count ≠ 0)
  unfold toList RingBuffer.pop
  dsimp only
  rw [hc', List.range_succ_eq_map, List.map_cons, List.map_map, Nat.add_zero,
    Nat.mod_eq_of_lt h.head_lt, Nat.succ_sub_one]
  congr 1
  apply List.map_congr_left
  intro i _
  rw [Function.comp_apply, Nat.mod_add_mod]
  congr 2
  omega

end RingBuffer
