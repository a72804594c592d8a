import VoidOS.ByteMem

/-!
# Page tables in byte memory

A table is a page of 512 words. The low bit of a word says that it leads on, and its
bits 12 to 51 say where to. A path is a list of indices; walking it from a root gives
the address of a table or, after the last level, of a page.
-/

namespace PageTree

open ByteMem

def present (w : ℕ) : Bool := w.testBit 0

def addr (w : ℕ) : ℕ := w &&& 0x000FFFFFFFFFF000

def entry (m : Mem) (t i : ℕ) : ℕ := word m (t + 8 * i)

def setEntry (m : Mem) (t i w : ℕ) : Mem := setWord m (t + 8 * i) w

def walk (m : Mem) (t : ℕ) : List ℕ → Option ℕ
  | [] => some t
  | i :: p => if present (entry m t i) then walk m (addr (entry m t i)) p else none

/-- The indices of a virtual address, one for each level. -/
def indices (v : ℕ) : List ℕ :=
  [v / 2 ^ 39 % 512, v / 2 ^ 30 % 512, v / 2 ^ 21 % 512, v / 2 ^ 12 % 512]

section Entries

variable {m m' : Mem} {t u a w f i j v x : ℕ} {p q : List ℕ}

theorem addr_eq (w : ℕ) : addr w = w / 4096 % 2 ^ 40 * 4096 := by
  have hmask : (0x000FFFFFFFFFF000 : ℕ) = (2 ^ 40 - 1) * 2 ^ 12 := by norm_num
  unfold addr
  apply Nat.eq_of_testBit_eq
  intro k
  rw [hmask, show (4096 : ℕ) = 2 ^ 12 by norm_num, Nat.testBit_and, Nat.testBit_mul_two_pow,
    Nat.testBit_mul_two_pow, Nat.testBit_two_pow_sub_one, Nat.testBit_mod_two_pow,
    Nat.testBit_div_two_pow]
  by_cases hk : 12 ≤ k
  · rw [Nat.sub_add_cancel hk]
    simp [hk, Bool.and_comm]
  · simp [hk]

theorem addr_mod (w : ℕ) : addr w % 4096 = 0 := by
  rw [addr_eq]
  omega

theorem addr_of_aligned (hf : f % 4096 = 0) (hlt : f < 2 ^ 52) : addr f = f := by
  rw [addr_eq]
  omega

theorem addr_or (hf : f % 4096 = 0) (hlt : f < 2 ^ 52) (hw : addr w = 0) : addr (f ||| w) = f := by
  have h₁ := addr_of_aligned hf hlt
  unfold addr at hw h₁ ⊢
  rw [Nat.and_or_distrib_right, h₁, hw, Nat.or_zero]

theorem present_or (hf : f % 4096 = 0) : present (f ||| w) = present w := by
  unfold present
  rw [Nat.testBit_or, Nat.testBit_zero, show f % 2 = 0 by omega]
  simp

theorem not_present_zero : present 0 = false := by
  simp [present]

theorem entry_lt (m : Mem) (t i : ℕ) : entry m t i < 2 ^ 64 := word_lt _ _

theorem entry_congr (hi : i < 512) (h : ∀ x, a ≤ x → x < a + 4096 → m' x = m x) :
    entry m' a i = entry m a i := by
  apply word_congr
  intro x hl hr
  exact h x (by omega) (by omega)

theorem entry_setEntry_self (hw : w < 2 ^ 64) : entry (setEntry m t i w) t i = w :=
  word_setWord_self hw

theorem entry_setEntry_of_ne (hj : j < 512) (hi : i < 512) (ht : t % 4096 = 0) (ha : a % 4096 = 0)
    (hne : ¬ (a = t ∧ j = i)) : entry (setEntry m t i w) a j = entry m a j := by
  apply word_setWord_of_disjoint
  by_cases h : a = t
  · omega
  · omega

theorem entry_setEntry_if (hj : j < 512) (hi : i < 512) (ht : t % 4096 = 0) (ha : a % 4096 = 0)
    (hw : w < 2 ^ 64) :
    entry (setEntry m t i w) a j = if a = t ∧ j = i then w else entry m a j := by
  split
  · rename_i h
    rw [h.1, h.2, entry_setEntry_self hw]
  · rename_i h
    exact entry_setEntry_of_ne hj hi ht ha h

theorem setEntry_apply (hi : i < 512) (h : x < t ∨ t + 4096 ≤ x) : setEntry m t i w x = m x := by
  apply setWord_apply
  omega

theorem entry_zeros (hi : i < 512) : entry (zeros m a 4096) a i = 0 := by
  apply word_zeros <;> omega

end Entries

section Walks

variable {m m' : Mem} {t u a w f i j v : ℕ} {p q : List ℕ}

theorem walk_append : walk m t (p ++ q) = (walk m t p).bind fun u => walk m u q := by
  induction p generalizing t with
  | nil => rfl
  | cons i p ih =>
    rw [List.cons_append, walk, walk]
    split
    · exact ih
    · rfl

theorem walk_concat : walk m t (p ++ [i]) =
    (walk m t p).bind fun u => if present (entry m u i) then some (addr (entry m u i)) else none :=
  walk_append

theorem walk_concat_of (hu : walk m t p = some u) : walk m t (p ++ [i]) =
    if present (entry m u i) then some (addr (entry m u i)) else none := by
  rw [walk_concat, hu]
  rfl

theorem walk_concat_eq_some (h : walk m t (p ++ [i]) = some a) :
    ∃ u, walk m t p = some u ∧ present (entry m u i) = true ∧ addr (entry m u i) = a := by
  rw [walk_concat] at h
  obtain ⟨u, hu, h⟩ := Option.bind_eq_some_iff.mp h
  split at h
  · rename_i hp
    exact ⟨u, hu, hp, Option.some.inj h⟩
  · cases h

theorem walk_mod (ht : t % 4096 = 0) (h : walk m t p = some a) : a % 4096 = 0 := by
  induction p using List.reverseRecOn with
  | nil =>
    cases h
    exact ht
  | append_singleton p i _ =>
    obtain ⟨u, -, -, rfl⟩ := walk_concat_eq_some h
    exact addr_mod _

theorem length_indices (v : ℕ) : (indices v).length = 4 := rfl

theorem lt_of_mem_indices (h : i ∈ indices v) : i < 512 := by
  simp only [indices, List.mem_cons, List.not_mem_nil, or_false] at h
  omega

/-- The indices of an address are those of its page, modulo the reach of the tables. -/
theorem indices_eq_iff : indices v = indices w ↔ v / 4096 % 2 ^ 36 = w / 4096 % 2 ^ 36 := by
  simp only [indices, List.cons.injEq, and_true]
  omega

end Walks

/-- `D t p` says which paths from which roots are the trees' own. Each table among them,
a place of at most three indices, is a page that no other place leads to. -/
structure Forest (m : Mem) (D : ℕ → List ℕ → Prop) : Prop where
  head : ∀ t p i, D t (p ++ [i]) → D t p
  lt : ∀ t p i, D t (p ++ [i]) → i < 512
  root : ∀ t, D t [] → t % 4096 = 0
  apart : ∀ t p t' p' a, D t p → D t' p' → p.length ≤ 3 → p'.length ≤ 3 →
    walk m t p = some a → walk m t' p' = some a → t = t' ∧ p = p'

namespace Forest

variable {m m' : Mem} {D : ℕ → List ℕ → Prop} {t t' u a w i : ℕ} {p q : List ℕ}

theorem nil (F : Forest m D) (h : D t p) : D t [] := by
  induction p using List.reverseRecOn with
  | nil => exact h
  | append_singleton p i ih => exact ih (F.head t p i h)

theorem mod (F : Forest m D) (h : D t p) (hw : walk m t p = some a) : a % 4096 = 0 :=
  walk_mod (F.root t (F.nil h)) hw

theorem walk_congr (F : Forest m D)
    (h : ∀ t p a, D t p → p.length ≤ 3 → walk m t p = some a →
      ∀ x, a ≤ x → x < a + 4096 → m' x = m x)
    (hq : D t q) (hlen : q.length ≤ 4) : walk m' t q = walk m t q := by
  induction q using List.reverseRecOn with
  | nil => rfl
  | append_singleton q i ih =>
    have hlen' : q.length ≤ 3 := by
      rw [List.length_append, List.length_singleton] at hlen
      omega
    have hq' := F.head t q i hq
    rw [walk_concat, walk_concat, ih hq' (by omega)]
    cases hw : walk m t q with
    | none => rfl
    | some a =>
      have he : entry m' a i = entry m a i :=
        entry_congr (F.lt t q i hq) (h t q a hq' hlen' hw)
      rw [Option.bind_some, Option.bind_some, he]

theorem entry_setEntry (F : Forest m D) (hD : D t (p ++ [i])) (hp : p.length ≤ 3)
    (hu : walk m t p = some u) {j : ℕ} (hD' : D t' (q ++ [j])) (hq : q.length ≤ 3)
    (ha : walk m t' q = some a) (hne : ¬ (t' = t ∧ q ++ [j] = p ++ [i])) :
    entry (setEntry m u i w) a j = entry m a j := by
  have hDp := F.head t p i hD
  have hDq := F.head t' q j hD'
  apply entry_setEntry_of_ne (F.lt _ _ _ hD') (F.lt _ _ _ hD) (F.mod hDp hu) (F.mod hDq ha)
  rintro ⟨rfl, rfl⟩
  obtain ⟨rfl, rfl⟩ := F.apart _ _ _ _ _ hDq hDp hq hp ha hu
  exact hne ⟨rfl, rfl⟩

/-- What an entry store does to the paths that do not go through the entry. -/
theorem walk_setEntry (F : Forest m D) (hD : D t (p ++ [i])) (hp : p.length ≤ 3)
    (hu : walk m t p = some u) (hw : w < 2 ^ 64) (hq : D t' q) (hlen : q.length ≤ 4)
    (hthru : ∀ j r, ¬ (t' = t ∧ q = p ++ [i] ++ j :: r)) :
    walk (setEntry m u i w) t' q = if t' = t ∧ q = p ++ [i] then
      if present w then some (addr w) else none else walk m t' q := by
  induction q using List.reverseRecOn with
  | nil =>
    rw [if_neg (by simp)]
    rfl
  | append_singleton q j ih =>
    have hlen' : q.length ≤ 3 := by
      rw [List.length_append, List.length_singleton] at hlen
      omega
    have hthru' : ∀ k r, ¬ (t' = t ∧ q = p ++ [i] ++ k :: r) := by
      rintro k r ⟨ht, rfl⟩
      exact hthru k (r ++ [j]) ⟨ht, by simp⟩
    have hne : ¬ (t' = t ∧ q = p ++ [i]) := by
      rintro ⟨ht, rfl⟩
      exact hthru j [] ⟨ht, rfl⟩
    have hsame := ih (F.head t' q j hq) (by omega) hthru'
    rw [if_neg hne] at hsame
    rw [walk_concat, walk_concat, hsame]
    split
    · rename_i h
      obtain ⟨rfl, h⟩ := h
      obtain ⟨rfl, hj⟩ := List.append_inj' h rfl
      cases hj
      rw [hu, Option.bind_some, entry_setEntry_self hw]
    · rename_i h
      cases ha : walk m t' q with
      | none => rfl
      | some a =>
        rw [Option.bind_some, Option.bind_some, F.entry_setEntry hD hp hu hq hlen' ha h]

theorem walk_setLeaf (F : Forest m D) (hD : D t (p ++ [i])) (hp : p.length = 3)
    (hu : walk m t p = some u) (hw : w < 2 ^ 64) (hq : D t' q) (hlen : q.length ≤ 4) :
    walk (setEntry m u i w) t' q = if t' = t ∧ q = p ++ [i] then
      if present w then some (addr w) else none else walk m t' q := by
  apply F.walk_setEntry hD (by omega) hu hw hq hlen
  rintro j r ⟨-, rfl⟩
  simp at hlen
  omega

section Link

variable (F : Forest m D) (hD : D t (p ++ [i])) (hp : p.length ≤ 2) (hu : walk m t p = some u)
  (hw : w < 2 ^ 64) (habs : present (entry m u i) = false) (hpres : present w = true)
  (hempty : ∀ j < 512, present (entry m (addr w) j) = false)
  (hfresh : ∀ t p a, D t p → p.length ≤ 3 → walk m t p = some a → a ≠ addr w)

include F hD hp hu hw habs hpres hempty hfresh

theorem walk_link (hq : D t' q) (hlen : q.length ≤ 4) :
    walk (setEntry m u i w) t' q =
      if t' = t ∧ q = p ++ [i] then some (addr w) else walk m t' q := by
  by_cases hthru : ∃ j r, t' = t ∧ q = p ++ [i] ++ j :: r
  · -- below the new table nothing is present, as below the absent entry before
    obtain ⟨j, r, rfl, rfl⟩ := hthru
    have hDj : D t' (p ++ [i] ++ [j]) := by
      clear hlen
      induction r using List.reverseRecOn with
      | nil => exact hq
      | append_singleton r k ih =>
        apply ih
        apply F.head t' _ k
        simpa using hq
    have hself := F.walk_setEntry hD (by omega) hu hw hD (by simp; omega)
      (fun j r h => by simp at h)
    rw [if_pos ⟨rfl, rfl⟩, if_pos hpres] at hself
    have hDp := F.head _ _ _ hD
    have hent : entry (setEntry m u i w) (addr w) j = entry m (addr w) j := by
      apply entry_setEntry_of_ne (F.lt _ _ _ hDj) (F.lt _ _ _ hD) (F.mod hDp hu) (addr_mod w)
      rintro ⟨h, -⟩
      exact hfresh t' p u hDp (by omega) hu h.symm
    have hnew : walk (setEntry m u i w) t' (p ++ [i] ++ j :: r) = none := by
      rw [walk_append, hself, Option.bind_some, walk, hent, hempty j (F.lt _ _ _ hDj)]
      rfl
    have hold : walk m t' (p ++ [i] ++ j :: r) = none := by
      rw [walk_append, walk_concat_of hu, habs]
      rfl
    rw [if_neg (by simp), hnew, hold]
  · rw [F.walk_setEntry hD (by omega) hu hw hq hlen fun j r h => hthru ⟨j, r, h⟩, hpres]
    rfl

end Link

end Forest

end PageTree
