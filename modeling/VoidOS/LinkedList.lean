import Mathlib

/-!
# Doubly linked lists through their link fields

The links are two functions on node addresses, and address 0 is `NULL`. The
head pointer is read as the forward link of node 0, so that the first node has
0 before it and the last one has 0 after it. An edit of the list is described by
what it does to the two functions.
-/

namespace LinkedList

variable {next prev next' prev' : ℕ → ℕ} {p n z : ℕ} {l l₁ l₂ : List ℕ}

/-- Following `next` from `p` visits the nodes `l` and arrives at `z`; `prev` leads back. -/
def Chain (next prev : ℕ → ℕ) : ℕ → List ℕ → ℕ → Prop
  | p, [], z => next p = z ∧ (z ≠ 0 → prev z = p)
  | p, n :: l, z => n ≠ 0 ∧ next p = n ∧ prev n = p ∧ Chain next prev n l z

structure IsList (next prev : ℕ → ℕ) (l : List ℕ) : Prop where
  chain : Chain next prev 0 l 0
  nodup : l.Nodup

theorem chain_append (hn : n ≠ 0) :
    Chain next prev p (l₁ ++ n :: l₂) z ↔ Chain next prev p l₁ n ∧ Chain next prev n l₂ z := by
  induction l₁ generalizing p with
  | nil => simp [Chain, hn, and_assoc]
  | cons q l ih => simp [Chain, ih, and_assoc]

theorem Chain.ne_zero (h : Chain next prev p l z) : 0 ∉ l := by
  induction l generalizing p with
  | nil => simp
  | cons q l ih =>
    obtain ⟨hq, -, -, hl⟩ := h
    intro h0
    rcases List.mem_cons.mp h0 with h0 | h0
    · exact hq h0.symm
    · exact ih hl h0

/-- A chain reads the forward links of `p` and its nodes and the backward links of its
nodes and `z`. -/
theorem Chain.congr (h : Chain next prev p l z) (hnext : ∀ x ∈ p :: l, next' x = next x)
    (hprev : ∀ x ∈ l, prev' x = prev x) (hz : z ≠ 0 → prev' z = prev z) :
    Chain next' prev' p l z := by
  induction l generalizing p with
  | nil =>
    refine ⟨(hnext p (by simp)).trans h.1, ?_⟩
    intro hz0
    exact (hz hz0).trans (h.2 hz0)
  | cons q l ih =>
    obtain ⟨hq, hp, hqp, hl⟩ := h
    refine ⟨hq, (hnext p (by simp)).trans hp, (hprev q (by simp)).trans hqp, ?_⟩
    apply ih hl
    · intro x hx
      exact hnext x (List.mem_cons_of_mem _ hx)
    · intro x hx
      exact hprev x (List.mem_cons_of_mem _ hx)

theorem IsList.ne_zero (h : IsList next prev l) (hn : n ∈ l) : n ≠ 0 := by
  rintro rfl
  exact h.chain.ne_zero hn

theorem isList_nil (h : next 0 = 0) : IsList next prev [] := ⟨⟨h, by simp⟩, List.nodup_nil⟩

theorem IsList.congr (h : IsList next prev l) (hhead : next' 0 = next 0)
    (hnext : ∀ x ∈ l, next' x = next x) (hprev : ∀ x ∈ l, prev' x = prev x) :
    IsList next' prev' l := by
  refine ⟨h.chain.congr ?_ hprev (by simp), h.nodup⟩
  intro x hx
  rcases List.mem_cons.mp hx with rfl | hx
  · exact hhead
  · exact hnext x hx

theorem IsList.around (h : IsList next prev (l₁ ++ n :: l₂)) :
    Chain next prev 0 l₁ n ∧ Chain next prev n l₂ 0 :=
  (chain_append (h.ne_zero (by simp))).mp h.chain

theorem Chain.last (h : Chain next prev p l n) (hn : n ≠ 0) : prev n = l.getLastD p := by
  induction l generalizing p with
  | nil => exact h.2 hn
  | cons q l ih =>
    rw [List.getLastD_cons]
    exact ih h.2.2.2

theorem Chain.first (h : Chain next prev p l z) : next p = l.headD z := by
  cases l with
  | nil => exact h.1
  | cons q l => exact h.2.1

theorem IsList.neighbours (h : IsList next prev (l₁ ++ n :: l₂)) :
    prev n ∈ 0 :: (l₁ ++ l₂) ∧ next n ∈ 0 :: (l₁ ++ l₂) := by
  obtain ⟨h₁, h₂⟩ := h.around
  rw [h₁.last (h.ne_zero (by simp)), h₂.first]
  constructor
  · rcases List.eq_nil_or_concat l₁ with rfl | ⟨l, a, rfl⟩ <;> simp
  · cases l₂ <;> simp

theorem Chain.join (h₁ : Chain next prev p l₁ n) (h₂ : Chain next prev n l₂ 0)
    (hlast : next' (l₁.getLastD p) = l₂.headD 0)
    (hfirst : l₂.headD 0 ≠ 0 → prev' (l₂.headD 0) = l₁.getLastD p)
    (hnd : (p :: (l₁ ++ l₂)).Nodup)
    (hnext : ∀ x ∈ p :: (l₁ ++ l₂), x ≠ l₁.getLastD p → next' x = next x)
    (hprev : ∀ x ∈ l₁ ++ l₂, x ≠ l₂.headD 0 → prev' x = prev x) :
    Chain next' prev' p (l₁ ++ l₂) 0 := by
  induction l₁ generalizing p with
  | nil =>
    cases l₂ with
    | nil => exact ⟨hlast, by simp⟩
    | cons q l =>
      obtain ⟨hq, -, -, hl⟩ := h₂
      simp only [List.nil_append, List.nodup_cons] at hnd
      refine ⟨hq, hlast, hfirst hq, hl.congr ?_ ?_ (by simp)⟩
      · intro x hx
        apply hnext x (by simp [hx])
        rintro rfl
        exact hnd.1 hx
      · intro x hx
        apply hprev x (by simp [hx])
        rintro rfl
        exact hnd.2.1 hx
  | cons q l ih =>
    obtain ⟨hq, hpq, hqp, hl⟩ := h₁
    rw [List.getLastD_cons] at hlast hfirst hnext
    simp only [List.cons_append, List.nodup_cons] at hnd
    have hmem : q :: l ≠ [] := by simp
    refine ⟨hq, ?_, ?_, ?_⟩
    · -- `p` is not the last node before the gap, so its link stands
      rw [hnext p (by simp) ?_, hpq]
      intro hp
      apply hnd.1
      rw [hp, ← List.getLastD_cons (a := p), List.getLastD_eq_getLast?,
        List.getLast?_eq_some_getLast hmem, Option.getD_some, ← List.cons_append]
      exact List.mem_append_left _ (List.getLast_mem hmem)
    · rw [hprev q (by simp) ?_, hqp]
      intro hq2
      cases l₂ with
      | nil => exact hq hq2
      | cons r l₂ =>
        rw [List.headD_cons] at hq2
        exact hnd.2.1 (by simp [hq2])
    · apply ih hl hlast hfirst (List.nodup_cons.mpr hnd.2)
      · intro x hx
        exact hnext x (List.mem_cons_of_mem _ hx)
      · intro x hx
        exact hprev x (List.mem_cons_of_mem _ hx)

/-- Unlinking `n`: the node before it points past it and the node after it points back
past it; every other link of another node is kept. -/
theorem IsList.unlink (h : IsList next prev (l₁ ++ n :: l₂))
    (hnext : ∀ x ∈ 0 :: (l₁ ++ l₂), next' x = if x = prev n then next n else next x)
    (hprev : ∀ x ∈ l₁ ++ l₂, prev' x = if x = next n then prev n else prev x) :
    IsList next' prev' (l₁ ++ l₂) := by
  obtain ⟨h₁, h₂⟩ := h.around
  have hn0 := h.ne_zero (n := n) (by simp)
  have hlast := h₁.last hn0
  have hfirst := h₂.first
  have hz := h.chain.ne_zero
  have hnd := h.nodup
  have hnd' : (l₁ ++ l₂).Nodup := (List.nodup_cons.mp (List.nodup_middle.mp hnd)).2
  have hz' : 0 ∉ l₁ ++ l₂ := fun h0 =>
    hz (((List.sublist_cons_self n l₂).append_left l₁).subset h0)
  have hlastmem : l₁.getLastD 0 ∈ 0 :: (l₁ ++ l₂) := hlast ▸ h.neighbours.1
  refine ⟨h₁.join h₂ ?_ ?_ (List.nodup_cons.mpr ⟨hz', hnd'⟩) ?_ ?_, hnd'⟩
  · rw [hnext _ hlastmem, if_pos hlast.symm, hfirst]
  · intro h0
    have hheadmem : l₂.headD 0 ∈ l₁ ++ l₂ := by
      cases l₂ with
      | nil => exact absurd rfl h0
      | cons q l => simp
    rw [hprev _ hheadmem, if_pos hfirst.symm, hlast]
  · intro x hx hxl
    rw [hnext x hx, if_neg (by rwa [hlast])]
  · intro x hx hxf
    rw [hprev x hx, if_neg (by rwa [hfirst])]

theorem IsList.push (h : IsList next prev l) (hn : n ≠ 0) (hl : n ∉ l) (hhead : next' 0 = n)
    (hnew : next' n = next 0) (hback : prev' n = 0)
    (hnext : ∀ x ∈ l, next' x = next x)
    (hprev : ∀ x ∈ l, prev' x = if x = next 0 then n else prev x) :
    IsList next' prev' (n :: l) := by
  refine ⟨⟨hn, hhead, hback, ?_⟩, List.nodup_cons.mpr ⟨hl, h.nodup⟩⟩
  cases l with
  | nil => exact ⟨hnew.trans h.chain.1, by simp⟩
  | cons q l =>
    obtain ⟨hq, h0, -, hc⟩ := h.chain
    have hnd := (List.nodup_cons.mp h.nodup).1
    refine ⟨hq, hnew.trans h0, ?_, hc.congr hnext ?_ (by simp)⟩
    · rw [hprev q (by simp), if_pos h0.symm]
    · intro x hx
      rw [hprev x (List.mem_cons_of_mem _ hx), if_neg]
      rintro rfl
      exact hnd (h0 ▸ hx)

/-- The walk along the list to the first node that satisfies `f`, or to 0; `none` when the
count of nodes runs out first. -/
def find (next : ℕ → ℕ) (f : ℕ → Bool) : ℕ → ℕ → Option ℕ
  | 0, _ => none
  | k + 1, n => if n = 0 then some 0 else if f n then some n else find next f k (next n)

theorem find_congr (h : ∀ x ≠ 0, next' x = next x) (f : ℕ → Bool) (k n : ℕ) :
    LinkedList.find next' f k n = LinkedList.find next f k n := by
  induction k generalizing n with
  | zero => rfl
  | succ k ih =>
    rw [LinkedList.find, LinkedList.find]
    by_cases hn : n = 0
    · rw [if_pos hn, if_pos hn]
    · rw [h n hn, ih]

theorem Chain.find (h : Chain next prev p l 0) {k : ℕ} (hk : l.length < k) (f : ℕ → Bool) :
    LinkedList.find next f k (next p) = some ((l.find? f).getD 0) := by
  induction l generalizing p k with
  | nil =>
    obtain ⟨k, rfl⟩ := Nat.exists_eq_succ_of_ne_zero (by omega : k ≠ 0)
    simp [LinkedList.find, h.1]
  | cons q l ih =>
    obtain ⟨hq, hpq, -, hl⟩ := h
    obtain ⟨k, rfl⟩ := Nat.exists_eq_succ_of_ne_zero (by omega : k ≠ 0)
    rw [hpq, LinkedList.find, if_neg hq, List.find?_cons]
    cases hf : f q with
    | true => simp
    | false =>
      simp only [Bool.false_eq_true, if_false]
      exact ih hl (by simpa using hk)

end LinkedList
