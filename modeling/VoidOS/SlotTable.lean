import Mathlib

/-!
# Tables of reusable slots

A table is a list of slots, each empty or holding a value; its length is the
high-water mark of the slots used so far. A new value takes the first empty slot,
and a lookup returns the first slot whose value matches.
-/

namespace SlotTable

abbrev Table (α : Type*) := List (Option α)

variable {α : Type*} {p : α → Bool} {t : Table α} {i j n : ℕ} {x y : α}

def get (t : Table α) (i : ℕ) : Option α := t[i]?.join

def find (p : α → Bool) (t : Table α) : Option ℕ := t.findIdx? (·.any p)

/-- The first empty slot, or the end of the table. -/
def slot (t : Table α) : ℕ := t.findIdx (·.isNone)

/-- Puts `x` into the first empty slot of a table with at most `n` slots. -/
def put (n : ℕ) (x : α) (t : Table α) : Option (Table α) :=
  if slot t < t.length then some (t.set (slot t) (some x))
  else if t.length < n then some (t ++ [some x])
  else none

def clear (p : α → Bool) (t : Table α) : Table α := t.map (·.filter (fun x => !p x))

def modify (i : ℕ) (f : α → α) (t : Table α) : Table α := t.modify i (·.map f)

theorem find_eq_some_iff : find p t = some i ↔
    (∃ x, get t i = some x ∧ p x = true) ∧ ∀ j < i, ∀ y, get t j = some y → p y = false := by
  unfold find get
  rw [List.findIdx?_eq_some_iff_getElem]
  constructor
  · rintro ⟨hi, hp, hlt⟩
    obtain ⟨x, hx, hpx⟩ := (Option.any_eq_true ..).mp hp
    refine ⟨⟨x, by simp [hi, hx], hpx⟩, fun j hj y hy => ?_⟩
    have hji : j < t.length := by omega
    have hj' : t[j] = some y := by simpa [hji] using hy
    simpa [hj'] using hlt j hj
  · rintro ⟨⟨x, hx, hpx⟩, hlt⟩
    have hi : i < t.length := by
      by_contra h
      simp [List.getElem?_eq_none (not_lt.mp h)] at hx
    have hx' : t[i] = some x := by simpa [hi] using hx
    refine ⟨hi, by simp [hx', hpx], fun j hj => ?_⟩
    have hji : j < t.length := by omega
    cases hy : t[j] with
    | none => simp
    | some y => simpa using hlt j hj y (by simp [hji, hy])

theorem get_slot : get t (slot t) = none := by
  unfold get slot
  by_cases h : t.findIdx (·.isNone) < t.length
  · have := List.findIdx_getElem (w := h)
    rw [List.getElem?_eq_getElem h]
    simpa using this
  · rw [List.getElem?_eq_none (not_lt.mp h)]
    rfl

/-- A stored value is where the first empty slot was; the other slots are kept. -/
theorem get_put {t' : Table α} (h : put n x t = some t') (i : ℕ) :
    get t' i = if i = slot t then some x else get t i := by
  unfold put at h
  split at h
  · rename_i hs
    cases h
    unfold get
    by_cases hi : i = slot t
    · simp [hi, hs]
    · simp [hi, Ne.symm hi]
  · rename_i hs
    split at h
    · cases h
      have hlen : slot t = t.length := by
        have : slot t ≤ t.length := List.findIdx_le_length
        omega
      unfold get
      by_cases hi : i = slot t
      · simp [hi, hlen]
      · rw [if_neg hi]
        by_cases hlt : i < t.length
        · rw [List.getElem?_append_left hlt]
        · rw [List.getElem?_eq_none (by simp; omega), List.getElem?_eq_none (by omega)]
    · cases h

theorem get_clear (i : ℕ) : get (clear p t) i = (get t i).filter (fun x => !p x) := by
  unfold get clear
  rw [List.getElem?_map]
  cases t[i]? with
  | none => rfl
  | some o => rfl

theorem get_modify (f : α → α) (j : ℕ) :
    get (modify i f t) j = if i = j then (get t j).map f else get t j := by
  unfold get modify
  rw [List.getElem?_modify]
  cases t[j]? with
  | none => simp
  | some o => by_cases h : i = j <;> simp [h]

end SlotTable
