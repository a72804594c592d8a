import Mathlib

/-!
# Circular linked lists

Each node has an optional link. A list of nodes is a cycle if each links to the one after
it and the last to the first. The search walks the links until it is back at its start.
-/

namespace Ring

variable {α : Type*} {next next' : α → Option α} {a b l : List α} {x y z t : α}

/-- Each node of the list links to the one after it, and the last to `z`. -/
def To (next : α → Option α) : List α → α → Prop
  | [], _ => True
  | [x], z => next x = some z
  | x :: y :: l, z => next x = some y ∧ To next (y :: l) z

structure Cycle (next : α → Option α) (l : List α) : Prop where
  nodup : l.Nodup
  links : ∀ h : l ≠ [], To next l (l.head h)

theorem to_append (hb : b ≠ []) : To next (a ++ b) z ↔ To next a (b.head hb) ∧ To next b z := by
  induction a with
  | nil => simp [To]
  | cons x a ih =>
    cases a with
    | nil =>
      cases b with
      | nil => exact absurd rfl hb
      | cons y b => rfl
    | cons y a =>
      show next x = some y ∧ To next (y :: a ++ b) z ↔ _
      rw [ih, ← and_assoc]
      rfl

theorem To.congr (h : To next l z) (hsame : ∀ x ∈ l, next' x = next x) : To next' l z := by
  induction l with
  | nil => trivial
  | cons x l ih =>
    have hx := hsame x List.mem_cons_self
    cases l with
    | nil => exact hx.trans h
    | cons y l => exact ⟨hx.trans h.1, ih h.2 fun w hw => hsame w (List.mem_cons_of_mem _ hw)⟩

namespace Cycle

theorem rotate (h : Cycle next (a ++ b)) : Cycle next (b ++ a) := by
  refine ⟨List.nodup_append_comm.mp h.nodup, fun hne => ?_⟩
  cases a with
  | nil =>
    have hb : b ≠ [] := by simpa using hne
    simpa using h.links hb
  | cons x a =>
    cases b with
    | nil => simpa using h.links (by simp)
    | cons y b =>
      obtain ⟨ha, hb⟩ := (to_append (List.cons_ne_nil y b)).mp (h.links (by simp))
      exact (to_append (List.cons_ne_nil x a)).mpr ⟨hb, ha⟩

theorem rotate_mem (h : Cycle next l) (hx : x ∈ l) :
    ∃ l', Cycle next (x :: l') ∧ ∀ y, y ∈ x :: l' ↔ y ∈ l := by
  obtain ⟨a, b, rfl⟩ := List.append_of_mem hx
  refine ⟨b ++ a, h.rotate, fun y => ?_⟩
  simp only [List.mem_cons, List.mem_append]
  tauto

theorem next_head (h : Cycle next (x :: l)) :
    next x = some (l.headD x) := by
  have hl := h.links (List.cons_ne_nil x l)
  cases l with
  | nil => exact hl
  | cons y l => exact hl.1

theorem insert [DecidableEq α] (h : Cycle next (x :: l)) (hy : y ∉ x :: l) :
    Cycle (Function.update (Function.update next y (next x)) x (some y)) (x :: y :: l) := by
  have hxy : y ≠ x := fun he => hy (he ▸ List.mem_cons_self)
  have hnd := h.nodup
  rw [List.nodup_cons] at hnd
  refine ⟨?_, fun _ => ?_⟩
  · rw [List.nodup_cons, List.nodup_cons, List.mem_cons]
    refine ⟨?_, fun hm => hy (List.mem_cons_of_mem _ hm), hnd.2⟩
    rintro (he | hm)
    · exact hxy he.symm
    · exact hnd.1 hm
  · -- the new node takes over the link of the first
    refine ⟨Function.update_self .., ?_⟩
    have hsame : ∀ w ∈ l, Function.update (Function.update next y (next x)) x (some y) w =
        next w := by
      intro w hw
      have hwx : w ≠ x := fun he => hnd.1 (by rw [← he]; exact hw)
      have hwy : w ≠ y := fun he => hy (by rw [← he]; exact List.mem_cons_of_mem _ hw)
      rw [Function.update_of_ne hwx, Function.update_of_ne hwy]
    have hself : Function.update (Function.update next y (next x)) x (some y) y = next x := by
      rw [Function.update_of_ne hxy, Function.update_self]
    have hlinks := h.links (List.cons_ne_nil x l)
    cases l with
    | nil => exact hself.trans hlinks
    | cons w l => exact ⟨hself.trans hlinks.1, hlinks.2.congr hsame⟩

end Cycle

/-- Looks for a node with `p` from `t` on until the walk is back at `start`. The outer
`none` means that `fuel` nodes were not enough or a link was missing. -/
def search [DecidableEq α] (p : α → Bool) (next : α → Option α) (start : α) :
    ℕ → α → Option (Option α)
  | 0, _ => none
  | fuel + 1, t =>
    if p t then some (some t)
    else match next t with
      | none => none
      | some n => if n = start then some none else search p next start fuel n

section Search

variable [DecidableEq α] {p : α → Bool} {fuel : ℕ}

theorem search_to (h : To next (t :: l) x) (hx : x ∉ l) (hfuel : l.length < fuel) :
    search p next x fuel t = some ((t :: l).find? p) := by
  induction fuel generalizing t l with
  | zero => omega
  | succ fuel ih =>
    rw [search, List.find?_cons]
    cases hp : p t with
    | true => rfl
    | false =>
      dsimp only
      rw [if_neg Bool.false_ne_true]
      cases l with
      | nil =>
        have hn : next t = some x := h
        rw [hn]
        simp
      | cons y l =>
        have hne : y ≠ x := fun he => hx (he ▸ List.mem_cons_self)
        rw [h.1]
        dsimp only
        rw [if_neg hne]
        apply ih h.2 fun hm => hx (List.mem_cons_of_mem _ hm)
        simp only [List.length_cons] at hfuel
        omega

theorem Cycle.search (h : Cycle next (x :: l)) (hfuel : l.length < fuel) :
    search p next x fuel x = some ((x :: l).find? p) :=
  search_to (h.links (List.cons_ne_nil x l)) (List.nodup_cons.mp h.nodup).1 hfuel

end Search

end Ring
