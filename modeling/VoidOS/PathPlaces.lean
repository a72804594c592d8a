import VoidOS.PathWalk

namespace VoidOS.Vfs

section Places

variable {root : Node} {path cwd comp : List UInt8} {cur next : Place} {fuel : ℕ}

theorem stepComponent_cases (h : stepComponent comp cur = .ok next) :
    next = cur ∨ (∃ parent above, cur.2 = parent :: above ∧ next = (parent, above)) ∨
      ∃ n ∈ cur.1.children, n.name = comp ∧ next = (n, cur.1 :: cur.2) := by
  unfold stepComponent at h
  split at h
  · cases h
    exact Or.inl rfl
  split at h
  · cases hup : cur.2 with
    | nil =>
      rw [hup] at h
      cases h
      exact Or.inl rfl
    | cons parent above =>
      rw [hup] at h
      cases h
      exact Or.inr (Or.inl ⟨parent, above, rfl, rfl⟩)
  split at h
  · cases h
  split at h
  · cases h
  cases hc : cur.1.findChild comp with
  | none =>
    rw [hc] at h
    cases h
  | some n =>
    rw [hc] at h
    cases h
    have hname : n.name = comp := by simpa using List.find?_some hc
    exact Or.inr (Or.inr ⟨n, List.mem_of_find?_eq_some hc, hname, rfl⟩)

section Rule

variable {Q : Place → Prop}
  (hstep : ∀ comp cur next, Q cur → stepComponent comp cur = .ok next → Q next)

include hstep

theorem walkPath_keeps (hcur : Q cur) (h : walkPath fuel path cur = .ok next) : Q next := by
  induction fuel generalizing path cur with
  | zero =>
    cases h
    exact hcur
  | succ fuel ih =>
    rw [walkPath] at h
    split at h
    · cases h
      exact hcur
    · split at h
      · cases h
      · rename_i hs
        exact ih (hstep _ _ _ hcur hs) h

theorem resolveAbs_keeps (hroot : Q (root, [])) (h : resolveAbs root path = .ok cur) : Q cur := by
  unfold resolveAbs at h
  split at h
  · cases h
  split at h
  · cases h
  rename_i hw
  split at h
  · cases h
  · cases h
    exact walkPath_keeps hstep hroot hw

theorem lookup_keeps {m : ByteMem.Mem} {cr3 upath : ℕ} (hroot : Q (root, []))
    (h : lookup m cr3 root cwd upath = .ok cur) : Q cur := by
  unfold lookup at h
  split at h
  · cases h
  split at h
  · cases h
  · exact resolveAbs_keeps hstep hroot h

end Rule

end Places

/-- Every file is an object in memory: its size is a nonnegative `int64_t`. -/
inductive SmallTree : Node → Prop
  | intro {n : Node} : n.data.length < 2 ^ 63 → (∀ c ∈ n.children, SmallTree c) → SmallTree n

theorem SmallTree.data {n : Node} (h : SmallTree n) : n.data.length < 2 ^ 63 := by
  cases h with
  | intro hdata _ => exact hdata

theorem SmallTree.child {n c : Node} (h : SmallTree n) (hc : c ∈ n.children) : SmallTree c := by
  cases h with
  | intro _ hall => exact hall c hc

theorem SmallTree.lookup {m : ByteMem.Mem} {cr3 upath : ℕ} {root : Node} {cwd : List UInt8}
    {cur : Place} (h : SmallTree root) (hl : lookup m cr3 root cwd upath = .ok cur) :
    SmallTree cur.1 := by
  have hkeeps := @lookup_keeps root cwd cur (fun cur => SmallTree cur.1 ∧ ∀ n ∈ cur.2, SmallTree n)
    (by
      rintro comp cur next ⟨hcur, hup⟩ hs
      rcases stepComponent_cases hs with rfl | ⟨parent, above, he, rfl⟩ | ⟨n, hn, -, rfl⟩
      · exact ⟨hcur, hup⟩
      · rw [he] at hup
        exact ⟨hup parent List.mem_cons_self, fun n hn => hup n (List.mem_cons_of_mem _ hn)⟩
      · refine ⟨hcur.child hn, fun n' hn' => ?_⟩
        rcases List.mem_cons.mp hn' with rfl | hn'
        · exact hcur
        · exact hup n' hn')
    m cr3 upath ⟨h, fun n hn => nomatch hn⟩ hl
  exact hkeeps.1

end VoidOS.Vfs
