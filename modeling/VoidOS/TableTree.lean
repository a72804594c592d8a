import VoidOS.Frames
import VoidOS.Ownership

namespace VoidOS.Mm

open ByteMem PageTree Ownership

/-- Places of tables and pages: paths of indices, each with its beginnings. -/
structure Places (P : List ℕ → Prop) : Prop where
  head : ∀ p i, P (p ++ [i]) → P p
  lt : ∀ p i, P (p ++ [i]) → i < 512

def tablesOf (m : Mem) (t : ℕ) (P : List ℕ → Prop) : Set ℕ :=
  {f | ∃ p, P p ∧ p.length ≤ 3 ∧ walk m t p = some (f * pageSize)}

def Phys.inUse (ph : Phys) : Set ℕ := {f | ph.used f = true}

/-- A step of the physical memory that owns the frames `F` before and `F'` after. -/
abbrev Phys.Local (F F' : Set ℕ) (ph ph' : Phys) : Prop :=
  Ownership.Local pageSize F F' ph.inUse ph'.inUse ph.ram ph'.ram

/-- The tables at the places `P` under the root `t`: each is a frame in use that no other place
leads to, and no entry above the last level maps a page by itself. -/
structure Tree (ph : Phys) (t : ℕ) (P : List ℕ → Prop) : Prop where
  places : Places P
  root : t % pageSize = 0
  apart : ∀ p q a, P p → P q → p.length ≤ 3 → q.length ≤ 3 →
    walk ph.ram t p = some a → walk ph.ram t q = some a → p = q
  frame : ∀ p a, P p → p.length ≤ 3 → walk ph.ram t p = some a →
    ∃ f < ph.totalFrames, ph.used f = true ∧ a = f * pageSize
  flat : ∀ p i u, P (p ++ [i]) → p.length ≤ 2 → walk ph.ram t p = some u →
    present (entry ph.ram u i) = true → huge (entry ph.ram u i) = false

section Places

variable {P : List ℕ → Prop} {ph : Phys} {v f x : ℕ} {p q : List ℕ}

theorem places_of (V : ℕ → Prop) : Places fun p => ∃ v, V v ∧ p <+: indices v where
  head := by
    rintro p i ⟨v, hv, hp⟩
    exact ⟨v, hv, (List.prefix_append p [i]).trans hp⟩
  lt := by
    rintro p i ⟨v, -, hp⟩
    exact lt_of_mem_indices (hp.subset (List.mem_append_right p (List.mem_singleton_self i)))

theorem Places.append (h : Places P) (hp : P (p ++ q)) : P p := by
  induction q using List.reverseRecOn with
  | nil => rwa [List.append_nil] at hp
  | append_singleton q i ih =>
    rw [← List.append_assoc] at hp
    exact ih (h.head _ i hp)

theorem Places.initial (h : Places P) (hp : P q) (hpq : p <+: q) : P p := by
  obtain ⟨r, rfl⟩ := hpq
  exact h.append hp

theorem length_tables (v : ℕ) : (tables v).length = 3 := rfl

theorem Phys.mem_inUse : f ∈ ph.inUse ↔ ph.used f = true := Iff.rfl

theorem div_page (hl : f * pageSize ≤ x) (hr : x < f * pageSize + pageSize) : x / pageSize = f := by
  unfold pageSize at *
  omega

end Places

namespace Tree

variable {P : List ℕ → Prop} {ph ph' : Phys} {t u v w f x i : ℕ} {p q : List ℕ}

theorem head (T : Tree ph t P) (h : P (p ++ [i])) : P p := T.places.head p i h

theorem lt (T : Tree ph t P) (h : P (p ++ [i])) : i < 512 := T.places.lt p i h

theorem place (T : Tree ph t P) (h : P (indices v)) : P (Mm.tables v) :=
  T.head (i := ptIdx v) h

theorem forest (T : Tree ph t P) : Forest ph.ram fun t' p => t' = t ∧ P p where
  head := fun _ p i h => ⟨h.1, T.places.head p i h.2⟩
  lt := fun _ p i h => T.places.lt p i h.2
  root := by
    intro t' h
    rw [h.1]
    exact T.root
  apart := by
    rintro t₁ p₁ t₂ p₂ a ⟨rfl, h₁⟩ ⟨rfl, h₂⟩ hl₁ hl₂ hw₁ hw₂
    exact ⟨rfl, T.apart p₁ p₂ a h₁ h₂ hl₁ hl₂ hw₁ hw₂⟩

theorem tables_subset (T : Tree ph t P) : tablesOf ph.ram t P ⊆ ph.inUse := by
  rintro f ⟨p, hp, hlen, hw⟩
  obtain ⟨g, -, hg, he⟩ := T.frame p _ hp hlen hw
  have hfg : f = g := by
    unfold pageSize at he
    omega
  rwa [hfg]

theorem tables_lt (T : Tree ph t P) (hf : f ∈ tablesOf ph.ram t P) : f < ph.totalFrames := by
  obtain ⟨p, hp, hlen, hw⟩ := hf
  obtain ⟨g, hg, -, he⟩ := T.frame p _ hp hlen hw
  have hfg : f = g := by
    unfold pageSize at he
    omega
  rwa [hfg]

theorem mem_tables (T : Tree ph t P) (hp : P p) (hlen : p.length ≤ 3)
    (hw : walk ph.ram t p = some u) (hl : u ≤ x) (hr : x < u + pageSize) :
    x / pageSize ∈ tablesOf ph.ram t P := by
  obtain ⟨f, -, -, rfl⟩ := T.frame p u hp hlen hw
  rw [div_page hl hr]
  exact ⟨p, hp, hlen, hw⟩

section Congr

variable (T : Tree ph t P) (hsame : SameOn pageSize (tablesOf ph.ram t P) ph.ram ph'.ram)

include T hsame

theorem walk_same (hq : P q) (hlen : q.length ≤ 4) :
    walk ph'.ram t q = walk ph.ram t q := by
  apply T.forest.walk_congr _ ⟨rfl, hq⟩ hlen
  rintro t' p a ⟨rfl, hp⟩ hpl hw x hl hr
  exact hsame x (T.mem_tables hp hpl hw hl hr)

theorem entry_same (hp : P p) (hi : i < 512) (hlen : p.length ≤ 3)
    (hw : walk ph.ram t p = some u) : entry ph'.ram u i = entry ph.ram u i := by
  apply entry_congr hi
  intro x hl hr
  exact hsame x (T.mem_tables hp hlen hw hl hr)

theorem leaf_same (hv : P (indices v)) : leaf ph'.ram t v = leaf ph.ram t v := by
  have hwalk := walk_same T hsame (T.place hv) (by rw [length_tables]; decide)
  cases hw : walk ph.ram t (tables v) with
  | none => rw [leaf_of_walk_none hw, leaf_of_walk_none (hwalk.trans hw)]
  | some pt =>
    rw [leaf_of_walk hw, leaf_of_walk (hwalk.trans hw)]
    exact entry_same T hsame (T.place hv) (T.lt (p := Mm.tables v) hv) le_rfl hw

theorem tables_same : tablesOf ph'.ram t P = tablesOf ph.ram t P := by
  ext f
  constructor
  · rintro ⟨p, hp, hlen, hw⟩
    exact ⟨p, hp, hlen, (walk_same T hsame hp (by omega)).symm.trans hw⟩
  · rintro ⟨p, hp, hlen, hw⟩
    exact ⟨p, hp, hlen, (walk_same T hsame hp (by omega)).trans hw⟩

theorem congr (htotal : ph'.totalFrames = ph.totalFrames)
    (hused : tablesOf ph.ram t P ⊆ ph'.inUse) : Tree ph' t P := by
  refine ⟨T.places, T.root, ?_, ?_, ?_⟩
  · intro p q a hp hq hpl hql hwp hwq
    rw [walk_same T hsame hp (by omega)] at hwp
    rw [walk_same T hsame hq (by omega)] at hwq
    exact T.apart p q a hp hq hpl hql hwp hwq
  · intro p a hp hlen hw
    rw [walk_same T hsame hp (by omega)] at hw
    obtain ⟨f, hf, -, rfl⟩ := T.frame p a hp hlen hw
    exact ⟨f, htotal ▸ hf, hused ⟨p, hp, hlen, hw⟩, rfl⟩
  · intro p i u hp hlen hw
    rw [walk_same T hsame (T.head hp) (by omega)] at hw
    rw [entry_same T hsame (T.head hp) (T.lt hp) (by omega) hw]
    exact T.flat p i u hp hlen hw

end Congr

theorem noHuge (T : Tree ph t P) (hv : P (indices v)) : NoHuge ph.ram t v := by
  intro p i u hp hw
  have hlen : (p ++ [i]).length ≤ 3 := hp.length_le
  rw [List.length_append, List.length_singleton] at hlen
  exact T.flat p i u (T.places.initial hv (hp.trans ⟨[ptIdx v], rfl⟩)) (by omega) hw

end Tree

/-- A change to a tree that may add tables: `L` gives the last-level entries afterwards. -/
structure Edit (t : ℕ) (P : List ℕ → Prop) (ph ph' : Phys) (L : ℕ → ℕ) : Prop where
  total : ph'.totalFrames = ph.totalFrames
  tree : Tree ph' t P
  own : ph.Local (tablesOf ph.ram t P) (tablesOf ph'.ram t P) ph'
  walk : ∀ p a, P p → p.length ≤ 3 → walk ph.ram t p = some a → walk ph'.ram t p = some a
  keep : ∀ p i a, P p → i < 512 → p.length ≤ 3 → PageTree.walk ph.ram t p = some a →
    (p.length ≤ 2 ∧ present (entry ph.ram a i) = true) ∨ ¬ P (p ++ [i]) →
    entry ph'.ram a i = entry ph.ram a i
  leaf : ∀ v, P (indices v) → leaf ph'.ram t v = L v

section Edits

variable {P : List ℕ → Prop} {ph ph' ph₁ : Phys} {t u v w f a i flags virt phys : ℕ} {p q : List ℕ}
  {L L' : ℕ → ℕ} {r : Option ℕ} {b : Bool}

theorem Tree.refl (T : Tree ph t P) : Edit t P ph ph (leaf ph.ram t) :=
  ⟨rfl, T, .refl T.tables_subset, fun _ _ _ _ h => h, fun _ _ _ _ _ _ _ _ => rfl, fun _ _ => rfl⟩

theorem Edit.trans (h : Edit t P ph ph₁ L) (h' : Edit t P ph₁ ph' L') : Edit t P ph ph' L' where
  total := h'.total.trans h.total
  tree := h'.tree
  own := h.own.trans h'.own
  walk := fun p a hp hlen hw => h'.walk p a hp hlen (h.walk p a hp hlen hw)
  keep := by
    intro p i a hp hi hlen hw hc
    have he := h.keep p i a hp hi hlen hw hc
    rw [← he] at hc
    exact (h'.keep p i a hp hi hlen (h.walk p a hp hlen hw) hc).trans he
  leaf := h'.leaf

theorem Edit.congr (h : Edit t P ph ph' L) (hL : ∀ v, P (indices v) → L v = L' v) : Edit t P ph ph' L' :=
  ⟨h.total, h.tree, h.own, h.walk, h.keep, fun v hv => (h.leaf v hv).trans (hL v hv)⟩

theorem Edit.subset (h : Edit t P ph ph' L) : tablesOf ph.ram t P ⊆ tablesOf ph'.ram t P := by
  rintro f ⟨p, hp, hlen, hw⟩
  exact ⟨p, hp, hlen, h.walk p _ hp hlen hw⟩

theorem Edit.ok (h : Edit t P ph ph' L) (hok : ph.Ok) : ph'.Ok := by
  refine ⟨?_, h.total ▸ hok.bound⟩
  have hz : (0 : ℕ) ∈ ph'.inUse := by
    rw [h.own.used_eq]
    by_cases hf : 0 ∈ tablesOf ph.ram t P
    · exact Or.inl (h.subset hf)
    · exact Or.inr ⟨hok.zero, hf⟩
  exact hz

theorem Phys.inUse_take : (ph.take f).inUse = insert f ph.inUse := by
  ext n
  rw [Phys.mem_inUse, Phys.used_take, Set.mem_insert_iff, Phys.mem_inUse]
  split
  · rename_i h
    simp [h]
  · rename_i h
    simp [h]

theorem Phys.notMem_inUse (hf : f ∈ ph.free) : f ∉ ph.inUse := by
  rw [Phys.mem_inUse, (Phys.mem_free.mp hf).2]
  exact Bool.false_ne_true

theorem huge_or (hf : flags = 3 ∨ flags = 7) : huge (f * pageSize ||| flags) = false := by
  unfold huge
  rw [Nat.testBit_or, show f * pageSize = f * 2 ^ 12 from rfl, Nat.testBit_mul_two_pow]
  rcases hf with rfl | rfl
  · simp
    decide
  · simp
    decide

section Link

variable (hok : ph.Ok) (T : Tree ph t P) (hD : P (p ++ [i])) (hp : p.length ≤ 2)
  (hu : walk ph.ram t p = some u) (hf : f ∈ ph.free) (habs : present (entry ph.ram u i) = false)
  (hflags : flags = 3 ∨ flags = 7)

include hok T hD hp hu hf habs hflags

private theorem linked : ∃ m, m = setEntry (zeros ph.ram (f * pageSize) pageSize) u i
      (f * pageSize ||| flags) ∧
    (∀ q, P q → q.length ≤ 4 →
      walk m t q = if q = p ++ [i] then some (f * pageSize) else walk ph.ram t q) ∧
    (∀ q j a, P q → j < 512 → q.length ≤ 3 → walk ph.ram t q = some a →
      q ++ [j] ≠ p ++ [i] → entry m a j = entry ph.ram a j) ∧
    (entry m u i = f * pageSize ||| flags) ∧
    (∀ j < 512, entry m (f * pageSize) j = 0) ∧
    SameOn pageSize (ph.inUse \ tablesOf ph.ram t P) ph.ram m := by
  have hfree := Phys.notMem_inUse hf
  have hlt := hok.frame_lt (Phys.mem_free.mp hf).1
  have hmod : f * pageSize % 4096 = 0 := Nat.mul_mod_left f 4096
  have hw : f * pageSize ||| flags < 2 ^ 64 := by
    apply Nat.or_lt_two_pow
    · unfold pageSize at *
      omega
    · rcases hflags with rfl | rfl <;> norm_num
  have haddr : addr (f * pageSize ||| flags) = f * pageSize := by
    apply addr_or hmod
    · unfold pageSize at *
      omega
    · rcases hflags with rfl | rfl <;> decide
  have hpres : present (f * pageSize ||| flags) = true := by
    rw [present_or hmod]
    rcases hflags with rfl | rfl <;> decide
  -- clearing a free frame leaves the tree alone
  let ph₁ : Phys := { ph with ram := zeros ph.ram (f * pageSize) pageSize }
  have hsame : SameOn pageSize ph.inUse ph.ram ph₁.ram := by
    intro x hx
    apply zeros_apply
    by_contra hc
    rw [div_page (f := f) (by omega) (by omega)] at hx
    exact hfree hx
  have hsame₁ := hsame.mono T.tables_subset
  have T₁ : Tree ph₁ t P := T.congr hsame₁ rfl T.tables_subset
  have hwalk : ∀ q, P q → q.length ≤ 4 → walk ph₁.ram t q = walk ph.ram t q :=
    fun q hq hl => T.walk_same hsame₁ hq hl
  have hu₁ : walk ph₁.ram t p = some u := (hwalk p (T.head hD) (by omega)).trans hu
  have hnew : ∀ q a, P q → q.length ≤ 3 → walk ph₁.ram t q = some a → a ≠ f * pageSize := by
    rintro q a hq hl hwq rfl
    rw [hwalk q hq (by omega)] at hwq
    exact hfree (T.tables_subset ⟨q, hq, hl, hwq⟩)
  have habs₁ : present (entry ph₁.ram u i) = false := by
    rw [T.entry_same hsame₁ (T.head hD) (T.lt hD) (by omega) hu]
    exact habs
  have hempty : ∀ j < 512, entry ph₁.ram (f * pageSize) j = 0 := fun j hj => entry_zeros hj
  refine ⟨_, rfl, ?_, ?_, entry_setEntry_self hw, ?_, ?_⟩
  · intro q hq hl
    have hlink := T₁.forest.walk_link ⟨rfl, hD⟩ hp hu₁ hw habs₁ hpres
      (fun j hj => by rw [haddr, hempty j hj]; exact not_present_zero)
      (fun t' q a hq hl hwq => by
        obtain ⟨rfl, hq⟩ := hq
        rw [haddr]
        exact hnew q a hq hl hwq) (show t = t ∧ P q from ⟨rfl, hq⟩) hl
    rw [haddr] at hlink
    rw [hlink, hwalk q hq hl]
    simp
  · intro q j a hq hj hl hwq hne
    rw [entry_setEntry_of_ne hj (T.lt hD) (T.forest.mod ⟨rfl, T.head hD⟩ hu)
      (T.forest.mod ⟨rfl, hq⟩ hwq)]
    · exact T.entry_same hsame₁ hq hj hl hwq
    · rintro ⟨rfl, rfl⟩
      rw [T.apart q p a hq (T.head hD) hl (by omega) hwq hu] at hne
      exact hne rfl
  · intro j hj
    rw [entry_setEntry_of_ne hj (T.lt hD) (T.forest.mod ⟨rfl, (T.head hD)⟩ hu) hmod, hempty j hj]
    rintro ⟨h, -⟩
    exact hnew p u (T.head hD) (by omega) hu₁ h.symm
  · rintro x ⟨hx, hxt⟩
    rw [setEntry_apply (T.lt hD)]
    · exact hsame x hx
    · by_contra hc
      exact hxt (T.mem_tables (T.head hD) (by omega) hu (by omega) (by unfold pageSize; omega))

theorem link_edit : Edit t P ph { ph.take f with
      ram := setEntry (zeros ph.ram (f * pageSize) pageSize) u i (f * pageSize ||| flags) }
        (leaf ph.ram t) ∧
    walk (setEntry (zeros ph.ram (f * pageSize) pageSize) u i (f * pageSize ||| flags)) t
      (p ++ [i]) = some (f * pageSize) := by
  obtain ⟨m, hm, hwalk, hentry, hself, hnew, hsame⟩ :=
    linked hok T hD hp hu hf habs hflags
  rw [← hm]
  have hfree := Phys.notMem_inUse hf
  have hlast : walk m t (p ++ [i]) = some (f * pageSize) := by
    rw [hwalk _ hD (by rw [List.length_append, List.length_singleton]; omega), if_pos rfl]
  have hnone : walk ph.ram t (p ++ [i]) = none := by
    rw [walk_concat_of hu, habs]
    rfl
  have hkept : ∀ q a, P q → q.length ≤ 3 → walk ph.ram t q = some a →
      walk m t q = some a := by
    intro q a hq hl hwq
    rw [hwalk q hq (by omega), if_neg]
    · exact hwq
    · rintro rfl
      rw [hnone] at hwq
      cases hwq
  have htables : tablesOf m t P = insert f (tablesOf ph.ram t P) := by
    ext n
    constructor
    · rintro ⟨q, hq, hl, hwq⟩
      rw [hwalk q hq (by omega)] at hwq
      split at hwq
      · left
        have := Option.some.inj hwq
        unfold pageSize at this
        omega
      · exact Or.inr ⟨q, hq, hl, hwq⟩
    · rintro (rfl | ⟨q, hq, hl, hwq⟩)
      · exact ⟨p ++ [i], hD, by rw [List.length_append, List.length_singleton]; omega, hlast⟩
      · exact ⟨q, hq, hl, hkept q _ hq hl hwq⟩
  refine ⟨⟨rfl, ⟨T.places, T.root, ?_, ?_, ?_⟩, ?_, hkept, ?_, ?_⟩, hlast⟩
  · -- only the new place leads to the new frame
    intro q₁ q₂ a h₁ h₂ hl₁ hl₂ hw₁ hw₂
    rw [hwalk q₁ h₁ (by omega)] at hw₁
    rw [hwalk q₂ h₂ (by omega)] at hw₂
    split at hw₁
    · rename_i e₁
      cases hw₁
      split at hw₂
      · rename_i e₂
        rw [e₁, e₂]
      · exact absurd (T.tables_subset ⟨q₂, h₂, hl₂, hw₂⟩) hfree
    · split at hw₂
      · cases hw₂
        exact absurd (T.tables_subset ⟨q₁, h₁, hl₁, hw₁⟩) hfree
      · exact T.apart q₁ q₂ a h₁ h₂ hl₁ hl₂ hw₁ hw₂
  · intro q a hq hl hwq
    rw [hwalk q hq (by omega)] at hwq
    split at hwq
    · cases hwq
      exact ⟨f, (Phys.mem_free.mp hf).1, by rw [Phys.used_take, if_pos rfl], rfl⟩
    · obtain ⟨g, hg, hu, rfl⟩ := T.frame q a hq hl hwq
      refine ⟨g, hg, ?_, rfl⟩
      rw [Phys.used_take]
      split
      · rfl
      · exact hu
  · intro q j a hq hl hwq
    rw [hwalk q (T.head hq) (by omega)] at hwq
    by_cases hqj : q ++ [j] = p ++ [i]
    · obtain ⟨rfl, hj⟩ := List.append_inj' hqj rfl
      cases hj
      have hne : q ≠ q ++ [i] := fun h => by simpa using congrArg List.length h
      rw [if_neg hne, hu] at hwq
      cases hwq
      rw [hself]
      exact fun _ => huge_or hflags
    · split at hwq
      · cases hwq
        rw [hnew j (T.lt hq)]
        exact fun h => absurd h (by rw [not_present_zero]; exact Bool.false_ne_true)
      · rw [hentry q j a (T.head hq) (T.lt hq) (by omega) hwq hqj]
        exact T.flat q j a hq hl hwq
  · show Ownership.Local pageSize _ (tablesOf m t P) _ (ph.take f).inUse _ _
    rw [htables, Phys.inUse_take]
    exact .take T.tables_subset hfree hsame
  · intro q j a hq hj hl hwq hc
    apply hentry q j a hq hj hl hwq
    intro hqj
    rcases hc with ⟨-, hpres⟩ | hc
    · obtain ⟨rfl, hji⟩ := List.append_inj' hqj rfl
      rw [← Option.some.inj (hu.symm.trans hwq), List.singleton_inj.mp hji, habs] at hpres
      cases hpres
    · exact hc (hqj ▸ hD)
  · intro v hv
    by_cases hvt : tables v = p ++ [i]
    · -- the last-level table is the new one, and there was none before
      rw [leaf_of_walk (hvt ▸ hlast), leaf_of_walk_none (hvt ▸ hnone)]
      exact hnew (ptIdx v) (T.lt (p := tables v) hv)
    · have hw := hwalk (tables v) (T.place hv) (by rw [length_tables]; decide)
      rw [if_neg hvt] at hw
      cases h : walk ph.ram t (tables v) with
      | none => rw [leaf_of_walk_none (hw.trans h), leaf_of_walk_none h]
      | some pt =>
        rw [leaf_of_walk (hw.trans h), leaf_of_walk h]
        apply hentry _ _ _ (T.place hv) (T.lt (p := tables v) hv) le_rfl h
        intro hc
        have hlen := congrArg List.length hc
        rw [List.length_append, List.length_append, length_tables, List.length_singleton,
          List.length_singleton] at hlen
        omega

end Link

theorem walkOrCreate_edit (hok : ph.Ok) (T : Tree ph t P) (hD : P (p ++ [i]))
    (hp : p.length ≤ 2) (hu : walk ph.ram t p = some u) (hflags : flags = 3 ∨ flags = 7)
    (hr : walkOrCreate ph u i flags = (ph', r)) :
    Edit t P ph ph' (leaf ph.ram t) ∧ ∀ a, r = some a → walk ph'.ram t (p ++ [i]) = some a := by
  rcases @walkOrCreate_cases ph u i flags hok hflags with
    ⟨hpres, hw⟩ | ⟨-, -, hw⟩ | ⟨f, hf, habs, hw⟩
  · rw [hw] at hr
    cases hr
    refine ⟨T.refl, fun a ha => ?_⟩
    cases ha
    rw [walk_concat_of hu, hpres, if_pos rfl]
  · rw [hw] at hr
    cases hr
    exact ⟨T.refl, fun a ha => nomatch ha⟩
  · obtain ⟨hedit, hlast⟩ := link_edit hok T hD hp hu hf habs hflags
    rw [hw] at hr
    cases hr
    refine ⟨hedit, fun a ha => ?_⟩
    cases ha
    exact hlast

theorem setLeaf_edit (T : Tree ph t P) (hv : P (indices virt)) (hu : walk ph.ram t (tables virt) = some u)
    (hw : w < 2 ^ 64) :
    Edit t P ph { ph with ram := setEntry ph.ram u (ptIdx virt) w }
        (fun v => if indices v = indices virt then w else leaf ph.ram t v) ∧
      tablesOf (setEntry ph.ram u (ptIdx virt) w) t P = tablesOf ph.ram t P := by
  have hD : P (tables virt ++ [ptIdx virt]) := hv
  have hwalk : ∀ q, P q → q.length ≤ 3 →
      walk (setEntry ph.ram u (ptIdx virt) w) t q = walk ph.ram t q := by
    intro q hq hl
    rw [T.forest.walk_setLeaf ⟨rfl, hD⟩ rfl hu hw ⟨rfl, hq⟩ (by omega), if_neg]
    rintro ⟨-, rfl⟩
    rw [List.length_append, length_tables, List.length_singleton] at hl
    omega
  have hentry : ∀ q j a, P q → j < 512 → q.length ≤ 3 → walk ph.ram t q = some a →
      q ++ [j] ≠ indices virt →
      entry (setEntry ph.ram u (ptIdx virt) w) a j = entry ph.ram a j := by
    intro q j a hq hj hl hwq hne
    apply entry_setEntry_of_ne hj (T.lt hD) (T.forest.mod ⟨rfl, T.head hD⟩ hu)
      (T.forest.mod ⟨rfl, hq⟩ hwq)
    rintro ⟨rfl, rfl⟩
    rw [T.apart q (tables virt) a hq (T.head hD) hl le_rfl hwq hu] at hne
    exact hne rfl
  have htables : tablesOf (setEntry ph.ram u (ptIdx virt) w) t P = tablesOf ph.ram t P := by
    ext n
    constructor
    · rintro ⟨q, hq, hl, hwq⟩
      exact ⟨q, hq, hl, (hwalk q hq hl).symm.trans hwq⟩
    · rintro ⟨q, hq, hl, hwq⟩
      exact ⟨q, hq, hl, (hwalk q hq hl).trans hwq⟩
  refine ⟨⟨rfl, ⟨T.places, T.root, ?_, ?_, ?_⟩, ?_, ?_, ?_, ?_⟩, htables⟩
  · intro q₁ q₂ a h₁ h₂ hl₁ hl₂ hw₁ hw₂
    exact T.apart q₁ q₂ a h₁ h₂ hl₁ hl₂ ((hwalk q₁ h₁ hl₁).symm.trans hw₁)
      ((hwalk q₂ h₂ hl₂).symm.trans hw₂)
  · intro q a hq hl hwq
    exact T.frame q a hq hl ((hwalk q hq hl).symm.trans hwq)
  · intro q j a hq hl hwq
    replace hwq := (hwalk q (T.head hq) (by omega)).symm.trans hwq
    have hne : q ++ [j] ≠ indices virt := by
      intro hc
      have hlen := congrArg List.length hc
      rw [List.length_append, List.length_singleton, length_indices] at hlen
      omega
    show present (entry (setEntry ph.ram u (ptIdx virt) w) a j) = true → _
    rw [hentry q j a (T.head hq) (T.lt hq) (by omega) hwq hne]
    exact T.flat q j a hq hl hwq
  · show Ownership.Local pageSize _ (tablesOf (setEntry ph.ram u (ptIdx virt) w) t P) _ ph.inUse _ _
    rw [htables]
    apply Ownership.Local.of_same T.tables_subset
    rintro x ⟨-, hxt⟩
    apply setEntry_apply (T.lt hD)
    by_contra hc
    exact hxt (T.mem_tables (T.place hv) le_rfl hu (by omega) (by unfold pageSize; omega))
  · intro q a hq hl hwq
    exact (hwalk q hq hl).trans hwq
  · intro q j a hq hj hl hwq hc
    apply hentry q j a hq hj hl hwq
    intro hqj
    rcases hc with ⟨hl₂, -⟩ | hc
    · have hlen := congrArg List.length hqj
      rw [List.length_append, List.length_singleton, length_indices] at hlen
      omega
    · exact hc (hqj ▸ hv)
  · intro v hv'
    have hwv := hwalk (tables v) (T.place hv') le_rfl
    split
    · rename_i he
      obtain ⟨ht, hi⟩ := List.append_inj' (show tables v ++ [ptIdx v] = tables virt ++ [ptIdx virt]
        from he) rfl
      rw [leaf_of_walk (hwv.trans (ht ▸ hu)), List.singleton_inj.mp hi]
      exact entry_setEntry_self hw
    · rename_i hne
      cases h : walk ph.ram t (tables v) with
      | none => rw [leaf_of_walk_none (hwv.trans h), leaf_of_walk_none h]
      | some pt =>
        rw [leaf_of_walk (hwv.trans h), leaf_of_walk h]
        exact hentry _ _ _ (T.place hv') (T.lt (p := tables v) hv') le_rfl h hne

/-- `vmm_map_page` stores one last-level entry, or fails with more tables than before. -/
theorem vmmMapPage_edit (hok : ph.Ok) (T : Tree ph t P) (hv : P (indices virt))
    (hw : addr phys ||| flags < 2 ^ 64) (hr : vmmMapPage ph t virt phys flags = (ph', b)) :
    (b = false ∧ Edit t P ph ph' (leaf ph.ram t)) ∨
    (b = true ∧ Edit t P ph ph' fun v =>
      if indices v = indices virt then addr phys ||| flags else leaf ph.ram t v) := by
  have hplace : ∀ p, p <+: indices virt → P p := fun p hp => T.places.initial hv hp
  unfold vmmMapPage at hr
  have htbl := tblFlags_cases flags
  dsimp only at hr
  split at hr
  · rename_i hw₁
    obtain ⟨e₁, -⟩ := walkOrCreate_edit hok T (p := []) (hplace [_] ⟨_, rfl⟩) (by simp) rfl htbl hw₁
    cases hr
    exact Or.inl ⟨rfl, e₁⟩
  · rename_i hw₁
    obtain ⟨e₁, s₁⟩ := walkOrCreate_edit hok T (p := []) (hplace [_] ⟨_, rfl⟩) (by simp) rfl htbl hw₁
    have hok₁ := e₁.ok hok
    split at hr
    · rename_i hw₂
      obtain ⟨e₂, -⟩ := walkOrCreate_edit hok₁ e₁.tree (p := [_]) (hplace [_, _] ⟨_, rfl⟩) (by simp)
        (s₁ _ rfl) htbl hw₂
      cases hr
      exact Or.inl ⟨rfl, (e₁.trans e₂).congr fun v hv => e₁.leaf v hv⟩
    · rename_i hw₂
      obtain ⟨e₂, s₂⟩ := walkOrCreate_edit hok₁ e₁.tree (p := [_]) (hplace [_, _] ⟨_, rfl⟩) (by simp)
        (s₁ _ rfl) htbl hw₂
      have hok₂ := e₂.ok hok₁
      have e₁₂ := (e₁.trans e₂).congr fun v hv => e₁.leaf v hv
      split at hr
      · rename_i hw₃
        obtain ⟨e₃, -⟩ := walkOrCreate_edit hok₂ e₂.tree (p := [_, _]) (hplace [_, _, _] ⟨_, rfl⟩)
          (by simp) (s₂ _ rfl) htbl hw₃
        cases hr
        exact Or.inl ⟨rfl, (e₁₂.trans e₃).congr fun v hv => e₁₂.leaf v hv⟩
      · rename_i hw₃
        obtain ⟨e₃, s₃⟩ := walkOrCreate_edit hok₂ e₂.tree (p := [_, _]) (hplace [_, _, _] ⟨_, rfl⟩)
          (by simp) (s₂ _ rfl) htbl hw₃
        have e₁₃ := (e₁₂.trans e₃).congr fun v hv => e₁₂.leaf v hv
        cases hr
        refine Or.inr ⟨rfl, (e₁₃.trans (setLeaf_edit e₃.tree hv (s₃ _ rfl) hw).1).congr ?_⟩
        intro v hv'
        split
        · rfl
        · exact e₁₃.leaf v hv'

theorem vmmUnmapPage_edit (T : Tree ph t P) (hv : P (indices virt))
    (hr : vmmUnmapPage ph t virt = (ph', a)) :
    Edit t P ph ph' (fun v => if indices v = indices virt ∧ present (leaf ph.ram t virt) = true
        then 0 else leaf ph.ram t v) ∧
      ph'.used = ph.used ∧ tablesOf ph'.ram t P = tablesOf ph.ram t P ∧
      a = if present (leaf ph.ram t virt) then addr (leaf ph.ram t virt) else 0 := by
  rw [vmmUnmapPage_eq] at hr
  split at hr
  · rename_i hnone
    cases hr
    rw [leaf_of_walk_none hnone]
    refine ⟨T.refl.congr fun v hv => ?_, rfl, rfl, ?_⟩
    · rw [not_present_zero, if_neg (fun h => Bool.false_ne_true h.2)]
    · rw [not_present_zero]
      rfl
  · rename_i pt hpt
    rw [← leaf_of_walk hpt] at hr
    split at hr
    · rename_i habs
      rw [Bool.not_eq_true', ] at habs
      cases hr
      rw [habs]
      refine ⟨T.refl.congr fun v hv => ?_, rfl, rfl, rfl⟩
      rw [if_neg (fun h => Bool.false_ne_true h.2)]
    · rename_i hpres
      rw [Bool.not_eq_true', Bool.not_eq_false] at hpres
      cases hr
      obtain ⟨hedit, htables⟩ := setLeaf_edit T hv hpt (w := 0) (by decide)
      rw [hpres]
      refine ⟨hedit.congr fun v hv => ?_, rfl, htables, rfl⟩
      by_cases he : indices v = indices virt
      · rw [if_pos he, if_pos ⟨he, rfl⟩]
      · rw [if_neg he, if_neg fun h => he h.1]

end Edits

end VoidOS.Mm
