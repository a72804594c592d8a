import VoidOS.AddressSpaces

namespace VoidOS.Mm

open ByteMem PageTree Ownership

/-- `walk_or_create` when the frame allocator answers its next calls with `frames`; an answer of 0,
or none, is a failure. -/
def walkOrCreateBy (m : Mem) (frames : List ℕ) (table index flags : ℕ) : Mem × List ℕ × Option ℕ :=
  if present (entry m table index) then (m, frames, some (addr (entry m table index)))
  else
    let newFrame := frames.headD 0
    if newFrame = 0 then (m, frames.tail, none)
    else
      let m := setEntry (zeros m newFrame pageSize) table index (newFrame ||| flags)
      (m, frames.tail, some (addr (entry m table index)))

def vmmMapPageBy (m : Mem) (frames : List ℕ) (pml4 virt phys flags : ℕ) : Mem × Bool :=
  let tblFlags := if user flags then vmmPresent ||| vmmWrite ||| vmmUser
    else vmmPresent ||| vmmWrite
  match walkOrCreateBy m frames pml4 (pml4Idx virt) tblFlags with
  | (m, _, none) => (m, false)
  | (m, frames, some pdpt) =>
    match walkOrCreateBy m frames pdpt (pdptIdx virt) tblFlags with
    | (m, _, none) => (m, false)
    | (m, frames, some pd) =>
      match walkOrCreateBy m frames pd (pdIdx virt) tblFlags with
      | (m, _, none) => (m, false)
      | (m, _, some pt) => (setEntry m pt (ptIdx virt) (addr phys ||| flags), true)

/-- The answers of `pmm_alloc_frame` to `n` calls in a row. -/
def pmmAnswers : ℕ → Phys → List ℕ
  | 0, _ => []
  | n + 1, ph => (pmmAllocFrame ph).2 :: pmmAnswers n (pmmAllocFrame ph).1

section Pmm

/-- The allocator does not look at the memory. -/
theorem pmmAnswers_ram (n : ℕ) (ph : Phys) (m : Mem) :
    pmmAnswers n { ph with ram := m } = pmmAnswers n ph := by
  induction n generalizing ph with
  | zero => rfl
  | succ n ih =>
    have hfirst : pmmAllocFrame { ph with ram := m } =
        ({ (pmmAllocFrame ph).1 with ram := m }, (pmmAllocFrame ph).2) := by
      unfold pmmAllocFrame
      dsimp only
      split <;> rfl
    rw [pmmAnswers, pmmAnswers, hfirst, ih]

theorem pmmAllocFrame_ram (ph : Phys) : (pmmAllocFrame ph).1.ram = ph.ram := by
  unfold pmmAllocFrame
  split <;> rfl

/-- `walk_or_create` is the function above on the answers of the PMM. -/
theorem walkOrCreate_by (n : ℕ) (ph : Phys) (table index flags : ℕ) :
    ∃ k, n ≤ k ∧ walkOrCreateBy ph.ram (pmmAnswers (n + 1) ph) table index flags =
      ((walkOrCreate ph table index flags).1.ram,
        pmmAnswers k (walkOrCreate ph table index flags).1,
        (walkOrCreate ph table index flags).2) := by
  unfold walkOrCreateBy walkOrCreate
  by_cases hp : present (entry ph.ram table index) = true
  · rw [if_pos hp, if_pos hp]
    exact ⟨n + 1, Nat.le_succ n, rfl⟩
  · refine ⟨n, le_rfl, ?_⟩
    rw [if_neg hp, if_neg hp]
    unfold allocTable
    dsimp only [pmmAnswers, List.headD_cons, List.tail_cons]
    by_cases hz : (pmmAllocFrame ph).2 = 0
    · simp [hz, pmmAllocFrame_ram]
    · simp [hz, pmmAllocFrame_ram, pmmAnswers_ram]

/-- `vmm_map_page` maps with the answers of the PMM. -/
theorem vmmMapPage_by (ph : Phys) (pml4 virt phys flags : ℕ) :
    vmmMapPageBy ph.ram (pmmAnswers 3 ph) pml4 virt phys flags =
      ((vmmMapPage ph pml4 virt phys flags).1.ram, (vmmMapPage ph pml4 virt phys flags).2) := by
  unfold vmmMapPageBy vmmMapPage
  dsimp only
  generalize (if user flags then vmmPresent ||| vmmWrite ||| vmmUser
    else vmmPresent ||| vmmWrite) = fl
  obtain ⟨k₁, hk₁, h₁⟩ := walkOrCreate_by 2 ph pml4 (pml4Idx virt) fl
  rw [h₁]
  rcases walkOrCreate ph pml4 (pml4Idx virt) fl with ⟨ph₁, _ | pdpt⟩
  · rfl
  obtain ⟨k, rfl⟩ := Nat.exists_eq_add_of_le' (show 1 ≤ k₁ by omega)
  obtain ⟨k₂, hk₂, h₂⟩ := walkOrCreate_by k ph₁ pdpt (pdptIdx virt) fl
  dsimp only
  rw [h₂]
  rcases walkOrCreate ph₁ pdpt (pdptIdx virt) fl with ⟨ph₂, _ | pd⟩
  · rfl
  obtain ⟨k', rfl⟩ := Nat.exists_eq_add_of_le' (show 1 ≤ k₂ by omega)
  obtain ⟨k₃, -, h₃⟩ := walkOrCreate_by k' ph₂ pd (pdIdx virt) fl
  dsimp only
  rw [h₃]
  rcases walkOrCreate ph₂ pd (pdIdx virt) fl with ⟨ph₃, _ | pt⟩
  · rfl
  · rfl

end Pmm

/-- Tables in pairwise distinct frames at the places `P`, without huge entries on the way. -/
structure TableTree (m : Mem) (t : ℕ) (P : List ℕ → Prop) : Prop where
  places : Places P
  root : t % pageSize = 0 ∧ t < 2 ^ 52
  apart : ∀ p q a, P p → P q → p.length ≤ 3 → q.length ≤ 3 →
    walk m t p = some a → walk m t q = some a → p = q
  flat : ∀ p i u, P (p ++ [i]) → p.length ≤ 2 → walk m t p = some u →
    present (entry m u i) = true → huge (entry m u i) = false

/-- The answers are frames outside the tree, each given once. -/
def Outside (m : Mem) (t : ℕ) (P : List ℕ → Prop) (frames : List ℕ) : Prop :=
  (frames.filter (· ≠ 0)).Nodup ∧ ∀ a ∈ frames, a ≠ 0 → a % pageSize = 0 ∧ a < 2 ^ 52 ∧
    ∀ p, P p → p.length ≤ 3 → walk m t p ≠ some a

def AllPlaces (p : List ℕ) : Prop := ∃ v, p <+: indices v

/-- Two addresses in one page of the 48-bit space. -/
def SamePage (v w : ℕ) : Prop := v / pageSize % 2 ^ 36 = w / pageSize % 2 ^ 36

instance (v w : ℕ) : Decidable (SamePage v w) := by delta SamePage; infer_instance

section Laws

variable {m m' : Mem} {ph ph' : Phys} {t u v virt phys flags i : ℕ} {frames frames' : List ℕ}
  {p : List ℕ} {P : List ℕ → Prop} {r : Option ℕ} {b : Bool} {L : ℕ → ℕ}

theorem samePage_iff {v w : ℕ} : SamePage v w ↔ indices v = indices w := indices_eq_iff.symm

theorem allPlaces : Places AllPlaces where
  head := fun p i ⟨v, hp⟩ => ⟨v, (List.prefix_append p [i]).trans hp⟩
  lt := fun p i ⟨_, hp⟩ =>
    lt_of_mem_indices (hp.subset (List.mem_append_right p (List.mem_singleton_self i)))

def Answers (ph : Phys) (frames : List ℕ) : Prop :=
  (frames.filter (· ≠ 0)).Nodup ∧ ∀ a ∈ frames, a ≠ 0 → ∃ f ∈ ph.free, a = f * pageSize

theorem Answers.tail (h : Answers ph frames) : Answers ph frames.tail := by
  refine ⟨?_, fun a ha => h.2 a (List.mem_of_mem_tail ha)⟩
  cases frames with
  | nil => exact h.1
  | cons a as =>
    refine h.1.sublist ?_
    exact (List.sublist_cons_self a as).filter _

theorem Answers.take {f : ℕ} (h : Answers ph (f * pageSize :: frames)) (hf : f ∈ ph.free)
    (hne : f * pageSize ≠ 0) (m : Mem) : Answers { ph.take f with ram := m } frames := by
  refine ⟨h.tail.1, fun a ha ha0 => ?_⟩
  obtain ⟨g, hg, rfl⟩ := h.2 a (List.mem_cons_of_mem _ ha) ha0
  refine ⟨g, ?_, rfl⟩
  have hgf : g ≠ f := by
    rintro rfl
    have hnd := h.1
    rw [List.filter_cons_of_pos (by simpa using hne), List.nodup_cons] at hnd
    exact hnd.1 (List.mem_filter.mpr ⟨ha, by simpa using ha0⟩)
  show g ∈ (ph.take f).free
  rw [Phys.free_take]
  exact Finset.mem_erase.mpr ⟨hgf, hg⟩

theorem walkOrCreateBy_edit (hok : ph.Ok) (T : Tree ph t P) (hD : P (p ++ [i]))
    (hp : p.length ≤ 2) (hu : walk ph.ram t p = some u) (hflags : flags = 3 ∨ flags = 7)
    (hfr : Answers ph frames) (hr : walkOrCreateBy ph.ram frames u i flags = (m', frames', r)) :
    ∃ ph', ph'.ram = m' ∧ Edit t P ph ph' (leaf ph.ram t) ∧ Answers ph' frames' ∧
      ∀ a, r = some a → walk m' t (p ++ [i]) = some a := by
  unfold walkOrCreateBy at hr
  by_cases hpres : present (entry ph.ram u i) = true
  · rw [if_pos hpres] at hr
    cases hr
    refine ⟨ph, rfl, T.refl, hfr, fun a ha => ?_⟩
    rw [walk_concat_of hu, hpres, if_pos rfl]
    exact ha
  · rw [if_neg hpres] at hr
    dsimp only at hr
    by_cases hz : frames.headD 0 = 0
    · rw [if_pos hz] at hr
      cases hr
      exact ⟨ph, rfl, T.refl, hfr.tail, fun a ha => nomatch ha⟩
    · rw [if_neg hz] at hr
      cases frames with
      | nil => exact absurd rfl hz
      | cons a as =>
        rw [List.headD_cons] at hz hr
        obtain ⟨f, hf, rfl⟩ := hfr.2 a List.mem_cons_self hz
        rw [Bool.not_eq_true] at hpres
        obtain ⟨hedit, hlast⟩ := link_edit hok T hD hp hu hf hpres hflags
        cases hr
        refine ⟨_, rfl, hedit, hfr.take hf hz _, fun a ha => ?_⟩
        cases ha
        have hconcat := walk_concat_of (i := i) (hedit.walk p u (T.head hD) (by omega) hu)
        dsimp only at hconcat
        rw [hconcat] at hlast ⊢
        split at hlast
        · rename_i hp'
          rw [if_pos hp']
        · cases hlast

/-- `vmm_map_page` over any allocator stores one last-level entry, or fails with more tables than
before. -/
theorem vmmMapPageBy_edit (hok : ph.Ok) (T : Tree ph t P) (hv : P (indices virt))
    (hw : addr phys ||| flags < 2 ^ 64) (hfr : Answers ph frames)
    (hr : vmmMapPageBy ph.ram frames t virt phys flags = (m', b)) :
    ∃ ph', ph'.ram = m' ∧ ((b = false ∧ Edit t P ph ph' (leaf ph.ram t)) ∨
      (b = true ∧ Edit t P ph ph' fun v =>
        if indices v = indices virt then addr phys ||| flags else leaf ph.ram t v)) := by
  have hplace : ∀ p, p <+: indices virt → P p := fun p hp => T.places.initial hv hp
  unfold vmmMapPageBy at hr
  have htbl := tblFlags_cases flags
  dsimp only at hr
  split at hr
  · rename_i hw₁
    obtain ⟨ph₁, rfl, e₁, -⟩ := walkOrCreateBy_edit hok T (p := []) (hplace [_] ⟨_, rfl⟩) (by simp)
      rfl htbl hfr hw₁
    cases hr
    exact ⟨ph₁, rfl, Or.inl ⟨rfl, e₁⟩⟩
  · rename_i hw₁
    obtain ⟨ph₁, rfl, e₁, hfr₁, s₁⟩ := walkOrCreateBy_edit hok T (p := []) (hplace [_] ⟨_, rfl⟩)
      (by simp) rfl htbl hfr hw₁
    have hok₁ := e₁.ok hok
    split at hr
    · rename_i hw₂
      obtain ⟨ph₂, rfl, e₂, -⟩ := walkOrCreateBy_edit hok₁ e₁.tree (p := [_])
        (hplace [_, _] ⟨_, rfl⟩) (by simp) (s₁ _ rfl) htbl hfr₁ hw₂
      cases hr
      exact ⟨ph₂, rfl, Or.inl ⟨rfl, (e₁.trans e₂).congr fun v hv => e₁.leaf v hv⟩⟩
    · rename_i hw₂
      obtain ⟨ph₂, rfl, e₂, hfr₂, s₂⟩ := walkOrCreateBy_edit hok₁ e₁.tree (p := [_])
        (hplace [_, _] ⟨_, rfl⟩) (by simp) (s₁ _ rfl) htbl hfr₁ hw₂
      have hok₂ := e₂.ok hok₁
      have e₁₂ := (e₁.trans e₂).congr fun v hv => e₁.leaf v hv
      split at hr
      · rename_i hw₃
        obtain ⟨ph₃, rfl, e₃, -⟩ := walkOrCreateBy_edit hok₂ e₂.tree (p := [_, _])
          (hplace [_, _, _] ⟨_, rfl⟩) (by simp) (s₂ _ rfl) htbl hfr₂ hw₃
        cases hr
        exact ⟨ph₃, rfl, Or.inl ⟨rfl, (e₁₂.trans e₃).congr fun v hv => e₁₂.leaf v hv⟩⟩
      · rename_i hw₃
        obtain ⟨ph₃, rfl, e₃, -, s₃⟩ := walkOrCreateBy_edit hok₂ e₂.tree (p := [_, _])
          (hplace [_, _, _] ⟨_, rfl⟩) (by simp) (s₂ _ rfl) htbl hfr₂ hw₃
        have e₁₃ := (e₁₂.trans e₃).congr fun v hv => e₁₂.leaf v hv
        cases hr
        refine ⟨_, rfl, Or.inr ⟨rfl, (e₁₃.trans (setLeaf_edit e₃.tree hv (s₃ _ rfl) hw).1).congr ?_⟩⟩
        intro v hv'
        split
        · rfl
        · exact e₁₃.leaf v hv'

theorem walk_lt (ht : t < 2 ^ 52) {a : ℕ} (h : walk m t p = some a) : a < 2 ^ 52 := by
  induction p using List.reverseRecOn with
  | nil => exact Option.some.inj h ▸ ht
  | append_singleton p i ih =>
    obtain ⟨w, -, -, rfl⟩ := walk_concat_eq_some h
    exact addr_lt _

/-- The memory with an allocator that has these frames left. -/
def withFrames (m : Mem) (frames : List ℕ) : Phys :=
  ⟨m, fun f => decide (f = 0 ∨ f * pageSize ∉ frames), 2 ^ 40⟩

theorem withFrames_ram (m : Mem) (frames : List ℕ) : (withFrames m frames).ram = m := rfl

theorem withFrames_used {f : ℕ} : (withFrames m frames).used f = true ↔
    f = 0 ∨ f * pageSize ∉ frames := decide_eq_true_iff

theorem withFrames_ok (m : Mem) (frames : List ℕ) : (withFrames m frames).Ok := by
  refine ⟨withFrames_used.mpr (Or.inl rfl), ?_⟩
  show 2 ^ 40 * 4096 ≤ 2 ^ 52
  norm_num

theorem TableTree.tree (T : TableTree m t P) (hfr : Outside m t P frames) :
    Tree (withFrames m frames) t P where
  places := T.places
  root := T.root.1
  apart := T.apart
  flat := T.flat
  frame := by
    intro p a hp hl hw
    have hmod := walk_mod T.root.1 hw
    have hlt := walk_lt T.root.2 hw
    have ha : a / pageSize * pageSize = a := Nat.div_mul_cancel (Nat.dvd_of_mod_eq_zero hmod)
    refine ⟨a / pageSize, ?_, withFrames_used.mpr ?_, ha.symm⟩
    · show a / 4096 < 2 ^ 40
      omega
    · rw [ha]
      by_cases hz : a = 0
      · exact Or.inl (by rw [hz, Nat.zero_div])
      · exact Or.inr fun hmem => (hfr.2 a hmem hz).2.2 p hp hl hw

theorem Tree.tableTree (T : Tree ph t P) (ht : t < 2 ^ 52) : TableTree ph.ram t P :=
  ⟨T.places, ⟨T.root, ht⟩, T.apart, T.flat⟩

theorem Outside.answers (h : Outside m t P frames) : Answers (withFrames m frames) frames := by
  refine ⟨h.1, fun a ha ha0 => ?_⟩
  obtain ⟨hmod, hlt, -⟩ := h.2 a ha ha0
  have hdiv : a / pageSize * pageSize = a := Nat.div_mul_cancel (Nat.dvd_of_mod_eq_zero hmod)
  refine ⟨a / pageSize, Phys.mem_free.mpr ⟨?_, Bool.eq_false_iff.mpr fun hused => ?_⟩, hdiv.symm⟩
  · show a / 4096 < 2 ^ 40
    omega
  · rcases withFrames_used.mp hused with hz | hnot
    · rw [hz, zero_mul] at hdiv
      exact ha0 hdiv.symm
    · rw [hdiv] at hnot
      exact hnot ha

theorem outside_nil (m : Mem) (t : ℕ) (P : List ℕ → Prop) : Outside m t P [] :=
  ⟨List.nodup_nil, fun _ ha => absurd ha List.not_mem_nil⟩

theorem TableTree.noHuge (T : TableTree m t P) (hv : P (indices v)) : NoHuge m t v :=
  (T.tree (outside_nil m t P)).noHuge hv

theorem TableTree.translation (T : TableTree m t P) (hv : P (indices v)) : translation m t v =
    (if present (leaf m t v) then addr (leaf m t v) + v % pageSize else 0, leaf m t v) := by
  have hflat := T.noHuge hv
  unfold Mm.translation
  rw [vmmVirtToPhys_eq hflat, vmmGetPte_eq hflat,
    or_eq_add (k := 12) (addr_mod _) (Nat.mod_lt _ (by decide))]
  rfl

/-- What `vmm_map_page` does to the last-level entries, and which frames it writes. -/
theorem TableTree.map (T : TableTree m t P) (hfr : Outside m t P frames) (hv : P (indices virt))
    (hflags : flags < 2 ^ 64) (hr : vmmMapPageBy m frames t virt phys flags = (m', b)) :
    TableTree m' t P ∧
      (∀ v, P (indices v) → leaf m' t v =
        if b = true ∧ SamePage v virt then addr phys ||| flags else leaf m t v) ∧
      ∀ x, x / pageSize * pageSize ∉ frames → x / pageSize ∉ tablesOf m t P → m' x = m x := by
  have hT := T.tree hfr
  obtain ⟨ph', rfl, h⟩ := vmmMapPageBy_edit (withFrames_ok m frames) hT hv (entry_word_lt hflags)
    hfr.answers hr
  have hkeep : ∀ {L}, Edit t P (withFrames m frames) ph' L → ∀ x,
      x / pageSize * pageSize ∉ frames → x / pageSize ∉ tablesOf m t P → ph'.ram x = m x := by
    intro L e x hx hxt
    exact e.own.same x ⟨withFrames_used.mpr (Or.inr hx), hxt⟩
  rcases h with ⟨rfl, e⟩ | ⟨rfl, e⟩
  · refine ⟨e.tree.tableTree T.root.2, fun v hv' => ?_, hkeep e⟩
    rw [if_neg (fun h => Bool.false_ne_true h.1)]
    exact e.leaf v hv'
  · refine ⟨e.tree.tableTree T.root.2, fun v hv' => ?_, hkeep e⟩
    rw [e.leaf v hv']
    simp only [samePage_iff, true_and]
    rfl

theorem TableTree.unmap (T : TableTree m t P) (hv : P (indices virt)) (hram : ph.ram = m) :
    TableTree (vmmUnmapPage ph t virt).1.ram t P ∧
      (∀ v, P (indices v) → leaf (vmmUnmapPage ph t virt).1.ram t v =
        if SamePage v virt ∧ present (leaf m t virt) = true then 0 else leaf m t v) ∧
      (vmmUnmapPage ph t virt).2 =
        (if present (leaf m t virt) then addr (leaf m t virt) else 0) ∧
      ∀ x, x / pageSize ∉ tablesOf m t P → (vmmUnmapPage ph t virt).1.ram x = m x := by
  -- the call does not depend on the allocator
  have hsame : (vmmUnmapPage ph t virt).1.ram = (vmmUnmapPage (withFrames m []) t virt).1.ram ∧
      (vmmUnmapPage ph t virt).2 = (vmmUnmapPage (withFrames m []) t virt).2 := by
    simp only [vmmUnmapPage_eq, hram, withFrames_ram]
    cases walk m t (tables virt) with
    | none => exact ⟨hram, rfl⟩
    | some pt =>
      by_cases hp : present (entry m pt (ptIdx virt)) = true
      · simp [hp]
      · simp [hp, hram, withFrames_ram]
  rw [hsame.1, hsame.2]
  cases hu : vmmUnmapPage (withFrames m []) t virt with
  | mk ph' a =>
  obtain ⟨e, -, -, ha⟩ := vmmUnmapPage_edit (T.tree (outside_nil m t P)) hv hu
  refine ⟨e.tree.tableTree T.root.2, fun v hv' => ?_, ha, fun x hx => ?_⟩
  · rw [e.leaf v hv']
    simp only [samePage_iff]
    rfl
  · exact e.own.same x ⟨withFrames_used.mpr (Or.inr List.not_mem_nil), hx⟩

end Laws

/-- `vmm_map_page`, `vmm_unmap_page` and the two readers, for every tree without huge entries and
every frame allocator that answers with frames outside it. -/
theorem page_table_laws {m : Mem} {t virt phys flags : ℕ} {frames : List ℕ} (T : TableTree m t AllPlaces)
    (hfr : Outside m t AllPlaces frames) (hflags : flags < 2 ^ 64) (hpres : present flags = true)
    (hmask : addr flags = 0) :
    (∀ m', vmmMapPageBy m frames t virt phys flags = (m', true) → ∀ v,
      if SamePage v virt then vmmVirtToPhys m' t v = addr phys + v % pageSize ∧
        vmmGetPte m' t v = addr phys ||| flags
      else vmmVirtToPhys m' t v = vmmVirtToPhys m t v ∧ vmmGetPte m' t v = vmmGetPte m t v) ∧
    (∀ m', vmmMapPageBy m frames t virt phys flags = (m', false) → ∀ v,
      vmmVirtToPhys m' t v = vmmVirtToPhys m t v ∧ vmmGetPte m' t v = vmmGetPte m t v) ∧
    (∀ ph : Phys, ph.ram = m →
      (vmmUnmapPage ph t virt).2 =
        (if present (vmmGetPte m t virt) then addr (vmmGetPte m t virt) else 0) ∧
      ∀ v, if SamePage v virt then vmmVirtToPhys (vmmUnmapPage ph t virt).1.ram t v = 0 ∧
          present (vmmGetPte (vmmUnmapPage ph t virt).1.ram t v) = false
        else vmmVirtToPhys (vmmUnmapPage ph t virt).1.ram t v = vmmVirtToPhys m t v ∧
          vmmGetPte (vmmUnmapPage ph t virt).1.ram t v = vmmGetPte m t v) ∧
    ∀ ph : Phys, vmmMapPageBy m frames t virt phys flags = (ph.ram, true) →
      present (vmmGetPte m t virt) = false →
      (vmmUnmapPage ph t virt).2 = addr phys ∧
      ∀ v, vmmVirtToPhys (vmmUnmapPage ph t virt).1.ram t v = vmmVirtToPhys m t v := by
  have hall : ∀ v, AllPlaces (indices v) := fun v => ⟨v, List.prefix_rfl⟩
  have hphys : ∀ {m₁ v}, TableTree m₁ t AllPlaces → vmmVirtToPhys m₁ t v =
      if present (leaf m₁ t v) then addr (leaf m₁ t v) + v % pageSize else 0 :=
    fun {_ v} T₁ => congrArg Prod.fst (T₁.translation (hall v))
  have hpte : ∀ {m₁ v}, TableTree m₁ t AllPlaces → vmmGetPte m₁ t v = leaf m₁ t v :=
    fun {_ v} T₁ => congrArg Prod.snd (T₁.translation (hall v))
  have haddr : addr (addr phys ||| flags) = addr phys :=
    addr_or (addr_mod phys) (addr_lt phys) hmask
  have hset : present (addr phys ||| flags) = true := by
    rw [present_or (addr_mod phys)]
    exact hpres
  refine ⟨?_, ?_, ?_, ?_⟩
  · intro m' hr v
    obtain ⟨T', hleaf, -⟩ := T.map hfr (hall virt) hflags hr
    split
    · rename_i hv
      have hnew : leaf m' t v = addr phys ||| flags := by rw [hleaf v (hall v), if_pos ⟨rfl, hv⟩]
      rw [hphys T', hpte T', hnew, hset, if_pos rfl, haddr]
      exact ⟨rfl, rfl⟩
    · rename_i hv
      have hold : leaf m' t v = leaf m t v := by rw [hleaf v (hall v), if_neg fun h => hv h.2]
      rw [hphys T', hpte T', hphys T, hpte T, hold]
      exact ⟨rfl, rfl⟩
  · intro m' hr v
    obtain ⟨T', hleaf, -⟩ := T.map hfr (hall virt) hflags hr
    have hold : leaf m' t v = leaf m t v := by
      rw [hleaf v (hall v), if_neg fun h => Bool.false_ne_true h.1]
    rw [hphys T', hpte T', hphys T, hpte T, hold]
    exact ⟨rfl, rfl⟩
  · intro ph hram
    obtain ⟨T', hleaf, ha, -⟩ := T.unmap (hall virt) hram
    refine ⟨by rw [ha, hpte T], fun v => ?_⟩
    split
    · rename_i hv
      have habs : present (leaf (vmmUnmapPage ph t virt).1.ram t v) = false := by
        rw [hleaf v (hall v)]
        split
        · exact not_present_zero
        · rename_i hc
          rw [leaf_congr (samePage_iff.mp hv)]
          exact Bool.eq_false_iff.mpr fun hp => hc ⟨hv, hp⟩
      rw [hphys T', hpte T', habs]
      exact ⟨rfl, rfl⟩
    · rename_i hv
      have hold : leaf (vmmUnmapPage ph t virt).1.ram t v = leaf m t v := by
        rw [hleaf v (hall v), if_neg fun h => hv h.1]
      rw [hphys T', hpte T', hphys T, hpte T, hold]
      exact ⟨rfl, rfl⟩
  · intro ph hr habs
    rw [hpte T] at habs
    obtain ⟨T₁, hleaf₁, -⟩ := T.map hfr (hall virt) hflags hr
    obtain ⟨T₂, hleaf₂, ha, -⟩ := T₁.unmap (hall virt) rfl
    have hself : leaf ph.ram t virt = addr phys ||| flags := by
      rw [hleaf₁ virt (hall virt), if_pos ⟨rfl, rfl⟩]
    rw [hself, hset, if_pos rfl, haddr] at ha
    refine ⟨ha, fun v => ?_⟩
    by_cases hv : SamePage v virt
    · -- the page was not mapped before and is not mapped now
      have hgone : leaf (vmmUnmapPage ph t virt).1.ram t v = 0 := by
        rw [hleaf₂ v (hall v), hself, if_pos ⟨hv, hset⟩]
      have hold : present (leaf m t v) = false := by
        rw [leaf_congr (samePage_iff.mp hv)]
        exact habs
      rw [hphys T₂, hphys T, hgone, hold, not_present_zero]
      rfl
    · have hold : leaf (vmmUnmapPage ph t virt).1.ram t v = leaf m t v := by
        rw [hleaf₂ v (hall v), if_neg fun h => hv h.1, hleaf₁ v (hall v), if_neg fun h => hv h.2]
      rw [hphys T₂, hphys T, hold]

theorem emptyTree : TableTree (fun _ => 0) 0x1000 AllPlaces := by
  have hwalk : ∀ p a, walk (fun _ => 0) 0x1000 p = some a → p = [] := by
    intro p a hw
    cases p with
    | nil => rfl
    | cons i p =>
      rw [walk, entry_zero, not_present_zero] at hw
      cases hw
  refine ⟨allPlaces, by decide, ?_, ?_⟩
  · intro p q a _ _ _ _ hp hq
    rw [hwalk p a hp, hwalk q a hq]
  · intro p i u _ _ _ hpres
    rw [entry_zero, not_present_zero] at hpres
    cases hpres

theorem page_table_laws_empty :
    vmmVirtToPhys (vmmMapPageBy (fun _ => 0) [0x2000, 0x3000, 0x4000] 0x1000 0x400123 0x5000 7).1
      0x1000 0x400456 = 0x5456 := by
  have hout : Outside (fun _ => 0) 0x1000 AllPlaces [0x2000, 0x3000, 0x4000] := by
    refine ⟨by decide, fun a ha _ => ?_⟩
    simp only [List.mem_cons, List.not_mem_nil, or_false] at ha
    refine ⟨by unfold pageSize; omega, by omega, fun p _ _ hw => ?_⟩
    cases p with
    | nil =>
      have := Option.some.inj hw
      omega
    | cons i p =>
      rw [walk, entry_zero, not_present_zero] at hw
      cases hw
  have hmap : vmmMapPageBy (fun _ => 0) [0x2000, 0x3000, 0x4000] 0x1000 0x400123 0x5000 7 =
      ((vmmMapPageBy (fun _ => 0) [0x2000, 0x3000, 0x4000] 0x1000 0x400123 0x5000 7).1, true) :=
    Prod.ext rfl (by decide +kernel)
  have h := (page_table_laws emptyTree hout (by decide) (by decide) (by decide)).1 _ hmap 0x400456
  rw [if_pos (by decide)] at h
  rw [h.1]
  decide

end VoidOS.Mm
