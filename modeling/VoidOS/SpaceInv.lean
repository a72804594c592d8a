import VoidOS.AddressSpaces

namespace VoidOS.Mm

open ByteMem PageTree Ownership

/-- The frames of the pages that a process has recorded. -/
def Space.data (sp : Space) : Set ℕ := {f | ∃ e ∈ sp.umap, e.phys = f * pageSize}

/-- The frames of a process: its tables and its pages. -/
def Space.frames (ph : Phys) (sp : Space) : Set ℕ := tablesOf ph.ram sp.cr3 UserPlaces ∪ sp.data

def PageFlags (flags : ℕ) : Prop := flags < 2 ^ 64 ∧ addr flags = 0

/-- What holds of the memory of a process between two operations. A page that is present is
recorded with its frame; the record may hold more. -/
structure SpaceOk (ph : Phys) (sp : Space) : Prop where
  phys : ph.Ok
  tree : Tree ph sp.cr3 UserPlaces
  zero : 0 ∉ sp.frames ph
  nodup : (sp.umap.map Mapping.phys).Nodup
  frame : ∀ e ∈ sp.umap, ∃ f < ph.totalFrames, ph.used f = true ∧ e.phys = f * pageSize ∧
    f ∉ tablesOf ph.ram sp.cr3 UserPlaces
  virt : ∀ e ∈ sp.umap, e.virt < userLimit
  length : sp.umap.length ≤ maxUmap
  perm : PageFlags sp.brkPerm
  recorded : ∀ v < userLimit, present (leaf ph.ram sp.cr3 v) = true →
    ∃ e ∈ sp.umap, e.virt / pageSize = v / pageSize ∧ e.phys = addr (leaf ph.ram sp.cr3 v)

/-- The upper half of a root is the same in both memories. -/
def SameUpper (m m' : Mem) (t : ℕ) : Prop :=
  ∀ i, 256 ≤ i → i < 512 → entry m' t i = entry m t i

/-- An operation on the memory of a process: it keeps the invariant and touches neither a frame
of anybody else nor the upper half. -/
structure Acts (ph : Phys) (sp : Space) (ph' : Phys) (sp' : Space) : Prop where
  ok : SpaceOk ph' sp'
  cr3 : sp'.cr3 = sp.cr3
  total : ph'.totalFrames = ph.totalFrames
  own : ph.Local (sp.frames ph) (sp'.frames ph') ph'
  upper : SameUpper ph.ram ph'.ram sp.cr3

section Basics

variable {ph ph' ph'' : Phys} {sp sp' sp'' : Space} {v w f x : ℕ} {e : Mapping} {m : Mem}

theorem userPlaces_indices (hv : v < userLimit) : UserPlaces (indices v) := by
  refine ⟨v, ?_, List.prefix_rfl⟩
  unfold pml4Idx
  unfold userLimit at hv
  omega

/-- Two addresses of the lower half with the same indices are on the same page. -/
theorem indices_user (hv : v < userLimit) (hw : w < userLimit) :
    indices v = indices w ↔ v / pageSize = w / pageSize := by
  rw [indices_eq_iff]
  unfold userLimit at *
  unfold pageSize
  omega

namespace SpaceOk

theorem data_subset (h : SpaceOk ph sp) : sp.data ⊆ ph.inUse := by
  rintro f ⟨e, he, hf⟩
  obtain ⟨g, -, hg, he', -⟩ := h.frame e he
  have hfg : f = g := by
    rw [hf] at he'
    exact Nat.eq_of_mul_eq_mul_right (by decide) he'
  rw [hfg]
  exact hg

theorem data_disjoint (h : SpaceOk ph sp) :
    Disjoint sp.data (tablesOf ph.ram sp.cr3 UserPlaces) := by
  rw [Set.disjoint_left]
  rintro f ⟨e, he, hf⟩
  obtain ⟨g, -, -, he', hg⟩ := h.frame e he
  rw [hf] at he'
  rwa [Nat.eq_of_mul_eq_mul_right (by decide) he']

theorem frames_subset (h : SpaceOk ph sp) : sp.frames ph ⊆ ph.inUse :=
  Set.union_subset h.tree.tables_subset h.data_subset

theorem cr3_mem (h : SpaceOk ph sp) : ∃ f ∈ sp.frames ph, sp.cr3 = f * pageSize := by
  obtain ⟨f, -, -, hf⟩ := h.tree.frame [] _ ⟨0, by decide, List.nil_prefix⟩ (Nat.zero_le 3) rfl
  exact ⟨f, Or.inl ⟨[], ⟨0, by decide, List.nil_prefix⟩, Nat.zero_le 3, hf ▸ rfl⟩, hf⟩

end SpaceOk

theorem Tree.upper {t : ℕ} (T : Tree ph t UserPlaces)
    (hsame : SameOn pageSize (tablesOf ph.ram t UserPlaces) ph.ram m) : SameUpper ph.ram m t := by
  let ph₁ : Phys := { ph with ram := m }
  have hsame₁ : SameOn pageSize (tablesOf ph.ram t UserPlaces) ph.ram ph₁.ram := hsame
  exact fun i _ hi => T.entry_same hsame₁ ⟨0, by decide, List.nil_prefix⟩ hi (Nat.zero_le 3) rfl

theorem Edit.upper {t : ℕ} {L : ℕ → ℕ} (e : Edit t UserPlaces ph ph' L) :
    SameUpper ph.ram ph'.ram t := by
  intro i hi hi'
  apply e.keep [] i t ⟨0, by decide, List.nil_prefix⟩ hi' (Nat.zero_le 3) rfl
  refine Or.inr fun h => ?_
  have := userPlaces_head h
  omega

namespace Acts

theorem refl (h : SpaceOk ph sp) : Acts ph sp ph sp :=
  ⟨h, rfl, rfl, .refl h.frames_subset, fun _ _ _ => rfl⟩

theorem trans (h : Acts ph sp ph' sp') (h' : Acts ph' sp' ph'' sp'') : Acts ph sp ph'' sp'' where
  ok := h'.ok
  cr3 := h'.cr3.trans h.cr3
  total := h'.total.trans h.total
  own := h.own.trans h'.own
  upper := fun i hi hi' => (h.cr3 ▸ h'.upper i hi hi').trans (h.upper i hi hi')

end Acts

theorem zero_notMem {F F' : Set ℕ} (hok : ph.Ok) (h0 : 0 ∉ F) (h : ph.Local F F' ph') :
    0 ∉ F' ∧ ph'.used 0 = true := by
  have hsub : ({0} : Set ℕ) ⊆ ph.inUse := Set.singleton_subset_iff.mpr hok.zero
  have hdis : Disjoint ({0} : Set ℕ) F := Set.disjoint_singleton_left.mpr h0
  exact ⟨Set.disjoint_singleton_left.mp (h.frame_disjoint hsub hdis),
    h.frame_subset hsub hdis (Set.mem_singleton 0)⟩

theorem SpaceOk.congr (h : SpaceOk ph sp) (hok : ph'.Ok)
    (htotal : ph'.totalFrames = ph.totalFrames) (hused : sp.frames ph ⊆ ph'.inUse)
    (hsame : SameOn pageSize (sp.frames ph) ph.ram ph'.ram) :
    SpaceOk ph' sp ∧ sp.frames ph' = sp.frames ph := by
  have hsub : tablesOf ph.ram sp.cr3 UserPlaces ⊆ sp.frames ph := Set.subset_union_left
  have htsame := hsame.mono hsub
  have htables := h.tree.tables_same htsame
  have hframes : sp.frames ph' = sp.frames ph := by
    unfold Space.frames
    rw [htables]
  refine ⟨⟨hok, h.tree.congr htsame htotal (hsub.trans hused), ?_, h.nodup, ?_, h.virt, h.length,
    h.perm, ?_⟩, hframes⟩
  · rw [hframes]
    exact h.zero
  · intro e he
    obtain ⟨f, hf, -, hp, hnot⟩ := h.frame e he
    exact ⟨f, htotal ▸ hf, hused (Or.inr ⟨e, he, hp⟩), hp, htables ▸ hnot⟩
  · intro v hv
    rw [h.tree.leaf_same htsame (userPlaces_indices hv)]
    exact h.recorded v hv

/-- Nothing has happened to the frames of a process. -/
structure Untouched (ph ph' : Phys) (sp : Space) : Prop where
  frames : sp.frames ph' = sp.frames ph
  same : SameOn pageSize (sp.frames ph) ph.ram ph'.ram

namespace Untouched

theorem of_ram (h : ph'.ram = ph.ram) : Untouched ph ph' sp := by
  refine ⟨?_, fun _ _ => congrFun h _⟩
  unfold Space.frames
  rw [h]

theorem trans (h : Untouched ph ph' sp) (h' : Untouched ph' ph'' sp) : Untouched ph ph'' sp :=
  ⟨h'.frames.trans h.frames, h.same.trans (h.frames ▸ h'.same)⟩

theorem of_local {F F' : Set ℕ} (h : SpaceOk ph sp) (hl : ph.Local F F' ph')
    (hd : Disjoint (sp.frames ph) F) : Untouched ph ph' sp := by
  have hsame := hl.frame_same h.frames_subset hd
  refine ⟨?_, hsame⟩
  unfold Space.frames
  rw [h.tree.tables_same (hsame.mono Set.subset_union_left)]

end Untouched

theorem SpaceOk.of_eq (h : SpaceOk ph sp) (hcr3 : sp'.cr3 = sp.cr3) (humap : sp'.umap = sp.umap)
    (hperm : PageFlags sp'.brkPerm) : SpaceOk ph sp' ∧ sp'.frames ph = sp.frames ph := by
  obtain ⟨cr3, umap, a, b, c⟩ := sp
  obtain ⟨cr3', umap', a', b', c'⟩ := sp'
  cases hcr3
  cases humap
  exact ⟨⟨h.phys, h.tree, h.zero, h.nodup, h.frame, h.virt, h.length, hperm, h.recorded⟩, rfl⟩

theorem Acts.of_eq (h : Acts ph sp ph' sp') (hcr3 : sp''.cr3 = sp'.cr3)
    (humap : sp''.umap = sp'.umap) (hperm : PageFlags sp''.brkPerm) : Acts ph sp ph' sp'' := by
  obtain ⟨hok, hframes⟩ := h.ok.of_eq hcr3 humap hperm
  exact ⟨hok, hcr3.trans h.cr3, h.total, hframes ▸ h.own, h.upper⟩

theorem SpaceOk.acts (h : SpaceOk ph sp) (hcr3 : sp'.cr3 = sp.cr3)
    (htotal : ph'.totalFrames = ph.totalFrames) (htree : Tree ph' sp'.cr3 UserPlaces)
    (hown : ph.Local (sp.frames ph) (sp'.frames ph') ph')
    (hnodup : (sp'.umap.map Mapping.phys).Nodup)
    (hframe : ∀ e ∈ sp'.umap, ∃ f < ph.totalFrames, e.phys = f * pageSize ∧
      f ∉ tablesOf ph'.ram sp'.cr3 UserPlaces)
    (hvirt : ∀ e ∈ sp'.umap, e.virt < userLimit) (hlength : sp'.umap.length ≤ maxUmap)
    (hperm : PageFlags sp'.brkPerm) (hupper : SameUpper ph.ram ph'.ram sp.cr3)
    (hrec : ∀ v < userLimit, present (leaf ph'.ram sp'.cr3 v) = true →
      ∃ e ∈ sp'.umap, e.virt / pageSize = v / pageSize ∧ e.phys = addr (leaf ph'.ram sp'.cr3 v)) :
    Acts ph sp ph' sp' := by
  obtain ⟨hzero, hused⟩ := zero_notMem h.phys h.zero hown
  refine ⟨⟨⟨hused, htotal ▸ h.phys.bound⟩, htree, hzero, hnodup, ?_, hvirt, hlength, hperm, hrec⟩, hcr3,
    htotal, hown, hupper⟩
  intro e he
  obtain ⟨f, hf, hp, hnot⟩ := hframe e he
  exact ⟨f, htotal ▸ hf, hown.owned_subset (Or.inr ⟨e, he, hp⟩), hp, hnot⟩

theorem SpaceOk.write (h : SpaceOk ph sp) (hm : ∀ x, x / pageSize ∉ sp.data → m x = ph.ram x) :
    Acts ph sp { ph with ram := m } sp := by
  let ph' : Phys := { ph with ram := m }
  have htsame : SameOn pageSize (tablesOf ph.ram sp.cr3 UserPlaces) ph.ram ph'.ram :=
    fun x hx => hm x fun hd => Set.disjoint_left.mp h.data_disjoint hd hx
  have htables : tablesOf ph'.ram sp.cr3 UserPlaces = tablesOf ph.ram sp.cr3 UserPlaces :=
    h.tree.tables_same htsame
  have hframes : sp.frames ph' = sp.frames ph := by
    unfold Space.frames
    rw [htables]
  have hleaf : ∀ v < userLimit, leaf ph'.ram sp.cr3 v = leaf ph.ram sp.cr3 v :=
    fun v hv => h.tree.leaf_same htsame (userPlaces_indices hv)
  have hown : ph.Local (sp.frames ph) (sp.frames ph') ph' := by
    rw [hframes]
    apply Ownership.Local.of_same h.frames_subset
    rintro x ⟨-, hx⟩
    exact hm x fun hd => hx (Or.inr hd)
  have htree : Tree ph' sp.cr3 UserPlaces := h.tree.congr htsame rfl h.tree.tables_subset
  have htotal : ph'.totalFrames = ph.totalFrames := rfl
  show Acts ph sp ph' sp
  apply h.acts rfl htotal htree hown h.nodup _ h.virt h.length h.perm (h.tree.upper htsame)
  · intro v hv
    rw [hleaf v hv]
    exact h.recorded v hv
  · intro e he
    obtain ⟨f, hf, -, hp, hnot⟩ := h.frame e he
    exact ⟨f, hf, hp, htables ▸ hnot⟩

end Basics

section Pages

variable {ph ph' ph₁ : Phys} {sp sp' : Space} {v f virt flags n : ℕ} {e : Mapping} {m : Mem}
  {b : Bool} {L : ℕ → ℕ} {es : List Mapping}

theorem Phys.inUse_free (hf : f < ph.totalFrames) :
    (pmmFreeFrame ph (f * pageSize)).inUse = ph.inUse \ {f} := by
  unfold pmmFreeFrame
  dsimp only
  rw [Nat.mul_div_cancel _ (show 0 < pageSize by decide), if_neg (by omega)]
  ext n
  rw [Phys.mem_inUse, Set.mem_sdiff, Set.mem_singleton_iff, Phys.mem_inUse]
  show Function.update ph.used f false n = true ↔ _
  rw [Function.update_apply]
  split
  · rename_i h
    simp [h]
  · rename_i h
    simp [h]

theorem pmmFreeFrame_ram (ph : Phys) (a : ℕ) : (pmmFreeFrame ph a).ram = ph.ram := by
  unfold pmmFreeFrame
  dsimp only
  split <;> rfl

theorem pmmFreeFrame_total (ph : Phys) (a : ℕ) :
    (pmmFreeFrame ph a).totalFrames = ph.totalFrames := by
  unfold pmmFreeFrame
  dsimp only
  split <;> rfl

theorem Space.data_concat (humap : sp'.umap = sp.umap ++ [⟨virt, f * pageSize⟩]) :
    sp'.data = insert f sp.data := by
  ext g
  unfold Space.data
  rw [humap]
  constructor
  · rintro ⟨e, he, hg⟩
    rcases List.mem_append.mp he with he | he
    · exact Or.inr ⟨e, he, hg⟩
    · rw [List.mem_singleton.mp he] at hg
      exact Or.inl (Nat.eq_of_mul_eq_mul_right (show 0 < pageSize by decide) hg.symm)
  · rintro (rfl | ⟨e, he, hg⟩)
    · exact ⟨_, List.mem_append_right _ (List.mem_singleton_self _), rfl⟩
    · exact ⟨e, List.mem_append_left _ he, hg⟩

section Fresh

variable (h : SpaceOk ph sp) (hf : f ∈ ph.free) (hm : SameOn pageSize ph.inUse ph.ram m)

include h hf hm

private theorem fresh : Tree { ph.take f with ram := m } sp.cr3 UserPlaces ∧
    tablesOf m sp.cr3 UserPlaces = tablesOf ph.ram sp.cr3 UserPlaces ∧
    (∀ v < userLimit, leaf m sp.cr3 v = leaf ph.ram sp.cr3 v) ∧
    f ∉ tablesOf ph.ram sp.cr3 UserPlaces ∧ f ∉ sp.data ∧
    ph.Local (sp.frames ph) (insert f (sp.frames ph)) { ph.take f with ram := m } := by
  have hfree := Phys.notMem_inUse hf
  let ph₁ : Phys := { ph.take f with ram := m }
  have hsame : SameOn pageSize (tablesOf ph.ram sp.cr3 UserPlaces) ph.ram ph₁.ram :=
    hm.mono h.tree.tables_subset
  have hused : ph₁.inUse = insert f ph.inUse := Phys.inUse_take
  refine ⟨?_, h.tree.tables_same hsame, ?_, fun hc => hfree (h.tree.tables_subset hc),
    fun hc => hfree (h.data_subset hc), ?_⟩
  · apply h.tree.congr hsame rfl
    rw [hused]
    exact h.tree.tables_subset.trans (Set.subset_insert _ _)
  · intro v hv
    exact h.tree.leaf_same hsame (userPlaces_indices hv)
  · show Ownership.Local pageSize _ _ _ ph₁.inUse _ _
    rw [hused]
    exact .take h.frames_subset hfree (hm.mono Set.sdiff_subset)

private theorem fresh_edit (e : Edit sp.cr3 UserPlaces { ph.take f with ram := m } ph' L) :
    ph.Local (sp.frames ph) (tablesOf ph'.ram sp.cr3 UserPlaces ∪ insert f sp.data) ph' ∧
      (∀ g ∈ insert f sp.data, g ∉ tablesOf ph'.ram sp.cr3 UserPlaces) ∧
      SameOn pageSize (insert f sp.data) m ph'.ram := by
  obtain ⟨-, htables, -, hft, hfd, hown⟩ := fresh h hf hm
  let ph₁ : Phys := { ph.take f with ram := m }
  have hG : insert f sp.data ⊆ ph₁.inUse := by
    rw [show ph₁.inUse = insert f ph.inUse from Phys.inUse_take]
    exact Set.insert_subset_insert h.data_subset
  have hdisj : Disjoint (insert f sp.data) (tablesOf ph₁.ram sp.cr3 UserPlaces) := by
    rw [show tablesOf ph₁.ram sp.cr3 UserPlaces = _ from htables, Set.disjoint_insert_left]
    exact ⟨hft, h.data_disjoint⟩
  have hframe := e.own.frame hG hdisj
  rw [show tablesOf ph₁.ram sp.cr3 UserPlaces = _ from htables, Set.union_insert] at hframe
  exact ⟨hown.trans hframe, fun g hg => Set.disjoint_left.mp (e.own.frame_disjoint hG hdisj) hg,
    e.own.frame_same hG hdisj⟩

omit hf in
private theorem fresh_upper (e : Edit sp.cr3 UserPlaces { ph.take f with ram := m } ph' L) :
    SameUpper ph.ram ph'.ram sp.cr3 :=
  fun i hi hi' => (e.upper i hi hi').trans
    (h.tree.upper (hm.mono h.tree.tables_subset) i hi hi')

private theorem fresh_fail (e : Edit sp.cr3 UserPlaces { ph.take f with ram := m } ph' L)
    (hL : ∀ v < userLimit, L v = leaf ph.ram sp.cr3 v) :
    Acts ph sp (pmmFreeFrame ph' (f * pageSize)) sp := by
  obtain ⟨hown, hapart, -⟩ := fresh_edit h hf hm e
  have hfd : f ∉ sp.data := (fresh h hf hm).2.2.2.2.1
  have hft := hapart f (Set.mem_insert f _)
  have hlt : f < ph'.totalFrames := e.total ▸ (Phys.mem_free.mp hf).1
  let ph₂ := pmmFreeFrame ph' (f * pageSize)
  have hram : ph₂.ram = ph'.ram := pmmFreeFrame_ram ph' _
  have htotal : ph₂.totalFrames = ph'.totalFrames := pmmFreeFrame_total ph' _
  have hused : ph₂.inUse = ph'.inUse \ {f} := Phys.inUse_free hlt
  have hset : (tablesOf ph'.ram sp.cr3 UserPlaces ∪ insert f sp.data) \ {f} =
      tablesOf ph'.ram sp.cr3 UserPlaces ∪ sp.data := by
    rw [Set.union_insert]
    apply Set.insert_sdiff_self_of_notMem
    exact fun hc => hc.elim hft hfd
  have hown₂ : ph.Local (sp.frames ph) (sp.frames ph₂) ph₂ := by
    apply hown.trans
    unfold Space.frames
    rw [hram, hused, ← hset]
    exact .give hown.owned_subset (Or.inr (Set.mem_insert f _))
  have htree : Tree ph₂ sp.cr3 UserPlaces := by
    apply e.tree.congr _ htotal
    · rw [hused]
      exact fun g hg => ⟨e.tree.tables_subset hg, fun hc => hft (hc ▸ hg)⟩
    · rw [hram]
      exact fun _ _ => rfl
  apply h.acts rfl (htotal.trans e.total) htree hown₂ h.nodup _ h.virt h.length h.perm
    (hram ▸ fresh_upper h hm e)
  · intro v hv
    rw [show leaf ph₂.ram sp.cr3 v = leaf ph'.ram sp.cr3 v by rw [hram],
      e.leaf v (userPlaces_indices hv), hL v hv]
    exact h.recorded v hv
  · intro e' he'
    obtain ⟨g, hg, -, hp, -⟩ := h.frame e' he'
    refine ⟨g, hg, hp, ?_⟩
    rw [hram]
    exact hapart g (Or.inr ⟨e', he', hp⟩)

private theorem fresh_map
    (e : Edit sp.cr3 UserPlaces { ph.take f with ram := m } ph' L) {w : ℕ}
    (hw : addr w = f * pageSize) (hvirt : virt < userLimit) (hlen : sp.umap.length < maxUmap)
    (hL : ∀ v < userLimit, L v = if v / pageSize = virt / pageSize then w
      else leaf ph.ram sp.cr3 v)
    (hcr3 : sp'.cr3 = sp.cr3) (humap : sp'.umap = sp.umap ++ [⟨virt, f * pageSize⟩])
    (hperm : sp'.brkPerm = sp.brkPerm) : Acts ph sp ph' sp' := by
  obtain ⟨hown, hapart, -⟩ := fresh_edit h hf hm e
  have hfd : f ∉ sp.data := (fresh h hf hm).2.2.2.2.1
  rw [← Space.data_concat humap, ← hcr3] at hown
  apply h.acts hcr3 e.total (hcr3 ▸ e.tree) hown
  case hperm =>
    rw [hperm]
    exact h.perm
  case hupper => exact fresh_upper h hm e
  all_goals rw [humap]
  · rw [List.map_append, List.nodup_append]
    refine ⟨h.nodup, List.nodup_singleton _, ?_⟩
    rintro a ha b hb rfl
    obtain ⟨e', he', rfl⟩ := List.mem_map.mp ha
    exact hfd ⟨e', he', List.mem_singleton.mp hb⟩
  · intro e' he'
    rw [hcr3]
    rcases List.mem_append.mp he' with he' | he'
    · obtain ⟨g, hg, -, hp, -⟩ := h.frame e' he'
      exact ⟨g, hg, hp, hapart g (Or.inr ⟨e', he', hp⟩)⟩
    · rw [List.mem_singleton.mp he']
      exact ⟨f, (Phys.mem_free.mp hf).1, rfl, hapart f (Set.mem_insert f _)⟩
  · intro e' he'
    rcases List.mem_append.mp he' with he' | he'
    · exact h.virt e' he'
    · rw [List.mem_singleton.mp he']
      exact hvirt
  · rw [List.length_append, List.length_singleton]
    omega
  · intro v hv hpres
    rw [hcr3, e.leaf v (userPlaces_indices hv), hL v hv] at hpres ⊢
    split at hpres
    · rename_i hpage
      rw [if_pos hpage, hw]
      exact ⟨_, List.mem_append_right _ (List.mem_singleton_self _), hpage.symm, rfl⟩
    · rename_i hpage
      rw [if_neg hpage]
      obtain ⟨e', he', h₁, h₂⟩ := h.recorded v hv hpres
      exact ⟨e', List.mem_append_left _ he', h₁, h₂⟩

/-- `process_map_user` of a new frame. Without success the caller gives the frame back. -/
theorem processMapUser_spec (hflags : flags < 2 ^ 64) (hfl : addr flags = 0)
    (hr : processMapUser { ph.take f with ram := m } sp virt (f * pageSize) flags =
      (ph', sp', b)) :
    (∀ v < userLimit, leaf ph'.ram sp.cr3 v =
      if b = true ∧ v / pageSize = virt / pageSize
      then f * pageSize ||| (flags ||| vmmPresent ||| vmmUser) else leaf ph.ram sp.cr3 v) ∧
    SameOn pageSize (insert f sp.data) m ph'.ram ∧
    ((b = false ∧ sp' = sp ∧ Acts ph sp (pmmFreeFrame ph' (f * pageSize)) sp) ∨
    (b = true ∧ sp' = { sp with umap := sp.umap ++ [⟨virt, f * pageSize⟩] } ∧
      virt < userLimit ∧ sp.umap.length < maxUmap ∧ Acts ph sp ph' sp')) := by
  obtain ⟨htree, -, hleaf, -⟩ := fresh h hf hm
  have hok : ({ ph.take f with ram := m } : Phys).Ok := ⟨(h.phys.take f).zero, h.phys.bound⟩
  -- what is left to show when the page has not been mapped
  have hfail : ∀ ph₂, Edit sp.cr3 UserPlaces { ph.take f with ram := m } ph₂ (leaf m sp.cr3) →
      (∀ v < userLimit, leaf ph₂.ram sp.cr3 v = leaf ph.ram sp.cr3 v) ∧
      SameOn pageSize (insert f sp.data) m ph₂.ram ∧
      Acts ph sp (pmmFreeFrame ph₂ (f * pageSize)) sp := by
    intro ph₂ e
    refine ⟨fun v hv => ?_, (fresh_edit h hf hm e).2.2, fresh_fail h hf hm e hleaf⟩
    rw [e.leaf v (userPlaces_indices hv), hleaf v hv]
  unfold processMapUser at hr
  split at hr
  · cases hr
    obtain ⟨h₁, h₂, h₃⟩ := hfail _ htree.refl
    exact ⟨by simpa using h₁, h₂, Or.inl ⟨rfl, rfl, h₃⟩⟩
  rename_i hvirt
  rw [not_le] at hvirt
  split at hr
  · cases hr
    obtain ⟨h₁, h₂, h₃⟩ := hfail _ htree.refl
    exact ⟨by simpa using h₁, h₂, Or.inl ⟨rfl, rfl, h₃⟩⟩
  rename_i hlen
  rw [not_le] at hlen
  have hlt := h.phys.frame_lt (Phys.mem_free.mp hf).1
  have hmod : f * pageSize % 4096 = 0 := Nat.mul_mod_left f 4096
  have hlt' : f * pageSize < 2 ^ 52 := by
    unfold pageSize at *
    omega
  have haddr : addr (f * pageSize) = f * pageSize := addr_of_aligned hmod hlt'
  have hword : flags ||| vmmPresent ||| vmmUser < 2 ^ 64 :=
    Nat.or_lt_two_pow (Nat.or_lt_two_pow hflags (by decide)) (by decide)
  have hzero : addr (flags ||| vmmPresent ||| vmmUser) = 0 := by
    unfold addr at hfl ⊢
    rw [Nat.and_or_distrib_right, Nat.and_or_distrib_right, hfl]
    decide
  split at hr
  · rename_i ph₂ hmap
    cases hr
    rcases vmmMapPage_edit hok htree (userPlaces_indices hvirt) (entry_word_lt hword) hmap with
      ⟨-, e⟩ | ⟨hc, -⟩
    · obtain ⟨h₁, h₂, h₃⟩ := hfail _ e
      exact ⟨by simpa using h₁, h₂, Or.inl ⟨rfl, rfl, h₃⟩⟩
    · cases hc
  · rename_i ph₂ hmap
    cases hr
    rcases vmmMapPage_edit hok htree (userPlaces_indices hvirt) (entry_word_lt hword) hmap with
      ⟨hc, -⟩ | ⟨-, e⟩
    · cases hc
    · rw [haddr] at e
      have hL : ∀ v < userLimit, (if indices v = indices virt then
          f * pageSize ||| (flags ||| vmmPresent ||| vmmUser) else leaf m sp.cr3 v) =
          if v / pageSize = virt / pageSize then
            f * pageSize ||| (flags ||| vmmPresent ||| vmmUser) else leaf ph.ram sp.cr3 v := by
        intro v hv
        simp only [indices_user hv hvirt, hleaf v hv]
      refine ⟨fun v hv => ?_, (fresh_edit h hf hm e).2.2, Or.inr ⟨rfl, rfl, hvirt, hlen,
        fresh_map h hf hm e (addr_or hmod hlt' hzero) hvirt hlen hL rfl rfl rfl⟩⟩
      rw [e.leaf v (userPlaces_indices hv)]
      simpa using hL v hv

end Fresh

/-- `process_alloc_user_page` maps a page of zeros, or changes tables at most. -/
theorem processAllocUserPage_spec (h : SpaceOk ph sp) (hflags : PageFlags flags)
    (hr : processAllocUserPage ph sp virt flags = (ph', sp', b)) :
    Acts ph sp ph' sp' ∧ SameOn pageSize sp.data ph.ram ph'.ram ∧
    ((b = false ∧ sp' = sp ∧ ∀ v < userLimit, leaf ph'.ram sp.cr3 v = leaf ph.ram sp.cr3 v) ∨
    (b = true ∧ virt < userLimit ∧ sp.umap.length < maxUmap ∧ ∃ f ∈ ph.free,
      sp' = { sp with umap := sp.umap ++ [⟨virt, f * pageSize⟩] } ∧
      (∀ v < userLimit, leaf ph'.ram sp.cr3 v = if v / pageSize = virt / pageSize
        then f * pageSize ||| (flags ||| vmmPresent ||| vmmUser) else leaf ph.ram sp.cr3 v) ∧
      ∀ x, x / pageSize = f → ph'.ram x = 0)) := by
  unfold processAllocUserPage at hr
  rcases pmmAllocFrame_cases ph with ⟨-, ha⟩ | ⟨f, hf, ha⟩
  · rw [ha] at hr
    cases hr
    exact ⟨.refl h, fun _ _ => rfl, Or.inl ⟨rfl, rfl, fun _ _ => rfl⟩⟩
  rw [ha] at hr
  simp only [h.phys.ne_zero hf, if_false] at hr
  have hfree := Phys.notMem_inUse hf
  have hzero : ∀ x, x / pageSize ≠ f → zeros ph.ram (f * pageSize) pageSize x = ph.ram x := by
    intro x hx
    apply zeros_apply
    by_contra hc
    exact hx (div_page (by omega) (by omega))
  have hm : SameOn pageSize ph.inUse ph.ram (zeros ph.ram (f * pageSize) pageSize) :=
    fun x hx => hzero x fun hc => hfree (hc ▸ hx)
  have hdata : SameOn pageSize sp.data ph.ram (zeros ph.ram (f * pageSize) pageSize) :=
    hm.mono h.data_subset
  split at hr
  · rename_i ph₂ sp₂ hmap
    cases hr
    obtain ⟨hleaf, hsame, hcase⟩ := processMapUser_spec h hf hm hflags.1 hflags.2 hmap
    rcases hcase with ⟨hc, -⟩ | ⟨-, hsp, hvirt, hlen, hacts⟩
    · cases hc
    · refine ⟨hacts, hdata.trans (hsame.mono (Set.subset_insert _ _)),
        Or.inr ⟨rfl, hvirt, hlen, f, hf, hsp, by simpa using hleaf, ?_⟩⟩
      intro x hx
      rw [hsame x (hx ▸ Set.mem_insert _ _), zeros, if_pos]
      rw [← hx]
      unfold pageSize
      omega
  · rename_i ph₂ sp₂ hmap
    cases hr
    obtain ⟨hleaf, hsame, hcase⟩ := processMapUser_spec h hf hm hflags.1 hflags.2 hmap
    rcases hcase with ⟨-, rfl, hacts⟩ | ⟨hc, -⟩
    · refine ⟨hacts, ?_, Or.inl ⟨rfl, rfl, ?_⟩⟩
      · rw [pmmFreeFrame_ram]
        exact hdata.trans (hsame.mono (Set.subset_insert _ _))
      · rw [pmmFreeFrame_ram]
        simpa using hleaf
    · cases hc

/-- The last-level entries after a page has been unmapped. -/
def unmapped (L : ℕ → ℕ) (virt v : ℕ) : ℕ :=
  if v / pageSize = virt / pageSize ∧ present (L virt) = true then 0 else L v

theorem vmmUnmapPage_acts (h : SpaceOk ph sp) (hv : virt < userLimit) :
    Acts ph sp (vmmUnmapPage ph sp.cr3 virt).1 sp ∧
      (vmmUnmapPage ph sp.cr3 virt).1.used = ph.used ∧
      (∀ v < userLimit, leaf (vmmUnmapPage ph sp.cr3 virt).1.ram sp.cr3 v =
        unmapped (leaf ph.ram sp.cr3) virt v) ∧
      tablesOf (vmmUnmapPage ph sp.cr3 virt).1.ram sp.cr3 UserPlaces =
        tablesOf ph.ram sp.cr3 UserPlaces ∧
      SameOn pageSize sp.data ph.ram (vmmUnmapPage ph sp.cr3 virt).1.ram := by
  obtain ⟨e, hused, htables, -⟩ := vmmUnmapPage_edit h.tree (userPlaces_indices hv)
    (Prod.mk.eta (p := vmmUnmapPage ph sp.cr3 virt)).symm
  have hleaf : ∀ v < userLimit, leaf (vmmUnmapPage ph sp.cr3 virt).1.ram sp.cr3 v =
      unmapped (leaf ph.ram sp.cr3) virt v := by
    intro v hv'
    rw [e.leaf v (userPlaces_indices hv')]
    simp only [unmapped, indices_user hv' hv]
  have hdata := e.own.frame_same h.data_subset h.data_disjoint
  have hown := e.own.frame h.data_subset h.data_disjoint
  refine ⟨?_, hused, hleaf, htables, hdata⟩
  apply h.acts rfl e.total e.tree hown h.nodup _ h.virt h.length h.perm e.upper
  · intro v hv' hpres
    rw [hleaf v hv', unmapped] at hpres ⊢
    split at hpres
    · rw [not_present_zero] at hpres
      cases hpres
    · rename_i hne
      rw [if_neg hne]
      exact h.recorded v hv' hpres
  · intro e' he'
    obtain ⟨g, hg, -, hp, hnot⟩ := h.frame e' he'
    exact ⟨g, hg, hp, htables ▸ hnot⟩

theorem releasePage_acts (h : SpaceOk ph sp) (hperm : sp.umap.Perm (e :: es))
    (hcr3 : sp'.cr3 = sp.cr3) (humap : sp'.umap.Perm es) (hbrk : sp'.brkPerm = sp.brkPerm) :
    Acts ph sp (releasePage ph sp.cr3 e) sp' ∧
      (∀ v < userLimit, leaf (releasePage ph sp.cr3 e).ram sp.cr3 v =
        unmapped (leaf ph.ram sp.cr3) e.virt v) ∧
      SameOn pageSize sp.data ph.ram (releasePage ph sp.cr3 e).ram := by
  have he : e ∈ sp.umap := hperm.mem_iff.mpr (List.mem_cons_self ..)
  have hsub : ∀ e' ∈ sp'.umap, e' ∈ sp.umap := by
    intro e' he'
    exact hperm.mem_iff.mpr (List.mem_cons_of_mem e (humap.mem_iff.mp he'))
  obtain ⟨hacts, -, hleaf, htables, hdata⟩ := vmmUnmapPage_acts h (h.virt e he)
  obtain ⟨f, hf, hfu, hp, hft⟩ := h.frame e he
  unfold releasePage
  generalize (vmmUnmapPage ph sp.cr3 e.virt).1 = ph₁ at *
  rw [pmmFreeFrame_ram]
  refine ⟨?_, hleaf, hdata⟩
  let ph₂ := pmmFreeFrame ph₁ e.phys
  have hram : ph₂.ram = ph₁.ram := pmmFreeFrame_ram _ _
  have htotal : ph₂.totalFrames = ph₁.totalFrames := pmmFreeFrame_total _ _
  have hlt : f < ph₁.totalFrames := hacts.total ▸ hf
  have hused : ph₂.inUse = ph₁.inUse \ {f} := by
    show (pmmFreeFrame ph₁ e.phys).inUse = _
    rw [hp]
    exact Phys.inUse_free hlt
  have hnd : (e :: es).map Mapping.phys |>.Nodup := (hperm.map _).nodup_iff.mp h.nodup
  rw [List.map_cons, List.nodup_cons] at hnd
  -- no other entry records the frame
  have hdata' : sp'.data = sp.data \ {f} := by
    ext g
    constructor
    · rintro ⟨e', he', hg⟩
      refine ⟨⟨e', hsub e' he', hg⟩, fun hc => hnd.1 ?_⟩
      rw [hp, ← Set.mem_singleton_iff.mp hc, ← hg]
      exact List.mem_map_of_mem (humap.mem_iff.mp he')
    · rintro ⟨⟨e', he', hg⟩, hne⟩
      rcases List.mem_cons.mp (hperm.mem_iff.mp he') with rfl | he'
      · rw [hp] at hg
        exact absurd (Nat.eq_of_mul_eq_mul_right (show 0 < pageSize by decide) hg.symm) hne
      · exact ⟨e', humap.mem_iff.mpr he', hg⟩
  have hframes : sp'.frames ph₂ = sp.frames ph₁ \ {f} := by
    unfold Space.frames
    rw [hram, hcr3, hdata', htables, Set.union_sdiff_distrib,
      Set.sdiff_singleton_eq_self hft]
  apply hacts.trans
  show Acts ph₁ sp ph₂ sp'
  apply hacts.ok.acts hcr3 htotal
  · rw [hcr3]
    apply hacts.ok.tree.congr _ htotal
    · rw [hused]
      exact fun g hg => ⟨hacts.ok.tree.tables_subset hg, fun hc => hft (htables ▸ hc ▸ hg)⟩
    · rw [hram]
      exact fun _ _ => rfl
  · show Ownership.Local pageSize (sp.frames ph₁) (sp'.frames ph₂) ph₁.inUse ph₂.inUse ph₁.ram ph₂.ram
    rw [hframes, hused, hram]
    exact .give hacts.ok.frames_subset (Or.inr ⟨e, he, hp⟩)
  · exact ((humap.map _).nodup_iff).mpr hnd.2
  · intro e' he'
    obtain ⟨g, hg, -, hp', hnot⟩ := hacts.ok.frame e' (hsub e' he')
    exact ⟨g, hg, hp', hram ▸ hcr3 ▸ hnot⟩
  · exact fun e' he' => h.virt e' (hsub e' he')
  · rw [humap.length_eq]
    have := hperm.length_eq
    rw [List.length_cons] at this
    have := h.length
    omega
  · rw [hbrk]
    exact h.perm
  · rw [hram]
    exact fun _ _ _ => rfl
  · intro v hv hpres
    rw [hram, hcr3] at hpres ⊢
    obtain ⟨e', he', h₁, h₂⟩ := hacts.ok.recorded v hv hpres
    refine ⟨e', ?_, h₁, h₂⟩
    rw [hleaf v hv, unmapped] at hpres
    split at hpres
    · rw [not_present_zero] at hpres
      cases hpres
    rename_i hne
    rcases List.mem_cons.mp (hperm.mem_iff.mp he') with rfl | hes
    · -- the page of the entry was present, as `v` is on it, and is gone
      apply absurd _ hne
      refine ⟨h₁.symm, ?_⟩
      rwa [leaf_congr ((indices_user (h.virt e' he) hv).mpr h₁)]
    · exact humap.mem_iff.mpr hes

end Pages

/-- The process that has recorded the two pages, with a heap of one page. -/
def twoPageSpace (brk : ℕ) : Space :=
  ⟨0x1000, [⟨0x5FE000, 0x5000⟩, ⟨0x5FF000, 0x6000⟩], 0x400000, brk, vmmWrite⟩

theorem twoPageSpace_ok {lo n : ℕ} (brk : ℕ) (hlo : 7 ≤ lo) (hn : lo ≤ n)
    (hb : n * pageSize ≤ 2 ^ 52) :
    SpaceOk (twoPagePhys 0x5007 0x6007 lo n) (twoPageSpace brk) := by
  have hw₁ : (0x5007 : ℕ) < 2 ^ 64 := by decide
  have hw₂ : (0x6007 : ℕ) < 2 ^ 64 := by decide
  have htables : ∀ f ∈ tablesOf (twoPageMem 0x5007 0x6007) 0x1000 UserPlaces, 1 ≤ f ∧ f ≤ 4 := by
    rintro f ⟨p, hp, hlen, hw⟩
    unfold pageSize at hw
    rcases twoPageMem_walk hw₁ hw₂ userPlaces hp hlen hw with ⟨-, h⟩ | ⟨-, h⟩ | ⟨-, h⟩ | ⟨-, h⟩ <;>
      omega
  have hmem : ∀ e ∈ (twoPageSpace brk).umap, e = ⟨0x5FE000, 0x5000⟩ ∨ e = ⟨0x5FF000, 0x6000⟩ := by
    intro e he
    simpa [twoPageSpace] using he
  refine ⟨⟨decide_eq_true (by omega), hb⟩,
    twoPagePhys_tree hw₁ hw₂ userPlaces (by omega) hn, ?_, show [0x5000, 0x6000].Nodup by decide,
    ?_, ?_, show 2 ≤ maxUmap by decide, show PageFlags vmmWrite from ⟨by decide, by decide⟩, ?_⟩
  · rintro (h | ⟨e, he, h⟩)
    · exact absurd (htables 0 h).1 (by decide)
    · rcases hmem e he with rfl | rfl <;> exact absurd h (by decide)
  · intro e he
    rcases hmem e he with rfl | rfl
    · exact ⟨5, by show 5 < n; omega, decide_eq_true (by omega), rfl,
        fun h => absurd (htables 5 h).2 (by decide)⟩
    · exact ⟨6, by show 6 < n; omega, decide_eq_true (by omega), rfl,
        fun h => absurd (htables 6 h).2 (by decide)⟩
  · intro e he
    rcases hmem e he with rfl | rfl <;> decide
  · intro v hv hpres
    have hleaf : leaf (twoPageMem 0x5007 0x6007) 0x1000 v = _ := twoPageMem_leaf hw₁ hw₂
    have hpage : v / pageSize % 2 ^ 36 = v / pageSize := by
      apply Nat.mod_eq_of_lt
      unfold userLimit at hv
      unfold pageSize
      omega
    rw [hpage] at hleaf
    show ∃ e ∈ (twoPageSpace brk).umap, e.virt / pageSize = v / pageSize ∧
      e.phys = addr (leaf (twoPageMem 0x5007 0x6007) 0x1000 v)
    by_cases h₁ : v / pageSize = 0x5FE
    · rw [if_pos h₁] at hleaf
      rw [hleaf, h₁]
      exact ⟨_, List.mem_cons_self, by decide, by decide⟩
    rw [if_neg h₁] at hleaf
    by_cases h₂ : v / pageSize = 0x5FF
    · rw [if_pos h₂] at hleaf
      rw [hleaf, h₂]
      exact ⟨_, List.mem_cons_of_mem _ List.mem_cons_self, by decide, by decide⟩
    · rw [if_neg h₂] at hleaf
      rw [show leaf (twoPagePhys 0x5007 0x6007 lo n).ram (twoPageSpace brk).cr3 v = 0 from hleaf,
        not_present_zero] at hpres
      cases hpres

end VoidOS.Mm
