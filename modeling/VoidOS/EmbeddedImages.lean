import VoidOS.ProcessCases

namespace VoidOS.Proc

open ByteMem Mm Elf

/-- The names of the table of `elf_find_embedded`: "init", "elf_test", "ipc_test", "fork_test",
"calc", "srv_test", "lifecycle", "vfs_test", "mm_test", "malloc_test", "ld-void.so" and
"dynamic_test". -/
def embeddedNames : List (List UInt8) :=
  [[0x69, 0x6E, 0x69, 0x74],
    [0x65, 0x6C, 0x66, 0x5F, 0x74, 0x65, 0x73, 0x74],
    [0x69, 0x70, 0x63, 0x5F, 0x74, 0x65, 0x73, 0x74],
    [0x66, 0x6F, 0x72, 0x6B, 0x5F, 0x74, 0x65, 0x73, 0x74],
    [0x63, 0x61, 0x6C, 0x63],
    [0x73, 0x72, 0x76, 0x5F, 0x74, 0x65, 0x73, 0x74],
    [0x6C, 0x69, 0x66, 0x65, 0x63, 0x79, 0x63, 0x6C, 0x65],
    [0x76, 0x66, 0x73, 0x5F, 0x74, 0x65, 0x73, 0x74],
    [0x6D, 0x6D, 0x5F, 0x74, 0x65, 0x73, 0x74],
    [0x6D, 0x61, 0x6C, 0x6C, 0x6F, 0x63, 0x5F, 0x74, 0x65, 0x73, 0x74],
    [0x6C, 0x64, 0x2D, 0x76, 0x6F, 0x69, 0x64, 0x2E, 0x73, 0x6F],
    [0x64, 0x79, 0x6E, 0x61, 0x6D, 0x69, 0x63, 0x5F, 0x74, 0x65, 0x73, 0x74]]

/-- A name finds the image of its own entry, and no other name finds an image; so what `execve`
and the search for an interpreter run is the image named. -/
structure FindsNamed (blobs : Blobs) (name : List UInt8) : Prop where
  found : ∀ b ∈ blobs, b.1 = name → elfFindEmbedded blobs name = .ok b.2
  missing : (∀ b ∈ blobs, b.1 ≠ name) → elfFindEmbedded blobs name = .error .errNoexec
  execve : ∀ (k : Kernel) (upath i : ℕ) (ctx : ElfLoader) (path : List UInt8), k.blobs = blobs →
    copyFromUser k.phys.ram (k.procs i).space.cr3 upath 31 = some path → cString path = name →
    k.Executes upath i ctx → ∃ b ∈ blobs, b.1 = name ∧ elfValidate b.2 = .ok ctx
  interp : ∀ (nxOk : Bool) (path : List UInt8) (ph ph' : Phys) (sp sp' : Space) (entry : ℕ),
    basename (cString path) = name →
    elfLoadInterp nxOk blobs path ph sp = (ph', sp', .ok entry) →
    ∃ b ∈ blobs, b.1 = name ∧ ∃ ic, elfValidate b.2 = .ok ic ∧ entry = add64 ic.entry ic.base

section Compare

variable {a b : List UInt8}

theorem sameName_iff (ha : a ≠ []) (hb : b ≠ []) : sameName a b = true ↔ a <+: b ∨ b <+: a := by
  induction a generalizing b with
  | nil => exact absurd rfl ha
  | cons x a ih =>
    cases b with
    | nil => exact absurd rfl hb
    | cons y b =>
      rw [sameName, List.cons_prefix_cons, List.cons_prefix_cons]
      by_cases hxy : x = y
      · -- one of the two names ends here, or both go on
        by_cases ha' : a = []
        · simp [hxy, ha']
        by_cases hb' : b = []
        · simp [hxy, hb']
        simp [hxy, ha', hb', ih ha' hb']
      · simp [hxy, Ne.symm hxy]

theorem sameName_nil (hb : b ≠ []) : sameName [] b = false := by
  cases b with
  | nil => exact absurd rfl hb
  | cons y b => rfl

end Compare

theorem embeddedNames_apart :
    ∀ s ∈ embeddedNames, ∀ t ∈ embeddedNames, s <+: t ∨ t <+: s → s = t := by decide

theorem embeddedNames_ne_nil : ∀ t ∈ embeddedNames, t ≠ [] := by decide

section Lookup

variable {blobs : Blobs} {name : List UInt8}

theorem elfFindEmbedded_error (h : ∀ b ∈ blobs, sameName name b.1 = false) :
    elfFindEmbedded blobs name = .error .errNoexec := by
  have hnone : blobs.find? (fun b => sameName name b.1) = none := by
    rw [List.find?_eq_none]
    intro b hb
    simp [h b hb]
  rw [elfFindEmbedded, hnone]

theorem elfFindEmbedded_ok {img : Image} (h : elfFindEmbedded blobs name = .ok img) :
    ∃ b ∈ blobs, b.2 = img ∧ sameName name b.1 = true := by
  unfold elfFindEmbedded at h
  split at h
  · cases h
  · rename_i b hb
    cases h
    exact ⟨b, List.mem_of_find?_eq_some hb, rfl, by simpa using List.find?_some hb⟩

/-- A name that begins no other name of the table and is not begun by one. -/
def Apart (name : List UInt8) : Prop :=
  ∀ t ∈ embeddedNames, name ≠ [] → name <+: t ∨ t <+: name → name = t

theorem Apart.sameName {t : List UInt8} (h : Apart name) (ht : t ∈ embeddedNames) :
    sameName name t = true ↔ name = t := by
  have hne := embeddedNames_ne_nil t ht
  by_cases hname : name = []
  · rw [hname, sameName_nil hne]
    simp [hne.symm]
  · rw [sameName_iff hname hne]
    constructor
    · exact h t ht hname
    · intro heq
      exact .inl (heq ▸ List.prefix_rfl)

theorem Apart.finds (h : Apart name) (hnames : blobs.map Prod.fst = embeddedNames) {img : Image}
    (himg : elfFindEmbedded blobs name = .ok img) : ∃ b ∈ blobs, b.1 = name ∧ b.2 = img := by
  obtain ⟨b, hb, rfl, hsame⟩ := elfFindEmbedded_ok himg
  have ht : b.1 ∈ embeddedNames := hnames ▸ List.mem_map_of_mem hb
  exact ⟨b, hb, ((h.sameName ht).mp hsame).symm, rfl⟩

theorem Apart.found (h : Apart name) (hnames : blobs.map Prod.fst = embeddedNames)
    {b : List UInt8 × Image} (hb : b ∈ blobs) (hname : b.1 = name) :
    elfFindEmbedded blobs name = .ok b.2 := by
  have ht : b.1 ∈ embeddedNames := hnames ▸ List.mem_map_of_mem hb
  cases hf : elfFindEmbedded blobs name with
  | error e =>
    unfold elfFindEmbedded at hf
    split at hf
    · rename_i hnone
      have hsame := (h.sameName ht).mpr hname.symm
      exact absurd hsame (List.find?_eq_none.mp hnone b hb)
    · cases hf
  | ok img =>
    -- the entry found has the name too, and the names of the table are distinct
    obtain ⟨b', hb', hname', rfl⟩ := h.finds hnames hf
    have hnodup : (blobs.map Prod.fst).Nodup := by
      rw [hnames]
      decide
    rw [List.inj_on_of_nodup_map hnodup hb hb' (hname.trans hname'.symm)]

theorem Apart.missing (h : Apart name) (hnames : blobs.map Prod.fst = embeddedNames)
    (hno : ∀ b ∈ blobs, b.1 ≠ name) : elfFindEmbedded blobs name = .error .errNoexec := by
  refine elfFindEmbedded_error fun b hb => ?_
  have ht : b.1 ∈ embeddedNames := hnames ▸ List.mem_map_of_mem hb
  rw [Bool.eq_false_iff]
  intro hsame
  exact hno b hb ((h.sameName ht).mp hsame).symm

theorem Apart.findsNamed (h : Apart name) (hnames : blobs.map Prod.fst = embeddedNames) :
    FindsNamed blobs name where
  found _ hb hname := h.found hnames hb hname
  missing hno := h.missing hnames hno
  execve k upath i ctx path hk hpath hname hexec := by
    obtain ⟨-, -, -, path', img, hpath', himg, hctx⟩ := hexec
    rw [hpath] at hpath'
    cases hpath'
    rw [hk, hname] at himg
    obtain ⟨b, hb, hbname, rfl⟩ := h.finds hnames himg
    exact ⟨b, hb, hbname, hctx⟩
  interp nxOk path ph ph' sp sp' entry hname hload := by
    unfold elfLoadInterp at hload
    rw [hname] at hload
    split at hload
    · cases hload
    rename_i img himg
    obtain ⟨b, hb, hbname, rfl⟩ := h.finds hnames himg
    split at hload
    · cases hload
    rename_i ic hic
    split at hload
    · cases hload
    split at hload
    · cases hload
      exact ⟨b, hb, hbname, ic, hic, rfl⟩
    · cases hload

theorem FindsNamed.apart (h : FindsNamed blobs name)
    (hnames : blobs.map Prod.fst = embeddedNames) : Apart name := by
  intro t ht hne hpre
  by_contra hdiff
  obtain ⟨b, hb, rfl⟩ : ∃ b ∈ blobs, b.1 = t := by
    rw [← hnames] at ht
    exact List.mem_map.mp ht
  -- the entry matches the name, so an image is found
  have hsame : sameName name b.1 = true :=
    (sameName_iff hne (embeddedNames_ne_nil b.1 ht)).mpr hpre
  have hno : ∀ b' ∈ blobs, b'.1 ≠ name := by
    intro b' hb' hname
    have ht' : b'.1 ∈ embeddedNames := hnames ▸ List.mem_map_of_mem hb'
    exact hdiff (embeddedNames_apart name (hname ▸ ht') b.1 ht hpre)
  have herr := h.missing hno
  unfold elfFindEmbedded at herr
  split at herr
  · rename_i hnone
    exact absurd hsame (List.find?_eq_none.mp hnone b hb)
  · cases herr

end Lookup

/-- The lookup is exact for the names that no name of the table begins or continues; the
comparison of `elf_find_embedded` stops where the shorter name ends. -/
theorem elfFindEmbedded_exact {blobs : Blobs} (hnames : blobs.map Prod.fst = embeddedNames)
    (name : List UInt8) :
    FindsNamed blobs name ↔
      ∀ t ∈ embeddedNames, name ≠ [] → name <+: t ∨ t <+: name → name = t :=
  ⟨fun h => h.apart hnames, fun h => Apart.findsNamed h hnames⟩

def namedBlobs : Blobs := embeddedNames.map fun t => (t, ⟨[], by decide⟩)

theorem elfFindEmbedded_exact_calc : FindsNamed namedBlobs [0x63, 0x61, 0x6C, 0x63] :=
  (elfFindEmbedded_exact rfl _).mpr (by decide)

/-- "ini" is not a name of the table, and finds "init". -/
theorem elfFindEmbedded_ini :
    namedBlobs.map Prod.fst = embeddedNames ∧ [0x69, 0x6E, 0x69] ∉ embeddedNames ∧
      elfFindEmbedded namedBlobs [0x69, 0x6E, 0x69] = .ok ⟨[], by decide⟩ ∧
      ¬ FindsNamed namedBlobs [0x69, 0x6E, 0x69] := by
  refine ⟨rfl, by decide, rfl, fun h => ?_⟩
  have herr := h.missing (by decide)
  have hok : elfFindEmbedded namedBlobs [0x69, 0x6E, 0x69] = .ok ⟨[], by decide⟩ := rfl
  rw [hok] at herr
  cases herr

end VoidOS.Proc
