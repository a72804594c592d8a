import VoidOS.AcpiWindow

namespace VoidOS.Acpi

open ReadProg

def le32At (pl : Platform) (phys off : ℕ) : ℕ :=
  le32 (pl.byte (addrOf phys off)) (pl.byte (addrOf phys (off + 1)))
    (pl.byte (addrOf phys (off + 2))) (pl.byte (addrOf phys (off + 3)))

def le64At (pl : Platform) (phys off : ℕ) : ℕ :=
  le32At pl phys off + le32At pl phys (off + 4) * 2 ^ 32

def lengthOf (pl : Platform) (phys : ℕ) : ℕ := le32At pl phys 4

/-- The sum of the `len` bytes at `phys`, modulo 256. -/
def sumAt (pl : Platform) (phys len : ℕ) : UInt8 :=
  ((List.range len).map fun i => pl.byte (addrOf phys i)).sum

/-- The list that the RSDP at `rsdp` leads to, with the size of its entries. -/
def listOf (pl : Platform) (rsdp : ℕ) : Option (ℕ × ℕ) :=
  tableList (pl.byte (addrOf rsdp 15)) (le32At pl rsdp 16) (le64At pl rsdp 24)

/-- Entry `i` of a table list, from offset `36 + i * entrySz` on. -/
def entryAt (pl : Platform) (list entrySz i : ℕ) : ℕ :=
  if entrySz = 8 then le64At pl list (36 + i * 8) else le32At pl list (36 + i * 4)

/-- An address that leads to a table with a sound header and checksum. -/
def Sound (pl : Platform) (t : ℕ) : Prop :=
  t ≠ 0 ∧ 36 ≤ lengthOf pl t ∧ sumAt pl t (lengthOf pl t) = 0

instance (pl : Platform) (t : ℕ) : Decidable (Sound pl t) := by
  unfold Sound
  infer_instance

section Reading

variable {pl : Platform} {phys off : ℕ}

@[simp] theorem run_rdb : (rdb phys off).run pl.byte = pl.byte (addrOf phys off) := by
  simp only [rdb, Prog.run_ask, Prog.run_done]

@[simp] theorem trace_rdb : (rdb phys off).trace pl.byte = [addrOf phys off] := by
  simp only [rdb, Prog.trace_ask, Prog.trace_done]

@[simp] theorem run_acpiRd32 : (acpiRd32 phys off).run pl.byte = le32At pl phys off := by
  unfold acpiRd32 le32At
  rw [Prog.run_bind, Prog.run_bind, Prog.run_bind, Prog.run_bind, run_rdb, run_rdb, run_rdb,
    run_rdb, Prog.run_pure]

@[simp] theorem run_acpiRd64 : (acpiRd64 phys off).run pl.byte = le64At pl phys off := by
  unfold acpiRd64 le64At
  rw [Prog.run_bind, Prog.run_bind, run_acpiRd32, run_acpiRd32, Prog.run_pure]

theorem le32At_lt (pl : Platform) (phys off : ℕ) : le32At pl phys off < 2 ^ 32 := by
  unfold le32At le32
  have h := fun a => (pl.byte a).toNat_lt
  have h₀ := h (addrOf phys off)
  have h₁ := h (addrOf phys (off + 1))
  have h₂ := h (addrOf phys (off + 2))
  have h₃ := h (addrOf phys (off + 3))
  omega

theorem le64At_lt (pl : Platform) (phys off : ℕ) : le64At pl phys off < 2 ^ 64 := by
  unfold le64At
  have hlo := le32At_lt pl phys off
  have hhi := le32At_lt pl phys (off + 4)
  omega

theorem lengthOf_lt (pl : Platform) (phys : ℕ) : lengthOf pl phys < 2 ^ 32 := by
  unfold lengthOf
  exact le32At_lt pl phys 4

theorem run_checksumFrom (n i : ℕ) (sum : UInt8) :
    (checksumFrom phys n i sum).run pl.byte =
      sum + ((List.range n).map fun j => pl.byte (addrOf phys (i + j))).sum := by
  induction n generalizing i sum with
  | zero => simp [checksumFrom]
  | succ n ih =>
    rw [checksumFrom, Prog.run_bind, run_rdb, ih, List.range_succ_eq_map, List.map_cons,
      List.sum_cons, List.map_map, add_assoc]
    simp only [Function.comp_def, Nat.succ_eq_add_one, Nat.add_zero, Nat.add_assoc,
      Nat.add_comm 1]

theorem trace_checksumFrom (n i : ℕ) (sum : UInt8) :
    (checksumFrom phys n i sum).trace pl.byte =
      (List.range n).map fun j => addrOf phys (i + j) := by
  induction n generalizing i sum with
  | zero => rfl
  | succ n ih =>
    rw [checksumFrom, Prog.trace_bind, trace_rdb, ih, List.range_succ_eq_map, List.map_cons,
      List.map_map, List.singleton_append]
    simp only [Function.comp_def, Nat.succ_eq_add_one, Nat.add_zero, Nat.add_assoc,
      Nat.add_comm 1]

@[simp] theorem run_acpiChecksumAt (len : ℕ) :
    (acpiChecksumAt phys len).run pl.byte = (sumAt pl phys len == 0) := by
  simp [acpiChecksumAt, run_checksumFrom, sumAt]

@[simp] theorem trace_acpiChecksumAt (len : ℕ) :
    (acpiChecksumAt phys len).trace pl.byte = (List.range len).map (addrOf phys) := by
  simp [acpiChecksumAt, trace_checksumFrom]

@[simp] theorem run_acpiReadSdt_length :
    ((acpiReadSdt phys).run pl.byte).length = lengthOf pl phys := by
  unfold acpiReadSdt
  iterate 9 rw [Prog.run_bind]
  rw [Prog.run_pure]
  exact run_acpiRd32

@[simp] theorem run_readEntry (list entrySz i : ℕ) :
    (readEntry list entrySz i).run pl.byte = entryAt pl list entrySz i := by
  unfold readEntry entryAt
  split
  · exact run_acpiRd64
  · exact run_acpiRd32

theorem entryAt_lt (pl : Platform) (list entrySz i : ℕ) : entryAt pl list entrySz i < 2 ^ 64 := by
  unfold entryAt
  split
  · exact le64At_lt pl _ _
  · exact (le32At_lt pl _ _).trans (by decide)

end Reading

section Registered

variable {pl : Platform} {list entrySz : ℕ}

theorem run_registerFrom (n i : ℕ) :
    (registerFrom list entrySz n i).run pl.byte =
      ((List.range' i n).map (entryAt pl list entrySz)).filter (Sound pl ·) := by
  induction n generalizing i with
  | zero => rfl
  | succ n ih =>
    rw [registerFrom, Prog.run_bind, run_readEntry, List.range'_succ, List.map_cons]
    by_cases hz : entryAt pl list entrySz i = 0
    · have hnot : ¬Sound pl (entryAt pl list entrySz i) := fun h => h.1 hz
      rw [if_pos hz, ih, List.filter_cons_of_neg (by simpa using hnot)]
    rw [if_neg hz, Prog.run_bind, run_acpiReadSdt_length]
    by_cases hl : lengthOf pl (entryAt pl list entrySz i) < 36
    · have hnot : ¬Sound pl (entryAt pl list entrySz i) := fun h => Nat.not_lt.mpr h.2.1 hl
      rw [if_pos hl, ih, List.filter_cons_of_neg (by simpa using hnot)]
    rw [if_neg hl, Prog.run_bind, run_acpiChecksumAt]
    by_cases hs : sumAt pl (entryAt pl list entrySz i) (lengthOf pl (entryAt pl list entrySz i)) = 0
    · have hsound : Sound pl (entryAt pl list entrySz i) := ⟨hz, Nat.le_of_not_lt hl, hs⟩
      rw [if_pos (by simp [hs]), Prog.run_bind, Prog.run_pure, ih,
        List.filter_cons_of_pos (by simp [hsound])]
    · have hnot : ¬Sound pl (entryAt pl list entrySz i) := fun h => hs h.2.2
      rw [if_neg (by simp [hs]), ih, List.filter_cons_of_neg (by simpa using hnot)]

theorem trace_registerFrom {n i t j : ℕ}
    (ht : t ∈ (registerFrom list entrySz n i).run pl.byte) (hj : j < lengthOf pl t) :
    addrOf t j ∈ (registerFrom list entrySz n i).trace pl.byte := by
  induction n generalizing i with
  | zero => cases ht
  | succ n ih =>
    rw [registerFrom, Prog.run_bind] at ht
    rw [registerFrom, Prog.trace_bind]
    apply List.mem_append_right
    split_ifs at ht ⊢ with hz
    · exact ih ht
    · rw [Prog.run_bind] at ht
      rw [Prog.trace_bind]
      apply List.mem_append_right
      split_ifs at ht ⊢ with hl
      · exact ih ht
      · rw [Prog.run_bind] at ht
        rw [Prog.trace_bind]
        split_ifs at ht ⊢ with hs
        · rw [Prog.run_bind, Prog.run_pure] at ht
          rcases List.mem_cons.mp ht with rfl | ht
          · apply List.mem_append_left
            rw [trace_acpiChecksumAt]
            exact List.mem_map_of_mem (List.mem_range.mpr hj)
          · rw [Prog.trace_bind]
            exact List.mem_append_right _ (List.mem_append_left _ (ih ht))
        · exact List.mem_append_right _ (ih ht)

theorem run_readTables {rsdp : ℕ} {tables : List ℕ}
    (h : (readTables rsdp).run pl.byte = some (entrySz, tables)) :
    ∃ list, listOf pl rsdp = some (list, entrySz) ∧ sumAt pl list (lengthOf pl list) = 0 ∧
      tables = (registerFrom list entrySz (entryCount (lengthOf pl list) entrySz) 0).run pl.byte ∧
      ∃ pre, (readTables rsdp).trace pl.byte =
        pre ++ (registerFrom list entrySz (entryCount (lengthOf pl list) entrySz) 0).trace
          pl.byte := by
  unfold readTables at h ⊢
  iterate 5 rw [Prog.run_bind] at h
  iterate 5 rw [Prog.trace_bind]
  rw [run_rdb, run_acpiRd32, run_acpiRd64] at h ⊢
  generalize (if 2 ≤ pl.byte (addrOf rsdp 15) then 36 else 20) = rsdpSz at h ⊢
  split_ifs at h ⊢
  · have hlist : listOf pl rsdp = tableList (pl.byte (addrOf rsdp 15)) (le32At pl rsdp 16)
        (le64At pl rsdp 24) := rfl
    rw [← hlist] at h ⊢
    cases hl : listOf pl rsdp with
    | none =>
      rw [hl] at h
      cases h
    | some r =>
      rw [hl] at h
      simp only [Prog.run_bind, run_acpiReadSdt_length, run_acpiChecksumAt] at h
      simp only [Prog.trace_bind, run_acpiReadSdt_length, run_acpiChecksumAt]
      split_ifs at h ⊢ with hs
      · rw [Prog.run_bind, Prog.run_pure, Option.some.injEq, Prod.mk.injEq] at h
        obtain ⟨rfl, rfl⟩ := h
        refine ⟨r.1, rfl, by simpa using hs, rfl, ?_⟩
        simp only [Prog.trace_bind, Prog.trace_pure, List.append_nil, ← List.append_assoc]
        exact ⟨_, rfl⟩
      · cases h
  · cases h

theorem trace_readTables {rsdp t j : ℕ} {tables : List ℕ}
    (h : (readTables rsdp).run pl.byte = some (entrySz, tables)) (ht : t ∈ tables)
    (hj : j < lengthOf pl t) : addrOf t j ∈ (readTables rsdp).trace pl.byte := by
  obtain ⟨list, -, -, rfl, pre, htrace⟩ := run_readTables h
  rw [htrace]
  exact List.mem_append_right pre (trace_registerFrom ht hj)

theorem sound_of_registered {rsdp t : ℕ} {tables : List ℕ}
    (h : (readTables rsdp).run pl.byte = some (entrySz, tables)) (ht : t ∈ tables) :
    Sound pl t ∧ t < 2 ^ 64 := by
  obtain ⟨list, -, -, rfl, -⟩ := run_readTables h
  rw [run_registerFrom] at ht
  obtain ⟨ht, hsound⟩ := List.mem_filter.mp ht
  obtain ⟨i, -, rfl⟩ := List.mem_map.mp ht
  exact ⟨of_decide_eq_true hsound, entryAt_lt pl list entrySz i⟩

end Registered

/-- The pages that the parse of memory touches, in the order of their first use. -/
def pinned (pl : Platform) (rsdp : ℕ) : List ℕ :=
  touchAll [] ((readTables rsdp).trace pl.byte)

/-- The loads that the parse of memory makes, newest first. -/
def parseLoads (pl : Platform) (rsdp : ℕ) : List Load :=
  (((readTables rsdp).trace pl.byte).map fetched).reverse ++ []

section Init

variable {pl : Platform} {busy : ℕ → Option ℕ} {rsdp : ℕ} {s : State}

theorem boot_guard :
    (boot busy).win.pte.any Option.isSome = true ↔ ∃ i < acpiMapPages, (busy i).isSome := by
  simp [boot, List.any_eq_true]

theorem readTables_exec {x : Option (ℕ × List ℕ)} {w : Window}
    (hb : ¬∃ i < acpiMapPages, (busy i).isSome) :
    (readTables rsdp).exec (acpiRdb pl) (boot busy).win = .ok (x, w) ↔
      Fits pl [] ((readTables rsdp).trace pl.byte) ∧ x = (readTables rsdp).run pl.byte ∧
        w = windowOf (pinned pl rsdp) (parseLoads pl rsdp) := by
  have hfree : ∀ i < acpiMapPages, busy i = none := by
    intro i hi
    by_contra hne
    exact hb ⟨i, hi, Option.isSome_iff_ne_none.mpr hne⟩
  rw [boot_win hfree]
  exact exec_iff List.not_mem_nil (Nat.zero_le _)

theorem acpiInit_zero (h : acpiInit pl (boot busy) rsdp = .ok (0, s)) :
    ∃ entrySz, (readTables rsdp).run pl.byte = some (entrySz, s.tables) ∧
      Fits pl [] ((readTables rsdp).trace pl.byte) ∧
      ∃ fadt w, acpiFindTable pl facp 0 s.tables 0
          (windowOf (pinned pl rsdp) (parseLoads pl rsdp)) = .ok (fadt, w) ∧
        readVersion pl fadt entrySz w = .ok (s.version, s.win) := by
  have hminus : ∀ s' : State, (Except.ok (-1, s') : Except Fault (ℤ × State)) ≠ .ok (0, s) := by
    intro s' heq
    cases heq
  unfold acpiInit at h
  simp only at h
  split at h
  · exact absurd h (hminus _)
  rename_i hguard
  rw [boot_guard] at hguard
  split at h
  · exact absurd h (hminus _)
  split at h
  · cases h
  · exact absurd h (hminus _)
  · rename_i entrySz tables w hread
    obtain ⟨hfit, hrun, rfl⟩ := (readTables_exec hguard).mp hread
    split at h
    · cases h
    · rename_i fadt w hfind
      split at h
      · cases h
      · rename_i version w' hversion
        cases h
        exact ⟨entrySz, hrun.symm, hfit, fadt, w, hfind, hversion⟩

theorem exists_of_map {α β : Type} {x : Except Fault (α × State)} {f : State → β} {a : α} {b : β}
    (h : x.map (fun r => (r.1, f r.2)) = .ok (a, b)) : ∃ s, x = .ok (a, s) ∧ f s = b := by
  cases x with
  | error e => cases h
  | ok r =>
    obtain ⟨rfl, hf⟩ := Prod.mk.inj (Except.ok.inj h)
    exact ⟨r.2, rfl, hf⟩

end Init

/-- Every registered table has been read from an entry inside the list, and list and
table have sound lengths and checksums. -/
structure Validated (pl : Platform) (list entrySz : ℕ) (tables : List ℕ) : Prop where
  count : tables.length ≤ acpiMaxTables
  listSum : sumAt pl list (lengthOf pl list) = 0
  entry : ∀ t ∈ tables, ∃ i, 36 + i * entrySz + entrySz ≤ lengthOf pl list ∧
    entryAt pl list entrySz i = t
  table : ∀ t ∈ tables, 36 ≤ lengthOf pl t ∧ sumAt pl t (lengthOf pl t) = 0

section Validation

variable {pl : Platform} {list entrySz : ℕ}

theorem listOf_entrySz {rsdp : ℕ} (h : listOf pl rsdp = some (list, entrySz)) :
    entrySz = 8 ∨ entrySz = 4 := by
  unfold listOf tableList at h
  split_ifs at h
  · cases h
    exact .inl rfl
  · cases h
    exact .inr rfl

theorem entryCount_le (len entrySz : ℕ) : entryCount len entrySz ≤ acpiMaxTables := by
  unfold entryCount
  exact Nat.min_le_left _ _

theorem entryCount_short {len : ℕ} (hsz : entrySz = 8 ∨ entrySz = 4) (h : len < 36) :
    entryCount len entrySz = acpiMaxTables := by
  unfold entryCount acpiMaxTables
  rcases hsz with rfl | rfl <;> omega

theorem entryCount_inside {len i : ℕ} (hsz : entrySz = 8 ∨ entrySz = 4) (h : 36 ≤ len)
    (hlen : len < 2 ^ 32) (hi : i < entryCount len entrySz) :
    36 + i * entrySz + entrySz ≤ len := by
  unfold entryCount at hi
  rcases hsz with rfl | rfl <;> omega

end Validation

theorem init_registers_validated_iff {pl : Platform} {busy : ℕ → Option ℕ} {rsdp : ℕ} {s : State}
    (h : acpiInit pl (boot busy) rsdp = .ok (0, s)) :
    ∃ list entrySz, listOf pl rsdp = some (list, entrySz) ∧
      (Validated pl list entrySz s.tables ↔
        36 ≤ lengthOf pl list ∨ ∀ i < 64, ¬Sound pl (entryAt pl list entrySz i)) := by
  obtain ⟨entrySz, hrun, -⟩ := acpiInit_zero h
  obtain ⟨list, hlist, hsum, htables, -⟩ := run_readTables hrun
  have hsz := listOf_entrySz hlist
  rw [run_registerFrom, List.range'_eq_map_range] at htables
  have hmem : ∀ t, t ∈ s.tables ↔ ∃ i < entryCount (lengthOf pl list) entrySz,
      entryAt pl list entrySz i = t ∧ Sound pl t := by
    intro t
    rw [htables, List.mem_filter]
    simp only [List.mem_map, List.mem_range, Nat.zero_add, decide_eq_true_eq]
    constructor
    · rintro ⟨⟨_, ⟨i, hi, rfl⟩, rfl⟩, hs⟩
      exact ⟨i, hi, rfl, hs⟩
    · rintro ⟨i, hi, rfl, hs⟩
      exact ⟨⟨i, ⟨i, hi, rfl⟩, rfl⟩, hs⟩
  refine ⟨list, entrySz, hlist, ?_, ?_⟩
  · intro hv
    by_contra hnot
    push Not at hnot
    obtain ⟨hshort, i, hi, hs⟩ := hnot
    -- the loop has read entry `i`, although the list has no entries
    have ht : entryAt pl list entrySz i ∈ s.tables :=
      (hmem _).mpr ⟨i, by rwa [entryCount_short hsz hshort], rfl, hs⟩
    obtain ⟨j, hj, -⟩ := hv.entry _ ht
    omega
  · intro hcond
    have hcount := entryCount_le (lengthOf pl list) entrySz
    refine ⟨?_, hsum, fun t ht => ?_, fun t ht => ?_⟩
    · rw [htables]
      apply (List.length_filter_le _ _).trans
      rw [List.length_map, List.length_map, List.length_range]
      exact hcount
    · obtain ⟨i, hi, rfl, hs⟩ := (hmem t).mp ht
      rcases hcond with hlen | hnone
      · exact ⟨i, entryCount_inside hsz hlen (lengthOf_lt pl list) hi, rfl⟩
      · exact absurd hs (hnone i (hi.trans_le hcount))
    · obtain ⟨i, -, -, hs⟩ := (hmem t).mp ht
      exact hs.2

def sparse (bytes : List (ℕ × UInt8)) (a : ℕ) : UInt8 := (bytes.lookup a).getD 0

/-- An RSDP at `0x1000`, its RSDT at `0x1040` and one table at `0x1200`. -/
def smallFirmware : Platform :=
  ⟨sparse [(0x1008, 0xb0), (0x1010, 0x40), (0x1011, 0x10), (0x1044, 40), (0x1049, 198),
    (0x1065, 0x12), (0x1204, 36), (0x1209, 220)], fun _ => true⟩

/-- The same, with an RSDT whose length field is 0. -/
def emptyList : Platform :=
  ⟨sparse [(0x1008, 0xb0), (0x1010, 0x40), (0x1011, 0x10), (0x1065, 0x12), (0x1204, 36),
    (0x1209, 220)], fun _ => true⟩

theorem init_registers_validated_small :
    ∃ s, acpiInit smallFirmware (boot fun _ => none) 0x1000 = .ok (0, s) ∧ s.tables = [0x1200] ∧
      listOf smallFirmware 0x1000 = some (0x1040, 4) ∧
      Validated smallFirmware 0x1040 4 s.tables := by
  obtain ⟨s, h, htables⟩ := exists_of_map (show
    (acpiInit smallFirmware (boot fun _ => none) 0x1000).map (fun r => (r.1, r.2.tables)) =
      .ok (0, [0x1200]) by decide +kernel)
  have hlist : listOf smallFirmware 0x1000 = some (0x1040, 4) := by
    decide +kernel
  have hlen : lengthOf smallFirmware 0x1040 = 40 := by
    decide +kernel
  obtain ⟨list, entrySz, hsome, hiff⟩ := init_registers_validated_iff h
  rw [hlist] at hsome
  cases hsome
  exact ⟨s, h, htables, hlist, hiff.mpr (.inl (by omega))⟩

/-- An RSDT of length 0 passes its checksum, and the 64 words behind its header are
taken for entries. -/
theorem init_registers_outside :
    ∃ s, acpiInit emptyList (boot fun _ => none) 0x1000 = .ok (0, s) ∧
      listOf emptyList 0x1000 = some (0x1040, 4) ∧
      ¬Validated emptyList 0x1040 4 s.tables := by
  obtain ⟨s, h, htables⟩ := exists_of_map (show
    (acpiInit emptyList (boot fun _ => none) 0x1000).map (fun r => (r.1, r.2.tables)) =
      .ok (0, [0x1200]) by decide +kernel)
  have hlist : listOf emptyList 0x1000 = some (0x1040, 4) := by
    decide +kernel
  have hlen : lengthOf emptyList 0x1040 = 0 := by
    decide +kernel
  refine ⟨s, h, hlist, fun hv => ?_⟩
  obtain ⟨i, hi, -⟩ := hv.entry 0x1200 (by simp [htables])
  omega

end VoidOS.Acpi
