import VoidOS.Rtld

namespace VoidOS.Rtld

open ByteMem

def Rela.symbol (m : Mem) (symtab : ℕ) (r : Rela) : ℕ := word m (symbolAt symtab r.sym + 8)

/-- The word that the target of an entry has to hold. -/
def Rela.value (m : Mem) (symtab base : ℕ) (r : Rela) : ℕ :=
  if r.type = rX8664Relative then add64 base r.addend
  else if r.type = rX866464 then add64 (add64 base (r.symbol m symtab)) r.addend
  else add64 base (r.symbol m symtab)

theorem Rela.value_lt {m : Mem} {symtab base : ℕ} (r : Rela) : r.value m symtab base < 2 ^ 64 := by
  have hlt : ∀ x y, add64 x y < 2 ^ 64 := by
    intro x y
    rw [add64_eq_mod]
    exact Nat.mod_lt _ (by decide)
  unfold Rela.value
  split
  · exact hlt _ _
  split <;> exact hlt _ _

/-- An entry of one of the four types, with a defined symbol where the type has one. -/
def Rela.Good (m : Mem) (symtab strtab : ℕ) (r : Rela) : Prop :=
  r.type = rX8664Relative ∨
    ((r.type = rX8664GlobDat ∨ r.type = rX8664JumpSlot ∨ r.type = rX866464) ∧ symtab ≠ 0 ∧
      strtab ≠ 0 ∧ load m (symbolAt symtab r.sym + 6) 2 ≠ shnUndef)

/-- The addresses of the 24-byte entries of a table. -/
def tableEntries (rela bytes : ℕ) : List ℕ :=
  if rela = 0 then [] else (List.range (bytes / 24)).map fun i => rela + 24 * i

def Dynamic.entries (d : Dynamic) : List ℕ :=
  tableEntries d.rela d.relasz ++ tableEntries d.jmprel d.pltrelsz

def Dynamic.relas (m : Mem) (d : Dynamic) : List Rela := d.entries.map (readRela m)

/-- The `n` bytes at `a` and the 8 bytes at the target are apart. -/
def OffTarget (base : ℕ) (r : Rela) (a n : ℕ) : Prop :=
  r.target base + 8 ≤ a ∨ a + n ≤ r.target base

/-- Tables of 24-byte entries in user memory, whose targets are apart from each other and from
what the linker reads. -/
structure Separate (m : Mem) (base : ℕ) (d : Dynamic) : Prop where
  ent : d.relaent = 0 ∨ d.relaent = 24
  rela : d.rela + d.relasz ≤ 2 ^ 47
  jmprel : d.jmprel + d.pltrelsz ≤ 2 ^ 47
  targets : ∀ e ∈ d.entries, ∀ e' ∈ d.entries, e = e' ∨
    OffTarget base (readRela m e) ((readRela m e').target base) 8
  tables : ∀ r ∈ d.relas m, ∀ e ∈ d.entries, OffTarget base r e 24
  symbols : ∀ r ∈ d.relas m, ∀ r' ∈ d.relas m, r'.type ≠ rX8664Relative →
    OffTarget base r (symbolAt d.symtab r'.sym) 24

section Entry

variable {m m' : Mem} {symtab strtab base e : ℕ}

theorem applyEntry_good (h : (readRela m e).Good m symtab strtab) :
    applyEntry m symtab strtab base e = .ok (setWord m ((readRela m e).target base)
      ((readRela m e).value m symtab base)) := by
  unfold applyEntry Rela.value
  dsimp only
  generalize readRela m e = r at h ⊢
  rcases h with hrel | ⟨htype, hsym, hstr, hdef⟩
  · rw [if_pos hrel, if_pos hrel]
  have hnull : ¬ (symtab = 0 ∨ strtab = 0) := not_or.mpr ⟨hsym, hstr⟩
  have hres : resolve m symtab r.sym base = .ok (add64 base (r.symbol m symtab)) := by
    rw [resolve, if_neg hdef]
    rfl
  rcases htype with ht | ht | ht <;>
    simp [ht, rX8664Relative, rX8664GlobDat, rX8664JumpSlot, rX866464, hnull, hres, Except.map]

theorem applyEntry_bad (h : ¬ (readRela m e).Good m symtab strtab) :
    applyEntry m symtab strtab base e = .error .exited := by
  unfold applyEntry
  dsimp only
  generalize readRela m e = r at h ⊢
  unfold Rela.Good at h
  push Not at h
  obtain ⟨hrel, h⟩ := h
  have hres : symtab ≠ 0 → strtab ≠ 0 →
      (r.type = rX8664GlobDat ∨ r.type = rX8664JumpSlot ∨ r.type = rX866464) →
      resolve m symtab r.sym base = .error .exited := by
    intro hsym hstr ht
    rw [resolve, if_pos (h ht hsym hstr)]
  rw [if_neg hrel]
  by_cases hnull : symtab = 0 ∨ strtab = 0
  · simp only [if_pos hnull, ite_self]
  simp only [if_neg hnull]
  obtain ⟨hsym, hstr⟩ := not_or.mp hnull
  split
  · rename_i ht
    rw [hres hsym hstr (Or.inl ht)]
    rfl
  split
  · rename_i ht
    rw [hres hsym hstr (Or.inr (Or.inl ht))]
    rfl
  split
  · rename_i ht
    rw [hres hsym hstr (Or.inr (Or.inr ht))]
    rfl
  · rfl

end Entry

def applyAll (symtab strtab base : ℕ) : List ℕ → Mem → Except Stop Mem
  | [], m => .ok m
  | e :: es, m =>
    match applyEntry m symtab strtab base e with
    | .error s => .error s
    | .ok m => applyAll symtab strtab base es m

section Lists

variable {m : Mem} {rela bytes symtab strtab base fuel i : ℕ}

theorem applyAll_append (es es' : List ℕ) (m : Mem) :
    applyAll symtab strtab base (es ++ es') m =
      (applyAll symtab strtab base es m).bind (applyAll symtab strtab base es') := by
  induction es generalizing m with
  | nil => rfl
  | cons e es ih =>
    rw [List.cons_append, applyAll, applyAll]
    cases applyEntry m symtab strtab base e with
    | error s => rfl
    | ok m => exact ih m

theorem applyLoop_eq (hsize : rela + bytes ≤ 2 ^ 47) (hi : i ≤ bytes / 24)
    (hfuel : bytes / 24 - i < fuel) :
    applyLoop rela bytes 24 symtab strtab base fuel (24 * i) m =
      applyAll symtab strtab base
        ((List.range' i (bytes / 24 - i)).map fun i => rela + 24 * i) m := by
  induction fuel generalizing i m with
  | zero => omega
  | succ fuel ih =>
    rw [applyLoop, add64_of_lt (by omega)]
    by_cases hlt : i < bytes / 24
    · have hnext : bytes / 24 - i = bytes / 24 - (i + 1) + 1 := by omega
      rw [if_pos (by omega), add64_of_lt (by omega), hnext, List.range'_succ, List.map_cons,
        applyAll]
      cases applyEntry m symtab strtab base (rela + 24 * i) with
      | error s => rfl
      | ok m => exact ih (i := i + 1) (by omega) (by omega)
    · rw [if_neg (by omega), show bytes / 24 - i = 0 by omega]
      rfl

theorem applyLoop_fuel {m' : Mem} (hsize : rela + bytes ≤ 2 ^ 47) (hi : i ≤ bytes / 24)
    (h : applyLoop rela bytes 24 symtab strtab base fuel (24 * i) m = .ok m') :
    bytes / 24 - i < fuel := by
  induction fuel generalizing i m with
  | zero => cases h
  | succ fuel ih =>
    by_cases hlt : i < bytes / 24
    · rw [applyLoop, add64_of_lt (by omega), if_pos (by omega)] at h
      cases he : applyEntry m symtab strtab base (add64 rela (24 * i)) with
      | error s =>
        rw [he] at h
        cases h
      | ok m₁ =>
        rw [he] at h
        have := ih (i := i + 1) (by omega) h
        omega
    · omega

theorem applyRela_eq {ent : ℕ} (hent : ent = 0 ∨ ent = 24) (hsize : rela + bytes ≤ 2 ^ 47)
    (hfuel : bytes / 24 < fuel) :
    applyRela fuel m rela bytes ent symtab strtab base =
      applyAll symtab strtab base (tableEntries rela bytes) m := by
  have hent' : (if ent = 0 then 24 else ent) = 24 := by
    split <;> omega
  rw [applyRela, tableEntries, hent']
  by_cases hz : rela = 0
  · rw [if_pos (Or.inl hz), if_pos hz]
    rfl
  by_cases hb : bytes = 0
  · rw [if_pos (Or.inr hb), if_neg hz, hb]
    rfl
  · have hloop := @applyLoop_eq m rela bytes symtab strtab base fuel 0 hsize (by omega) hfuel
    rw [if_neg (not_or.mpr ⟨hz, hb⟩), if_neg hz, List.range_eq_range']
    exact hloop

theorem applyRela_ok {ent : ℕ} {m' : Mem} (hent : ent = 0 ∨ ent = 24)
    (hsize : rela + bytes ≤ 2 ^ 47)
    (h : applyRela fuel m rela bytes ent symtab strtab base = .ok m') :
    applyAll symtab strtab base (tableEntries rela bytes) m = .ok m' := by
  by_cases hnone : rela = 0 ∨ bytes = 0
  · rw [applyRela, if_pos hnone] at h
    rcases hnone with hz | hb
    · rwa [tableEntries, if_pos hz]
    · rw [tableEntries, hb]
      simpa [applyAll] using h
  · have hent' : (if ent = 0 then 24 else ent) = 24 := by
      split <;> omega
    have hfuel : bytes / 24 < fuel := by
      rw [applyRela, if_neg hnone, hent'] at h
      exact applyLoop_fuel hsize (Nat.zero_le _) h
    rwa [applyRela_eq hent hsize hfuel] at h

end Lists

structure SameInputs (m m' : Mem) (d : Dynamic) : Prop where
  entries : ∀ e ∈ d.entries, ∀ x, e ≤ x → x < e + 24 → m' x = m x
  symbols : ∀ r ∈ d.relas m, r.type ≠ rX8664Relative → ∀ x, symbolAt d.symtab r.sym ≤ x →
    x < symbolAt d.symtab r.sym + 24 → m' x = m x

/-- The word that an entry stores, with its address. -/
def Rela.pair (m : Mem) (base : ℕ) (d : Dynamic) (r : Rela) : ℕ × ℕ :=
  (r.target base, r.value m d.symtab base)

section Passes

variable {m m' : Mem} {base : ℕ} {d : Dynamic} {es : List ℕ} {e : ℕ} {r : Rela}

theorem SameInputs.refl (m : Mem) (d : Dynamic) : SameInputs m m d :=
  ⟨fun _ _ _ _ _ => rfl, fun _ _ _ _ _ _ => rfl⟩

theorem SameInputs.readRela (h : SameInputs m m' d) (he : e ∈ d.entries) :
    Rtld.readRela m' e = Rtld.readRela m e := by
  have hword : ∀ i ≤ 16, word m' (e + i) = word m (e + i) := by
    intro i hi
    apply word_congr
    intro x hl hr
    exact h.entries e he x (by omega) (by omega)
  have hoffset : word m' e = word m e := hword 0 (by decide)
  unfold Rtld.readRela
  rw [hoffset, hword 8 (by decide), hword 16 (by decide)]

/-- Only the types other than `R_X86_64_RELATIVE` read a symbol. -/
theorem Rela.value_congr {symtab : ℕ} (h : r.type ≠ rX8664Relative → ∀ x,
      symbolAt symtab r.sym ≤ x → x < symbolAt symtab r.sym + 24 → m' x = m x) :
    r.value m' symtab base = r.value m symtab base := by
  unfold Rela.value
  by_cases hrel : r.type = rX8664Relative
  · rw [if_pos hrel, if_pos hrel]
  · have hsym : r.symbol m' symtab = r.symbol m symtab := by
      apply word_congr
      intro x hl hx
      exact h hrel x (by omega) (by omega)
    rw [hsym]

theorem SameInputs.value (h : SameInputs m m' d) (hr : r ∈ d.relas m) :
    r.value m' d.symtab base = r.value m d.symtab base :=
  Rela.value_congr (h.symbols r hr)

theorem SameInputs.good (h : SameInputs m m' d) (hr : r ∈ d.relas m) {strtab : ℕ} :
    r.Good m' d.symtab strtab ↔ r.Good m d.symtab strtab := by
  unfold Rela.Good
  by_cases hrel : r.type = rX8664Relative
  · exact iff_of_true (.inl hrel) (.inl hrel)
  · have hdef : load m' (symbolAt d.symtab r.sym + 6) 2 =
        load m (symbolAt d.symtab r.sym + 6) 2 := by
      apply load_congr
      intro x hl hx
      exact h.symbols r hr hrel x (by omega) (by omega)
    rw [hdef]

theorem SameInputs.setWord (h : SameInputs m m' d) (hs : Separate m base d) (hr : r ∈ d.relas m)
    (v : ℕ) : SameInputs m (ByteMem.setWord m' (r.target base) v) d := by
  constructor
  · intro e he x hl hx
    rw [← h.entries e he x hl hx]
    apply setWord_apply
    have hoff := hs.tables r hr e he
    unfold OffTarget at hoff
    omega
  · intro r' hr' hrel x hl hx
    rw [← h.symbols r' hr' hrel x hl hx]
    apply setWord_apply
    have hoff := hs.symbols r hr r' hr' hrel
    unfold OffTarget at hoff
    omega

theorem mem_relas (he : e ∈ d.entries) : readRela m e ∈ d.relas m := List.mem_map_of_mem he

/-- Good entries store their words, whatever the others have stored before. -/
theorem applyAll_good (hs : Separate m base d) (h : SameInputs m m' d)
    (hes : ∀ e ∈ es, e ∈ d.entries)
    (hgood : ∀ e ∈ es, (readRela m e).Good m d.symtab d.strtab) :
    applyAll d.symtab d.strtab base es m' =
      .ok (patch m' (es.map fun e => (readRela m e).pair m base d)) := by
  induction es generalizing m' with
  | nil => rfl
  | cons e es ih =>
    have he := hes e List.mem_cons_self
    have hr := mem_relas (m := m) he
    have hg := (h.good hr).mpr (hgood e List.mem_cons_self)
    rw [← h.readRela he] at hg
    rw [applyAll, applyEntry_good hg, h.readRela he, h.value hr]
    exact ih (h.setWord hs hr _) (fun e' he' => hes e' (List.mem_cons_of_mem e he'))
      fun e' he' => hgood e' (List.mem_cons_of_mem e he')

theorem applyAll_ok {m'' : Mem} (hs : Separate m base d) (h : SameInputs m m' d)
    (hes : ∀ e ∈ es, e ∈ d.entries)
    (hok : applyAll d.symtab d.strtab base es m' = .ok m'') :
    ∀ e ∈ es, (readRela m e).Good m d.symtab d.strtab := by
  induction es generalizing m' with
  | nil => exact fun _ he => nomatch he
  | cons e es ih =>
    have he := hes e List.mem_cons_self
    have hr := mem_relas (m := m) he
    have hg : (readRela m' e).Good m' d.symtab d.strtab := by
      by_contra hbad
      rw [applyAll, applyEntry_bad hbad] at hok
      cases hok
    rw [applyAll, applyEntry_good hg] at hok
    rw [h.readRela he] at hg hok
    have hrest := ih (h.setWord hs hr _) (fun e' he' => hes e' (List.mem_cons_of_mem e he')) hok
    intro e' he'
    rcases List.mem_cons.mp he' with rfl | he'
    · exact (h.good hr).mp hg
    · exact hrest e' he'

theorem relocate_eq {fuel : ℕ} (hs : Separate m base d) (hrela : d.relasz / 24 < fuel)
    (hplt : d.pltrelsz / 24 < fuel) :
    relocate fuel m base d = applyAll d.symtab d.strtab base d.entries m := by
  rw [relocate, applyRela_eq hs.ent hs.rela hrela, Dynamic.entries, applyAll_append]
  cases applyAll d.symtab d.strtab base (tableEntries d.rela d.relasz) m with
  | error s => rfl
  | ok m₁ => exact applyRela_eq hs.ent hs.jmprel hplt

theorem relocate_ok {fuel : ℕ} (hs : Separate m base d)
    (h : relocate fuel m base d = .ok m') :
    applyAll d.symtab d.strtab base d.entries m = .ok m' := by
  rw [Dynamic.entries, applyAll_append]
  cases hp : applyRela fuel m d.rela d.relasz d.relaent d.symtab d.strtab base with
  | error s =>
    rw [relocate, hp] at h
    cases h
  | ok m₁ =>
    rw [relocate, hp] at h
    rw [applyRela_ok hs.ent hs.rela hp]
    exact applyRela_ok hs.ent hs.jmprel h

theorem Separate.apart (hs : Separate m base d) :
    PlacesApart (d.entries.map fun e => (readRela m e).pair m base d) := by
  intro p hp q hq
  obtain ⟨e, he, rfl⟩ := List.mem_map.mp hp
  obtain ⟨e', he', rfl⟩ := List.mem_map.mp hq
  rcases hs.targets e he e' he' with rfl | hoff
  · exact Or.inl rfl
  · exact Or.inr hoff

end Passes

/-- The same relocations against the same symbols, in any order and any number of times. -/
structure SameRelas (m m₂ : Mem) (d d₂ : Dynamic) : Prop where
  symtab : d₂.symtab = d.symtab
  relas : ∀ r, r ∈ d₂.relas m₂ ↔ r ∈ d.relas m
  symbols : ∀ r ∈ d.relas m, r.type ≠ rX8664Relative → ∀ x, symbolAt d.symtab r.sym ≤ x →
    x < symbolAt d.symtab r.sym + 24 → m₂ x = m x

section Result

variable {m m' m₂ : Mem} {base fuel frame entry : ℕ} {d d₂ : Dynamic}

theorem rtldMain_ok {r : Mem × ℕ} (h : Loads fuel m frame entry base d) (hs : Separate m base d)
    (hok : rtldMain fuel m frame = .ok r) :
    (∀ e ∈ d.entries, (readRela m e).Good m d.symtab d.strtab) ∧
      r.1 = patch m (d.entries.map fun e => (readRela m e).pair m base d) := by
  rw [rtldMain_eq h] at hok
  cases hr : relocate fuel m base d with
  | error s =>
    rw [hr] at hok
    cases hok
  | ok m' =>
    rw [hr] at hok
    cases hok
    have hall := relocate_ok hs hr
    have hgood := applyAll_ok hs (.refl m d) (fun _ he => he) hall
    rw [applyAll_good hs (.refl m d) (fun _ he => he) hgood] at hall
    cases hall
    exact ⟨hgood, rfl⟩

theorem SameRelas.pairs (h : SameRelas m m₂ d d₂) (p : ℕ × ℕ) :
    p ∈ d₂.entries.map (fun e => (readRela m₂ e).pair m₂ base d₂) ↔
      p ∈ d.entries.map fun e => (readRela m e).pair m base d := by
  have hvalue : ∀ r ∈ d.relas m, r.pair m₂ base d₂ = r.pair m base d := by
    intro r hr
    rw [Rela.pair, Rela.pair, h.symtab, Rela.value_congr (h.symbols r hr)]
  have hpairs : ∀ (m : Mem) (d : Dynamic),
      (d.entries.map fun e => (readRela m e).pair m base d) =
        (d.relas m).map fun r => r.pair m base d := by
    intro m d
    rw [Dynamic.relas, List.map_map]
    rfl
  rw [hpairs, hpairs, List.mem_map, List.mem_map]
  constructor
  · rintro ⟨r, hr, rfl⟩
    have hr' := (h.relas r).mp hr
    exact ⟨r, hr', (hvalue r hr').symm⟩
  · rintro ⟨r, hr, rfl⟩
    exact ⟨r, (h.relas r).mpr hr, hvalue r hr⟩

end Result

/-- The linker stores the word of every entry and changes nothing else, and neither the order
of the entries nor that some are applied twice matters; a bad entry keeps it from returning. -/
theorem rtld_relocates {fuel : ℕ} {m : Mem} {frame entry base : ℕ} {d : Dynamic}
    (h : Loads fuel m frame entry base d) (hs : Separate m base d) :
    ((∀ r ∈ d.relas m, r.Good m d.symtab d.strtab) → d.relasz / 24 < fuel →
      d.pltrelsz / 24 < fuel → ∃ m', rtldMain fuel m frame = .ok (m', entry) ∧
        (∀ r ∈ d.relas m, word m' (r.target base) = r.value m d.symtab base) ∧
        (∀ x, (∀ r ∈ d.relas m, x < r.target base ∨ r.target base + 8 ≤ x) → m' x = m x) ∧
        ∀ fuel₂ m₂ frame₂ entry₂ d₂ r₂, Loads fuel₂ m₂ frame₂ entry₂ base d₂ →
          Separate m₂ base d₂ → SameRelas m m₂ d d₂ → rtldMain fuel₂ m₂ frame₂ = .ok r₂ →
          ∀ x, m₂ x = m x → r₂.1 x = m' x) ∧
    ((∃ r ∈ d.relas m, ¬ r.Good m d.symtab d.strtab) → ∀ r, rtldMain fuel m frame ≠ .ok r) := by
  constructor
  · intro hgood hrela hplt
    have hall := applyAll_good hs (.refl m d) (fun _ he => he) fun e he =>
      hgood _ (mem_relas he)
    have hmain := rtldMain_eq h
    rw [relocate_eq hs hrela hplt, hall] at hmain
    refine ⟨_, hmain, fun r hr => ?_, fun x hx => ?_, ?_⟩
    · obtain ⟨e, he, rfl⟩ := List.mem_map.mp hr
      exact word_patch hs.apart (List.mem_map_of_mem he) (Rela.value_lt _)
    · apply patch_outside
      intro p hp
      obtain ⟨e, he, rfl⟩ := List.mem_map.mp hp
      exact hx _ (mem_relas he)
    · intro fuel₂ m₂ frame₂ entry₂ d₂ r₂ h₂ hs₂ hsame hok x hx
      rw [(rtldMain_ok h₂ hs₂ hok).2]
      exact patch_congr hs₂.apart hs.apart hsame.pairs hx
  · rintro ⟨r, hr, hbad⟩ r' hok
    obtain ⟨e, he, rfl⟩ := List.mem_map.mp hr
    exact hbad ((rtldMain_ok h hs hok).1 e he)

/-- A frame at 0x100 for an image at 0x1000. The dynamic section is at 0x1300 and the tables are
at 0x1400 and 0x1440: a relative entry, a 64-bit word and a jump slot against the symbol at 0x1618. -/
def smallImage : Mem := patch (fun _ => 0)
  [(0x118, atPhdr), (0x120, 0x200), (0x128, atPhnum), (0x130, 1), (0x138, atEntry),
    (0x140, 0x1800), (0x148, atBase), (0x150, 0x1000), (0x200, ptDynamic), (0x210, 0x300),
    (0x1300, dtRela), (0x1308, 0x400), (0x1310, dtRelasz), (0x1318, 48),
    (0x1320, dtJmprel), (0x1328, 0x440), (0x1330, dtPltrelsz), (0x1338, 24),
    (0x1340, dtSymtab), (0x1348, 0x600), (0x1350, dtStrtab), (0x1358, 0x700),
    (0x1400, 0x500), (0x1408, rX8664Relative), (0x1410, 0x10),
    (0x1418, 0x508), (0x1420, 2 ^ 32 + rX866464), (0x1428, 4),
    (0x1440, 0x510), (0x1448, 2 ^ 32 + rX8664JumpSlot), (0x1618, 2 ^ 48), (0x1620, 0x740)]

theorem rtld_relocates_small : ∃ m', rtldMain 8 smallImage 0x100 = .ok (m', 0x1800) ∧
    word m' 0x1500 = 0x1010 ∧ word m' 0x1508 = 0x1744 ∧ word m' 0x1510 = 0x1740 := by
  let d : Dynamic :=
    { rela := 0x1400, relasz := 48, jmprel := 0x1440, pltrelsz := 24, symtab := 0x1600,
      strtab := 0x1700 }
  have hload : Loads 8 smallImage 0x100 0x1800 0x1000 d :=
    ⟨0x1300, by decide +kernel, by decide, by decide +kernel⟩
  have hentries : d.entries = [0x1400, 0x1418, 0x1440] := by decide
  have hrelas : d.relas smallImage = [⟨0x500, rX8664Relative, 0x10⟩,
      ⟨0x508, 2 ^ 32 + rX866464, 4⟩, ⟨0x510, 2 ^ 32 + rX8664JumpSlot, 0⟩] := by decide +kernel
  have hsep : Separate smallImage 0x1000 d := by
    refine ⟨Or.inl rfl, by decide, by decide, ?_, ?_, ?_⟩
    · rw [hentries]
      unfold OffTarget
      decide +kernel
    · rw [hentries, hrelas]
      unfold OffTarget
      decide +kernel
    · rw [hrelas]
      unfold OffTarget
      decide +kernel
  have hgood : ∀ r ∈ d.relas smallImage, r.Good smallImage d.symtab d.strtab := by
    rw [hrelas]
    unfold Rela.Good
    decide +kernel
  have hvalues : (d.relas smallImage).map (fun r => (r.target 0x1000,
      r.value smallImage d.symtab 0x1000)) =
        [(0x1500, 0x1010), (0x1508, 0x1744), (0x1510, 0x1740)] := by
    rw [hrelas]
    decide +kernel
  obtain ⟨m', hmain, hword, -⟩ := (rtld_relocates hload hsep).1 hgood (by decide) (by decide)
  have hstored : ∀ p ∈ (d.relas smallImage).map (fun r => (r.target 0x1000,
      r.value smallImage d.symtab 0x1000)), word m' p.1 = p.2 := by
    rw [List.forall_mem_map]
    exact hword
  rw [hvalues] at hstored
  exact ⟨m', hmain, hstored (0x1500, 0x1010) (by simp), hstored (0x1508, 0x1744) (by simp),
    hstored (0x1510, 0x1740) (by simp)⟩

end VoidOS.Rtld
