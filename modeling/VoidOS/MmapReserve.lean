import VoidOS.SpaceInv

namespace VoidOS.Mm

open ByteMem PageTree

def Clear (m : Mem) (cr3 start stop : ℕ) : Prop :=
  ∀ v, start ≤ v → v < stop → present (vmmGetPte m cr3 v) = false

/-- A place for `size` bytes between the floor and the stack. -/
structure IsWindow (m : Mem) (cr3 floor size base : ℕ) : Prop where
  aligned : base % pageSize = 0
  floor : floor ≤ base
  top : base + size ≤ userMmapTop
  clear : Clear m cr3 base (base + size)

def HighestWindow (m : Mem) (cr3 floor size : ℕ) : Option ℕ → Prop
  | some base => IsWindow m cr3 floor size base ∧
      ∀ b, IsWindow m cr3 floor size b → b ≤ base
  | none => ∀ b, ¬ IsWindow m cr3 floor size b

/-- The base of the window that the loop of `um_mmap_reserve` tries after `base`. -/
def nextBase (m : Mem) (cr3 size base : ℕ) : ℕ :=
  pageDown (sub64 (highestPresent m cr3 base (add64 base size)) size)

/-- The loop of `um_mmap_reserve` ends after finitely many rounds with this result. -/
inductive ReserveEnds (m : Mem) (cr3 size floor : ℕ) : ℕ → Option ℕ → Prop
  | clear {base} (h : umRangeClear m cr3 base (add64 base size) = true) :
      ReserveEnds m cr3 size floor base (some base)
  | low {base} (h : umRangeClear m cr3 base (add64 base size) = false)
      (hlow : nextBase m cr3 size base < floor) : ReserveEnds m cr3 size floor base none
  | sink {base r} (h : umRangeClear m cr3 base (add64 base size) = false)
      (hnext : floor ≤ nextBase m cr3 size base)
      (hr : ReserveEnds m cr3 size floor (nextBase m cr3 size base) r) :
      ReserveEnds m cr3 size floor base r

section Windows

variable {m : Mem} {cr3 start stop base size floor v n fuel : ℕ}

theorem userMmapTop_lt : userMmapTop < 2 ^ 47 := by decide

theorem pageDown_of_aligned (h : v % pageSize = 0) : pageDown v = v :=
  Nat.div_mul_cancel (Nat.dvd_of_mod_eq_zero h)

theorem umRangeClear_iff (hs : start % pageSize = 0) (hlt : start < stop) :
    umRangeClear m cr3 start stop = true ↔ Clear m cr3 start stop := by
  unfold umRangeClear
  rw [if_neg (by omega), pageDown_of_aligned hs]
  simp only [List.all_eq_true, List.mem_range, Bool.not_eq_eq_eq_not, Bool.not_true]
  constructor
  · intro h v hl hr
    -- the page that holds the address is one of those the loop visits
    have hk := h ((v - start) / pageSize) (by unfold pagesTo pageSize; omega)
    rwa [vmmGetPte_congr (w := v)] at hk
    unfold pageSize at *
    omega
  · intro h k hk
    apply h
    · omega
    · unfold pagesTo pageSize at *
      omega

theorem highest_foldl (n : ℕ) :
    let occ := (List.range n).foldl (fun occ k =>
      if present (vmmGetPte m cr3 (base + k * pageSize)) then base + k * pageSize else occ) base
    (∀ j < n, present (vmmGetPte m cr3 (base + j * pageSize)) = false) ∨
      ∃ k < n, occ = base + k * pageSize ∧ present (vmmGetPte m cr3 occ) = true ∧
        ∀ j, k < j → j < n → present (vmmGetPte m cr3 (base + j * pageSize)) = false := by
  induction n with
  | zero => exact Or.inl fun j hj => absurd hj (Nat.not_lt_zero j)
  | succ n ih =>
    dsimp only at ih ⊢
    rw [List.range_succ, List.foldl_append, List.foldl_cons, List.foldl_nil]
    by_cases hp : present (vmmGetPte m cr3 (base + n * pageSize)) = true
    · rw [if_pos hp]
      exact Or.inr ⟨n, Nat.lt_succ_self n, rfl, hp, fun j h₁ h₂ => by omega⟩
    · rw [if_neg hp]
      rw [Bool.not_eq_true] at hp
      have hstep : ∀ j, j < n + 1 → (j < n → present (vmmGetPte m cr3 (base + j * pageSize)) =
          false) → present (vmmGetPte m cr3 (base + j * pageSize)) = false := by
        intro j hj h
        rcases Nat.lt_succ_iff_lt_or_eq.mp hj with hj | rfl
        · exact h hj
        · exact hp
      rcases ih with ih | ⟨k, hk, hocc, hpres, ih⟩
      · exact Or.inl fun j hj => hstep j hj (ih j)
      · exact Or.inr ⟨k, by omega, hocc, hpres, fun j h₁ h₂ => hstep j h₂ (ih j h₁)⟩

theorem highestPresent_spec (hb : base % pageSize = 0) (hs : size % pageSize = 0)
    (hc : ¬ Clear m cr3 base (base + size)) :
    ∃ occ, highestPresent m cr3 base (base + size) = occ ∧ occ % pageSize = 0 ∧ base ≤ occ ∧
      occ < base + size ∧ present (vmmGetPte m cr3 occ) = true ∧
      Clear m cr3 (occ + pageSize) (base + size) := by
  have hn : pagesTo base (base + size) = size / pageSize := by
    unfold pagesTo pageSize at *
    omega
  have hpages : ∀ v, base ≤ v → v < base + size → (v - base) / pageSize < size / pageSize ∧
      vmmGetPte m cr3 v = vmmGetPte m cr3 (base + (v - base) / pageSize * pageSize) := by
    intro v hl hr
    refine ⟨by unfold pageSize at *; omega, vmmGetPte_congr ?_⟩
    unfold pageSize at *
    omega
  have hspec := @highest_foldl m cr3 base (size / pageSize)
  dsimp only at hspec
  refine ⟨_, rfl, ?_⟩
  unfold highestPresent
  rw [hn]
  rcases hspec with h | ⟨k, hk, hocc, hpres, h⟩
  · refine absurd (fun v hl hr => ?_) hc
    obtain ⟨hj, he⟩ := hpages v hl hr
    rw [he]
    exact h _ hj
  · refine ⟨?_, ?_, ?_, hpres, fun v hl hr => ?_⟩
    · rw [hocc]
      unfold pageSize at *
      omega
    · omega
    · rw [hocc]
      unfold pageSize at *
      omega
    · rw [hocc] at hl
      obtain ⟨hj, he⟩ := hpages v (by omega) hr
      rw [he]
      apply h _ _ hj
      unfold pageSize at *
      omega

end Windows

section Search

variable {m : Mem} {cr3 base size floor fuel : ℕ} {r : Option ℕ}

/-- How the search can end: with the highest window; without one, below the floor, under a page
above `size`; or, where there is none, with a base that has wrapped around. -/
def SearchResult (m : Mem) (cr3 floor size : ℕ) (r : Option ℕ) : Prop :=
  (∃ base, r = some base ∧ HighestWindow m cr3 floor size (some base)) ∨
  ((∀ b, ¬ IsWindow m cr3 floor size b) ∧ ¬ Clear m cr3 size (floor + size) ∧ r = none) ∨
  ((∀ b, ¬ IsWindow m cr3 floor size b) ∧ Clear m cr3 size (floor + size) ∧
    ∃ base, r = some base ∧ userMmapTop < base ∧ add64 base size ≤ base)

/-- A window that starts in the `size` bytes up to a present page holds it. -/
theorem IsWindow.apart {b occ : ℕ} (h : IsWindow m cr3 floor size b)
    (hp : present (vmmGetPte m cr3 occ) = true) (hl : b ≤ occ) : b + size ≤ occ := by
  by_contra hc
  have := h.clear occ hl (by omega)
  rw [hp] at this
  cases this

theorem umMmapReserveLoop_spec (hsize : size % pageSize = 0) (hpos : 0 < size)
    (hb : base % pageSize = 0) (hfloor : floor ≤ base) (htop : base + size ≤ userMmapTop)
    (hmax : ∀ b, IsWindow m cr3 floor size b → b ≤ base)
    (hfuel : base / pageSize + 2 ≤ fuel) :
    ReserveEnds m cr3 size floor base (umMmapReserveLoop m cr3 size floor fuel base) ∧
      SearchResult m cr3 floor size (umMmapReserveLoop m cr3 size floor fuel base) := by
  have hlim := userMmapTop_lt
  induction fuel generalizing base with
  | zero => exact absurd hfuel (Nat.not_succ_le_zero _)
  | succ fuel ih =>
    have hadd : add64 base size = base + size := add64_of_lt (by omega)
    rw [umMmapReserveLoop, hadd]
    by_cases hclear : Clear m cr3 base (base + size)
    · have hc := (umRangeClear_iff hb (by omega)).mpr hclear
      rw [if_pos hc]
      refine ⟨.clear (by rw [hadd, hc]), Or.inl ⟨base, rfl, ⟨hb, hfloor, htop, hclear⟩, hmax⟩⟩
    have hc : umRangeClear m cr3 base (base + size) = false := by
      rw [← Bool.not_eq_true, umRangeClear_iff hb (by omega)]
      exact hclear
    rw [if_neg (by rw [hc]; exact Bool.false_ne_true)]
    dsimp only
    obtain ⟨occ, hocc, hal, hl, hr, hp, habove⟩ := highestPresent_spec hb hsize hclear
    rw [hocc]
    have hnext : nextBase m cr3 size base = pageDown (sub64 occ size) := by
      rw [nextBase, hadd, hocc]
    by_cases hwrap : occ < size
    · -- the subtraction wraps, and the next window passes for clear
      have hno : ∀ b, ¬ IsWindow m cr3 floor size b := by
        intro b hw
        have := hw.apart hp (le_trans (hmax b hw) hl)
        omega
      have hsub : sub64 occ size = 2 ^ 64 + occ - size := by
        unfold sub64
        rw [Nat.mod_eq_of_lt (by omega)]
        omega
      have hdown : pageDown (sub64 occ size) = 2 ^ 64 + occ - size := by
        rw [hsub]
        apply pageDown_of_aligned
        unfold pageSize at *
        omega
      have hover : add64 (2 ^ 64 + occ - size) size ≤ 2 ^ 64 + occ - size := by
        unfold add64
        omega
      have hthen : umRangeClear m cr3 (2 ^ 64 + occ - size) (add64 (2 ^ 64 + occ - size) size) =
          true := if_pos hover
      obtain ⟨fuel, rfl⟩ := Nat.exists_eq_add_of_le' (show 1 ≤ fuel by unfold pageSize at hfuel; omega)
      rw [hdown, if_neg (by omega), umMmapReserveLoop, if_pos hthen]
      refine ⟨.sink (by rw [hadd, hc]) (by rw [hnext, hdown]; omega) ?_,
        Or.inr (Or.inr ⟨hno, ?_, _, rfl, by omega, hover⟩)⟩
      · rw [hnext, hdown]
        exact .clear hthen
      · intro v hvl hvr
        apply habove v _ (by omega)
        unfold pageSize at *
        omega
    · have hsub : sub64 occ size = occ - size := sub64_of_le (by omega) (by omega)
      have hdown : pageDown (sub64 occ size) = occ - size := by
        rw [hsub]
        apply pageDown_of_aligned
        unfold pageSize at *
        omega
      have hbelow : ∀ b, IsWindow m cr3 floor size b → b ≤ occ - size := by
        intro b hw
        have := hw.apart hp (le_trans (hmax b hw) hl)
        omega
      rw [hdown]
      by_cases hlow : occ - size < floor
      · rw [if_pos hlow]
        refine ⟨.low (by rw [hadd, hc]) (by rw [hnext, hdown]; exact hlow),
          Or.inr (Or.inl ⟨fun b hw => ?_, fun hcl => ?_, rfl⟩)⟩
        · have := hbelow b hw
          have := hw.floor
          omega
        · have := hcl occ (by omega) (by omega)
          rw [hp] at this
          cases this
      · rw [if_neg hlow]
        obtain ⟨hend, hres⟩ := @ih (occ - size) (by unfold pageSize at *; omega) (by omega)
          (by omega) hbelow (by unfold pageSize at *; omega)
        refine ⟨.sink (by rw [hadd, hc]) (by rw [hnext, hdown]; omega) ?_, hres⟩
        rw [hnext, hdown]
        exact hend

end Search

/-- The floor of `um_mmap_reserve`, as the code computes it. -/
def searchFloor (sp : Space) : ℕ :=
  max (pageDown (add64 sp.brkCurrent (pageSize - 1))) userCodeBase

/-- The first page above the break and the code base. -/
def mmapFloor (sp : Space) : ℕ :=
  max (pageDown (sp.brkCurrent + (pageSize - 1))) userCodeBase

/-- A mapping that fits at all finds a window, or there is a page between its length and the end
of the lowest window. -/
def SearchStops (m : Mem) (cr3 floor length : ℕ) : Prop :=
  floor + length ≤ userMmapTop →
    (∃ b, IsWindow m cr3 floor length b) ∨ ¬ Clear m cr3 length (floor + length)

section Reserve

variable {m : Mem} {sp : Space} {floor length : ℕ} {r : Option ℕ}

theorem umMmapReserve_spec (hlen : length % pageSize = 0) (hpos : 0 < length) :
    (userMmapTop < searchFloor sp + length → umMmapReserve m sp length = none) ∧
    (searchFloor sp + length ≤ userMmapTop →
      ReserveEnds m sp.cr3 length (searchFloor sp) (userMmapTop - length)
        (umMmapReserve m sp length) ∧
      SearchResult m sp.cr3 (searchFloor sp) length (umMmapReserve m sp length)) := by
  have hsize : length / pageSize * pageSize = length := pageDown_of_aligned hlen
  have htop : userMmapTop % pageSize = 0 := by decide
  unfold umMmapReserve
  dsimp only
  rw [hsize]
  constructor
  · intro h
    split
    · rfl
    · rw [if_pos]
      unfold searchFloor at h
      omega
  · intro h
    have hdown : pageDown (userMmapTop - length) = userMmapTop - length := by
      apply pageDown_of_aligned
      unfold pageSize at *
      omega
    rw [if_neg (by omega), if_neg (by unfold searchFloor at h; omega), hdown]
    apply umMmapReserveLoop_spec hlen hpos
    · unfold pageSize at *
      omega
    · omega
    · omega
    · intro b hw
      have := hw.top
      omega
    · have : (userMmapTop - length) / pageSize ≤ userMmapTop / pageSize :=
        Nat.div_le_div_right (Nat.sub_le _ _)
      omega

theorem SearchResult.highest (h : SearchResult m sp.cr3 floor length r)
    (hfit : floor + length ≤ userMmapTop) :
    HighestWindow m sp.cr3 floor length r ↔ SearchStops m sp.cr3 floor length := by
  rcases h with ⟨base, rfl, h⟩ | ⟨hno, hc, rfl⟩ | ⟨hno, hc, base, rfl, hbase, -⟩
  · exact ⟨fun _ _ => Or.inl ⟨base, h.1⟩, fun _ => h⟩
  · exact ⟨fun _ _ => Or.inr hc, fun _ => hno⟩
  · constructor
    · intro h
      have := h.1.top
      omega
    · intro h
      rcases h hfit with ⟨b, hb⟩ | h
      · exact absurd hb (hno b)
      · exact absurd hc h

theorem SearchResult.eq_none (h : SearchResult m sp.cr3 floor length r)
    (hfit : floor + length ≤ userMmapTop) :
    r = none ↔ SearchStops m sp.cr3 floor length ∧ ∀ b, ¬ IsWindow m sp.cr3 floor length b := by
  constructor
  · rintro rfl
    rcases h with ⟨base, hr, -⟩ | ⟨hno, hc, -⟩ | ⟨-, -, base, hr, -⟩
    · cases hr
    · exact ⟨fun _ => Or.inr hc, hno⟩
    · cases hr
  · rintro ⟨hstops, hno⟩
    rcases h with ⟨base, -, hbase⟩ | ⟨-, -, hr⟩ | ⟨-, hc, -⟩
    · exact absurd hbase.1 (hno base)
    · exact hr
    · rcases hstops hfit with ⟨b, hb⟩ | h
      · exact absurd hb (hno b)
      · exact absurd hc h

theorem no_window (h : userMmapTop < floor + length) (b : ℕ) :
    ¬ IsWindow m sp.cr3 floor length b := by
  intro hw
  have := hw.top
  have := hw.floor
  omega

end Reserve

/-- `um_mmap_reserve` ends, and finds the highest window or says that there is none, exactly when
its search stops before it wraps around. -/
theorem mmap_reserve_highest {m : Mem} {sp : Space} {length : ℕ} (hlen : length % pageSize = 0)
    (hpos : 0 < length) (hbrk : sp.brkCurrent < 2 ^ 64) :
    (searchFloor sp + length ≤ userMmapTop →
      ReserveEnds m sp.cr3 length (searchFloor sp) (userMmapTop - length)
        (umMmapReserve m sp length)) ∧
    (HighestWindow m sp.cr3 (mmapFloor sp) length (umMmapReserve m sp length) ↔
      if sp.brkCurrent + (pageSize - 1) < 2 ^ 64
      then SearchStops m sp.cr3 (mmapFloor sp) length
      else SearchStops m sp.cr3 userCodeBase length ∧
        ∀ b, ¬ IsWindow m sp.cr3 userCodeBase length b) := by
  obtain ⟨hbig, hfit⟩ := @umMmapReserve_spec m sp length hlen hpos
  refine ⟨fun h => (hfit h).1, ?_⟩
  split
  · rename_i hnowrap
    have hfloor : searchFloor sp = mmapFloor sp := by
      unfold searchFloor mmapFloor
      rw [add64_of_lt hnowrap]
    rw [hfloor] at hbig hfit
    by_cases h : mmapFloor sp + length ≤ userMmapTop
    · exact (hfit h).2.highest h
    · rw [hbig (by omega)]
      exact ⟨fun _ hc => absurd hc h, fun _ => no_window (by omega)⟩
  · -- the floor wraps around to the code base, while no address is above the break
    rename_i hwrap
    have hfloor : searchFloor sp = userCodeBase := by
      unfold searchFloor
      have : pageDown (add64 sp.brkCurrent (pageSize - 1)) = 0 := by
        unfold pageDown add64 pageSize at *
        omega
      rw [this]
      exact max_eq_right (Nat.zero_le _)
    have hhigh : userMmapTop < mmapFloor sp + length := by
      have hlim := userMmapTop_lt
      have : 2 ^ 64 ≤ pageDown (sp.brkCurrent + (pageSize - 1)) := by
        unfold pageDown pageSize at *
        omega
      have := le_max_left (pageDown (sp.brkCurrent + (pageSize - 1))) userCodeBase
      unfold mmapFloor
      omega
    have hnone : HighestWindow m sp.cr3 (mmapFloor sp) length (umMmapReserve m sp length) ↔
        umMmapReserve m sp length = none := by
      constructor
      · intro h
        cases hr : umMmapReserve m sp length with
        | none => rfl
        | some base =>
          rw [hr] at h
          exact absurd h.1 (no_window hhigh base)
      · intro h
        rw [h]
        exact no_window hhigh
    rw [hnone]
    rw [hfloor] at hbig hfit
    by_cases h : userCodeBase + length ≤ userMmapTop
    · exact (hfit h).2.eq_none h
    · exact ⟨fun _ => ⟨fun hc => absurd hc h, no_window (by omega)⟩, fun _ => hbig (by omega)⟩

section TwoPages

variable {start stop : ℕ}

theorem twoPage_clear (hrange : stop ≤ 0x5FE000 ∨ 0x600000 ≤ start) (hstop : stop ≤ userMmapTop) :
    Clear (twoPageMem 0x5007 0x6007) 0x1000 start stop := by
  intro v hl hr
  have hlim := userMmapTop_lt
  have hpte : vmmGetPte (twoPageMem 0x5007 0x6007) 0x1000 v = _ :=
    congrArg Prod.snd (twoPageMem_translation (by decide) (by decide))
  have hpage : v / pageSize % 2 ^ 36 = v / pageSize := by
    apply Nat.mod_eq_of_lt
    unfold pageSize
    omega
  dsimp only at hpte
  rw [hpte, twoPageMem_leaf (by decide) (by decide), hpage, if_neg, if_neg]
  · exact not_present_zero
  · unfold pageSize
    omega
  · unfold pageSize
    omega

end TwoPages

/-- One page below the stack is free for the process with two pages. -/
theorem mmap_reserve_highest_page :
    HighestWindow (twoPageMem 0x5007 0x6007) 0x1000 0x401000 0x1000
      (umMmapReserve (twoPageMem 0x5007 0x6007) (twoPageSpace 0x401000) 0x1000) := by
  have hfloor : mmapFloor (twoPageSpace 0x401000) = 0x401000 := by decide +kernel
  have h := (@mmap_reserve_highest (twoPageMem 0x5007 0x6007) (twoPageSpace 0x401000) 0x1000
    (by decide +kernel) (by decide) (by decide +kernel)).2
  rw [if_pos (by decide +kernel), hfloor, show (twoPageSpace 0x401000).cr3 = 0x1000 from rfl] at h
  have hwin : IsWindow (twoPageMem 0x5007 0x6007) 0x1000 0x401000 0x1000 (userMmapTop - 0x1000) :=
    ⟨by decide +kernel, by decide +kernel, by decide +kernel,
      twoPage_clear (Or.inr (by decide +kernel)) (by decide +kernel)⟩
  rw [h]
  exact fun _ => Or.inl ⟨_, hwin⟩

/-- A mapping of everything between the break and the stack: there is no window, because of the
two pages, and the call succeeds with an address beyond the stack. -/
theorem mmap_reserve_wraps :
    SpaceOk (twoPagePhys 0x5007 0x6007 7 64) (twoPageSpace 0x401000) ∧
    (∀ b, ¬ IsWindow (twoPageMem 0x5007 0x6007) 0x1000 0x401000 (userMmapTop - 0x401000) b) ∧
    ∃ base, umMmapReserve (twoPageMem 0x5007 0x6007) (twoPageSpace 0x401000)
      (userMmapTop - 0x401000) = some base ∧ userMmapTop < base := by
  have hfloor : searchFloor (twoPageSpace 0x401000) = 0x401000 := by decide +kernel
  have hno : ∀ b,
      ¬ IsWindow (twoPageMem 0x5007 0x6007) 0x1000 0x401000 (userMmapTop - 0x401000) b := by
    intro b hw
    have hlow : b ≤ 0x5FE000 := by
      have := hw.top
      have : 0x401000 ≤ userMmapTop := by decide +kernel
      omega
    have hpres := hw.clear 0x5FE000 hlow (by
      have := hw.floor
      have : 0x5FE000 < userMmapTop := by decide +kernel
      omega)
    exact absurd hpres (by decide +kernel)
  refine ⟨twoPageSpace_ok _ (by decide) (by decide) (by decide), hno, ?_⟩
  obtain ⟨-, h⟩ := (@umMmapReserve_spec (twoPageMem 0x5007 0x6007) (twoPageSpace 0x401000)
    (userMmapTop - 0x401000) (by decide +kernel) (by decide +kernel)).2 (by decide +kernel)
  rw [hfloor, show (twoPageSpace 0x401000).cr3 = 0x1000 from rfl] at h
  rcases h with ⟨base, -, hbase⟩ | ⟨-, hc, -⟩ | ⟨-, -, base, hr, hbase, -⟩
  · exact absurd hbase.1 (hno base)
  · exact absurd (twoPage_clear (Or.inr (by decide +kernel)) (by decide +kernel)) hc
  · exact ⟨base, hr, hbase⟩

end VoidOS.Mm
