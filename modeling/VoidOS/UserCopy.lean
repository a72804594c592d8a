import VoidOS.Vmm

namespace VoidOS.Mm

open ByteMem PageTree

def userLimit : ℕ := 0x0000800000000000

def pageDown (a : ℕ) : ℕ := a / pageSize * pageSize

def pageOk (pte : ℕ) (needWrite : Bool) : Bool :=
  present pte && user pte && (!needWrite || writable pte)

/-- `user_range_ok` for a process that is not `NULL`. -/
def userRangeOk (m : Mem) (cr3 base len : ℕ) (needWrite : Bool) : Bool :=
  if len = 0 then false
  else if userLimit ≤ base then false
  else if userLimit < len then false
  else if add64 base len < base then false
  else if userLimit < add64 base len then false
  else
    let first := pageDown base
    let last := pageDown (base + len - 1)
    (List.range ((last - first) / pageSize + 1)).all fun k =>
      pageOk (vmmGetPte m cr3 (first + k * pageSize)) needWrite

/-- How many bytes a copy of `len` bytes moves in the round that starts at byte `done`. -/
def chunkAt (base len done : ℕ) : ℕ :=
  let va := base + done
  let offset := va - pageDown va
  min (pageSize - offset) (len - done)

/-- The loop of `copy_from_user`; every round copies a byte, so `len` rounds are enough. -/
def copyInFrom (m : Mem) (cr3 usrc len : ℕ) : ℕ → ℕ → Option (List UInt8)
  | 0, _ => some []
  | fuel + 1, done =>
    if len ≤ done then some []
    else
      let chunk := chunkAt usrc len done
      let phys := vmmVirtToPhys m cr3 (usrc + done)
      if phys = 0 then none
      else (copyInFrom m cr3 usrc len fuel (done + chunk)).map
        ((List.range chunk).map (fun i => m (phys + i)) ++ ·)

/-- `copy_from_user`: the bytes, unless it returned `false`. -/
def copyFromUser (m : Mem) (cr3 usrc len : ℕ) : Option (List UInt8) :=
  if !userRangeOk m cr3 usrc len false then none else copyInFrom m cr3 usrc len len 0

def copyOutFrom (cr3 udst : ℕ) (src : List UInt8) : ℕ → ℕ → Mem → Mem × Bool
  | 0, _, m => (m, true)
  | fuel + 1, done, m =>
    if src.length ≤ done then (m, true)
    else
      let chunk := chunkAt udst src.length done
      let phys := vmmVirtToPhys m cr3 (udst + done)
      if phys = 0 then (m, false)
      else copyOutFrom cr3 udst src fuel (done + chunk) (blit m phys ((src.drop done).take chunk))

/-- `copy_to_user`: the memory, and whether it returned `true`. -/
def copyToUser (m : Mem) (cr3 udst : ℕ) (src : List UInt8) : Mem × Bool :=
  if !userRangeOk m cr3 udst src.length true then (m, false)
  else copyOutFrom cr3 udst src src.length 0 m

/-- The byte a process reads at a virtual address. -/
def userByte (m : Mem) (cr3 v : ℕ) : UInt8 := m (vmmVirtToPhys m cr3 v)

def userBytes (m : Mem) (cr3 v n : ℕ) : List UInt8 :=
  (List.range n).map fun i => userByte m cr3 (v + i)

section Translation

variable {m : Mem} {cr3 v i : ℕ}

theorem or_eq_add {a b k : ℕ} (ha : a % 2 ^ k = 0) (hb : b < 2 ^ k) : a ||| b = a + b := by
  have hdiv : 2 ^ k * (a / 2 ^ k) = a := by
    rw [Nat.mul_comm]
    exact Nat.div_mul_cancel (Nat.dvd_of_mod_eq_zero ha)
  rw [← hdiv]
  exact (Nat.two_pow_add_eq_or_of_lt hb _).symm

theorem and_mask_mod {w k n : ℕ} : (w &&& (2 ^ n - 1) * 2 ^ k) % 2 ^ k = 0 := by
  apply Nat.eq_of_testBit_eq
  intro j
  rw [Nat.testBit_mod_two_pow, Nat.testBit_and, Nat.testBit_mul_two_pow, Nat.zero_testBit]
  by_cases hj : j < k
  · simp [Nat.not_le.mpr hj]
  · simp [hj]

theorem idx_add (h : v % pageSize + i < pageSize) : pml4Idx (v + i) = pml4Idx v ∧
    pdptIdx (v + i) = pdptIdx v ∧ pdIdx (v + i) = pdIdx v ∧ ptIdx (v + i) = ptIdx v := by
  unfold pageSize at h
  unfold pml4Idx pdptIdx pdIdx ptIdx
  omega

theorem vmmVirtToPhys_add (hv : vmmVirtToPhys m cr3 v ≠ 0) (h : v % pageSize + i < pageSize) :
    vmmVirtToPhys m cr3 (v + i) = vmmVirtToPhys m cr3 v + i := by
  obtain ⟨h₁, h₂, h₃, h₄⟩ := idx_add h
  have hpage : v % pageSize = v % 2 ^ 12 := rfl
  rw [hpage, show pageSize = 2 ^ 12 from rfl] at h
  have e₁ : 0xFFFFC0000000 = (2 ^ 18 - 1) * 2 ^ 30 := by norm_num
  have e₂ : 0xFFFFFFE00000 = (2 ^ 27 - 1) * 2 ^ 21 := by norm_num
  have m₁ : ∀ w, (w &&& 0xFFFFC0000000) % 2 ^ 30 = 0 := fun w => e₁ ▸ and_mask_mod
  have m₂ : ∀ w, (w &&& 0xFFFFFFE00000) % 2 ^ 21 = 0 := fun w => e₂ ▸ and_mask_mod
  have m₃ : ∀ w, addr w % 2 ^ 12 = 0 := fun w => addr_mod w
  have b₁ : ∀ a, a % 2 ^ 30 < 2 ^ 30 := fun a => Nat.mod_lt _ (by norm_num)
  have b₂ : ∀ a, a % 2 ^ 21 < 2 ^ 21 := fun a => Nat.mod_lt _ (by norm_num)
  have b₃ : ∀ a, a % 2 ^ 12 < 2 ^ 12 := fun a => Nat.mod_lt _ (by norm_num)
  unfold vmmVirtToPhys at hv ⊢
  dsimp only at hv ⊢
  rw [h₁, h₂, h₃, h₄]
  split at hv
  · exact absurd rfl hv
  rename_i c₁
  rw [if_neg c₁, if_neg c₁]
  split at hv
  · exact absurd rfl hv
  rename_i c₂
  rw [if_neg c₂, if_neg c₂]
  split at hv
  · rename_i c₃
    rw [if_pos c₃, if_pos c₃, or_eq_add (m₁ _) (b₁ _), or_eq_add (m₁ _) (b₁ _)]
    omega
  rename_i c₃
  rw [if_neg c₃, if_neg c₃]
  split at hv
  · exact absurd rfl hv
  rename_i c₄
  rw [if_neg c₄, if_neg c₄]
  split at hv
  · rename_i c₅
    rw [if_pos c₅, if_pos c₅, or_eq_add (m₂ _) (b₂ _), or_eq_add (m₂ _) (b₂ _)]
    omega
  rename_i c₅
  rw [if_neg c₅, if_neg c₅]
  split at hv
  · exact absurd rfl hv
  rename_i c₆
  rw [if_neg c₆, if_neg c₆, or_eq_add (m₃ _) (b₃ _), or_eq_add (m₃ _) (b₃ _)]
  omega

end Translation

section Copies

variable {m : Mem} {cr3 base len done fuel : ℕ}

/-- A round stays in one page, and moves something while something is left. -/
theorem chunkAt_spec (base : ℕ) (h : done < len) : 0 < chunkAt base len done ∧
    done + chunkAt base len done ≤ len ∧
    ∀ i < chunkAt base len done, (base + done) % pageSize + i < pageSize := by
  have hoff : base + done - pageDown (base + done) = (base + done) % pageSize := by
    unfold pageDown
    have := Nat.div_add_mod (base + done) pageSize
    rw [Nat.mul_comm] at this
    omega
  have hlt : (base + done) % pageSize < pageSize := Nat.mod_lt _ (by decide)
  unfold chunkAt
  dsimp only
  rw [hoff]
  refine ⟨?_, ?_, ?_⟩
  · omega
  · omega
  · intro i hi
    omega

/-- Every byte of the buffer has a physical address. -/
def Mapped (m : Mem) (cr3 base len : ℕ) : Prop :=
  ∀ i < len, vmmVirtToPhys m cr3 (base + i) ≠ 0

theorem copyInFrom_eq (hm : Mapped m cr3 base len) (hfuel : len - done ≤ fuel) :
    copyInFrom m cr3 base len fuel done = some (userBytes m cr3 (base + done) (len - done)) := by
  induction fuel generalizing done with
  | zero =>
    rw [Nat.le_zero.mp hfuel]
    rfl
  | succ fuel ih =>
    rw [copyInFrom]
    split
    · rename_i hdone
      rw [Nat.sub_eq_zero_of_le hdone]
      rfl
    · rename_i hdone
      obtain ⟨hpos, hle, hpage⟩ := chunkAt_spec base (Nat.not_le.mp hdone)
      have hphys := hm done (by omega)
      dsimp only
      rw [if_neg hphys, ih (by omega), Option.map_some]
      -- the bytes of this round, then those of the rounds that follow
      have hsplit : len - done = chunkAt base len done + (len - (done + chunkAt base len done)) := by
        omega
      rw [userBytes, userBytes, hsplit, List.range_add, List.map_append, List.map_map]
      congr 2
      · apply List.map_congr_left
        intro i hi
        rw [userByte, vmmVirtToPhys_add hphys (hpage i (List.mem_range.mp hi))]
      · congr 1
        · funext i
          rw [Function.comp_apply]
          congr 1
          omega

theorem copyFromUser_eq (hok : userRangeOk m cr3 base len false = true)
    (hm : Mapped m cr3 base len) :
    copyFromUser m cr3 base len = some (userBytes m cr3 base len) := by
  rw [copyFromUser, hok, Bool.not_true, if_neg Bool.false_ne_true, copyInFrom_eq hm (by omega)]
  rfl

def InBuffer (base len v : ℕ) : Prop := base ≤ v ∧ v < base + len

/-- Memories that differ at most where the addresses in `A` lead. -/
def SameOutside (m m' : Mem) (cr3 : ℕ) (A : ℕ → Prop) : Prop :=
  ∀ x, (∀ v, A v → x ≠ vmmVirtToPhys m cr3 v) → m' x = m x

/-- Addresses the kernel can write through: no two of them share a place, and no store
there changes how they are translated. -/
structure Private (m : Mem) (cr3 : ℕ) (A : ℕ → Prop) : Prop where
  mapped : ∀ v, A v → vmmVirtToPhys m cr3 v ≠ 0
  inj : ∀ v w, A v → A w → vmmVirtToPhys m cr3 v = vmmVirtToPhys m cr3 w → v = w
  stable : ∀ m', SameOutside m m' cr3 A → ∀ v, A v →
    vmmVirtToPhys m' cr3 v = vmmVirtToPhys m cr3 v ∧ vmmGetPte m' cr3 v = vmmGetPte m cr3 v

variable {m' m₀ : Mem} {A B : ℕ → Prop} {src : List UInt8}

theorem Private.mono (hp : Private m cr3 B) (hAB : ∀ v, A v → B v) : Private m cr3 A := by
  refine ⟨fun v hv => hp.mapped v (hAB v hv),
    fun v w hv hw => hp.inj v w (hAB v hv) (hAB w hw), fun m' hsame v hv => ?_⟩
  apply hp.stable m' _ v (hAB v hv)
  intro x hx
  exact hsame x fun w hw => hx w (hAB w hw)

theorem Private.after (hp : Private m cr3 A) (hs : SameOutside m m' cr3 A) : Private m' cr3 A := by
  have htr := hp.stable m' hs
  have hto : ∀ m'', SameOutside m' m'' cr3 A → SameOutside m m'' cr3 A := by
    intro m'' h x hx
    rw [h x fun v hv => (htr v hv).1 ▸ hx v hv, hs x hx]
  refine ⟨fun v hv => (htr v hv).1 ▸ hp.mapped v hv, fun v w hv hw he => ?_, fun m'' h v hv => ?_⟩
  · rw [(htr v hv).1, (htr w hw).1] at he
    exact hp.inj v w hv hw he
  · obtain ⟨h₁, h₂⟩ := hp.stable m'' (hto m'' h) v hv
    exact ⟨h₁.trans (htr v hv).1.symm, h₂.trans (htr v hv).2.symm⟩

/-- `m'` is `m` with the first `n` bytes of `src` stored in the buffer. -/
structure Stored (m m' : Mem) (cr3 base : ℕ) (src : List UInt8) (n : ℕ) : Prop where
  inside : ∀ i < n, m' (vmmVirtToPhys m cr3 (base + i)) = src.getD i 0
  outside : SameOutside m m' cr3 (InBuffer base n)

theorem Stored.zero : Stored m m cr3 base src 0 :=
  ⟨fun _ h => absurd h (Nat.not_lt_zero _), fun _ _ => rfl⟩

theorem SameOutside.mono (h : SameOutside m m' cr3 A) (hAB : ∀ v, A v → B v) :
    SameOutside m m' cr3 B := fun x hx => h x fun v hv => hx v (hAB v hv)

theorem InBuffer.le {n v : ℕ} (hn : n ≤ len) (h : InBuffer base n v) : InBuffer base len v := by
  unfold InBuffer at h ⊢
  omega

theorem InBuffer.add (base : ℕ) {i : ℕ} (hi : i < len) : InBuffer base len (base + i) := by
  unfold InBuffer
  omega

theorem Private.stored (hp : Private m₀ cr3 (InBuffer base src.length))
    (hs : Stored m₀ m cr3 base src done) (hdone : done ≤ src.length) {i : ℕ}
    (hi : i < src.length) : vmmVirtToPhys m cr3 (base + i) = vmmVirtToPhys m₀ cr3 (base + i) :=
  (hp.stable m (hs.outside.mono fun _ => InBuffer.le hdone) _ (InBuffer.add base hi)).1

theorem Stored.round (hp : Private m₀ cr3 (InBuffer base src.length))
    (hs : Stored m₀ m cr3 base src done) (hdone : done < src.length) :
    Stored m₀ (blit m (vmmVirtToPhys m cr3 (base + done))
      ((src.drop done).take (chunkAt base src.length done))) cr3 base src
      (done + chunkAt base src.length done) := by
  obtain ⟨-, hle, hpage⟩ := chunkAt_spec base hdone
  have hlen : ((src.drop done).take (chunkAt base src.length done)).length =
      chunkAt base src.length done := by
    rw [List.length_take, List.length_drop]
    omega
  -- the bytes of the round lie where the whole buffer has them
  have hphys : ∀ k < chunkAt base src.length done,
      vmmVirtToPhys m₀ cr3 (base + (done + k)) = vmmVirtToPhys m₀ cr3 (base + done) + k := by
    intro k hk
    rw [← add_assoc]
    exact vmmVirtToPhys_add (hp.mapped _ (InBuffer.add base hdone)) (hpage k hk)
  rw [hp.stored hs hdone.le hdone]
  refine ⟨fun i hi => ?_, fun x hx => ?_⟩
  · by_cases hid : i < done
    · rw [blit_apply, hs.inside i hid]
      -- an earlier byte shares no place with this round
      by_contra hin
      rw [hlen] at hin
      obtain ⟨k, hk⟩ := Nat.exists_eq_add_of_le (by omega : vmmVirtToPhys m₀ cr3 (base + done) ≤
        vmmVirtToPhys m₀ cr3 (base + i))
      have hkc : k < chunkAt base src.length done := by omega
      have := hp.inj _ _ (InBuffer.add base (by omega : i < _))
        (InBuffer.add base (by omega : done + k < _)) (by rw [hk, hphys k hkc])
      omega
    · obtain ⟨k, rfl⟩ := Nat.exists_eq_add_of_le (Nat.not_lt.mp hid)
      have hk : k < chunkAt base src.length done := by omega
      rw [hphys k hk, blit_add (by omega)]
      rw [List.getD_eq_getElem?_getD, List.getD_eq_getElem?_getD, List.getElem?_take_of_lt hk,
        List.getElem?_drop]
  · rw [blit_apply]
    · exact hs.outside x fun v hv => hx v (hv.le (by omega))
    · by_contra hin
      rw [hlen] at hin
      obtain ⟨k, hk⟩ := Nat.exists_eq_add_of_le (by omega : vmmVirtToPhys m₀ cr3 (base + done) ≤ x)
      have hkc : k < chunkAt base src.length done := by omega
      exact hx _ (InBuffer.add base (by omega : done + k < _)) (by rw [hk, hphys k hkc])

theorem copyOutFrom_stored (hp : Private m₀ cr3 (InBuffer base src.length))
    (hs : Stored m₀ m cr3 base src done) (hdone : done ≤ src.length)
    (hfuel : src.length - done ≤ fuel) :
    (copyOutFrom cr3 base src fuel done m).2 = true ∧
      Stored m₀ (copyOutFrom cr3 base src fuel done m).1 cr3 base src src.length := by
  induction fuel generalizing done m with
  | zero =>
    have hend : done = src.length := by omega
    subst hend
    exact ⟨rfl, hs⟩
  | succ fuel ih =>
    rw [copyOutFrom]
    split
    · have hend : done = src.length := by omega
      subst hend
      exact ⟨rfl, hs⟩
    · rename_i hlt
      rw [Nat.not_le] at hlt
      obtain ⟨hpos, hle, -⟩ := chunkAt_spec base hlt
      have hphys : vmmVirtToPhys m cr3 (base + done) ≠ 0 := by
        rw [hp.stored hs hdone hlt]
        exact hp.mapped _ (InBuffer.add base hlt)
      dsimp only
      rw [if_neg hphys]
      exact ih (hs.round hp hlt) hle (by omega)

theorem copyToUser_stored (src : List UInt8)
    (hok : userRangeOk m cr3 base src.length true = true)
    (hp : Private m cr3 (InBuffer base src.length)) :
    (copyToUser m cr3 base src).2 = true ∧
      Stored m (copyToUser m cr3 base src).1 cr3 base src src.length := by
  rw [copyToUser, hok, Bool.not_true, if_neg Bool.false_ne_true]
  exact copyOutFrom_stored hp Stored.zero (Nat.zero_le _) (by omega)

/-- The process reads the bytes back, also after stores to other private addresses. -/
theorem Stored.userBytes (hp : Private m₀ cr3 A) (hin : ∀ v, InBuffer base src.length v → A v)
    (hs : Stored m₀ m cr3 base src src.length) (hsame : SameOutside m m' cr3 B)
    (hB : ∀ v, B v → A v ∧ ¬ InBuffer base src.length v) :
    userBytes m' cr3 base src.length = src := by
  have hpm := hp.after (hs.outside.mono hin)
  have htr : ∀ v, A v → vmmVirtToPhys m' cr3 v = vmmVirtToPhys m cr3 v := fun v hv =>
    (hpm.stable m' (hsame.mono fun w hw => (hB w hw).1) v hv).1
  apply List.ext_getElem
  · rw [Mm.userBytes, List.length_map, List.length_range]
  · intro i h₁ h₂
    have hi := InBuffer.add base h₂
    simp only [Mm.userBytes, List.getElem_map, List.getElem_range, userByte]
    rw [htr _ (hin _ hi), hsame]
    · rw [(hp.stable m (hs.outside.mono hin) _ (hin _ hi)).1, hs.inside i h₂,
        List.getD_eq_getElem _ _ h₂]
    · intro v hv he
      have := hpm.inj _ _ (hin _ hi) (hB v hv).1 he
      exact (hB v hv).2 (this ▸ hi)

end Copies

section Range

variable {m m' : Mem} {cr3 base len : ℕ} {needWrite : Bool}

theorem vmmGetPte_congr {v w : ℕ} (h : v / pageSize = w / pageSize) :
    vmmGetPte m cr3 v = vmmGetPte m cr3 w := by
  have hidx : pml4Idx v = pml4Idx w ∧ pdptIdx v = pdptIdx w ∧ pdIdx v = pdIdx w ∧
      ptIdx v = ptIdx w := by
    unfold pageSize at h
    unfold pml4Idx pdptIdx pdIdx ptIdx
    omega
  obtain ⟨h₁, h₂, h₃, h₄⟩ := hidx
  unfold vmmGetPte
  rw [h₁, h₂, h₃, h₄]

/-- The check passes for the ranges of the lower half all of whose bytes are in good pages. -/
theorem userRangeOk_iff : userRangeOk m cr3 base len needWrite = true ↔
    0 < len ∧ base + len ≤ userLimit ∧
      ∀ i < len, pageOk (vmmGetPte m cr3 (base + i)) needWrite = true := by
  have hlim : userLimit = 2 ^ 47 := by decide
  unfold userRangeOk
  rw [add64_eq_mod]
  split
  · simp_all
  split
  · simp only [Bool.false_eq_true, false_iff]
    omega
  split
  · simp only [Bool.false_eq_true, false_iff]
    omega
  split
  · omega
  split
  · simp only [Bool.false_eq_true, false_iff]
    omega
  dsimp only
  simp only [List.all_eq_true, List.mem_range]
  constructor
  · intro h
    refine ⟨by omega, by omega, fun i hi => ?_⟩
    -- the page that holds the byte is one of those the loop visits
    have hk := h ((base + i) / pageSize - base / pageSize) (by unfold pageDown pageSize; omega)
    rwa [vmmGetPte_congr (w := base + i)] at hk
    unfold pageDown pageSize
    omega
  · rintro ⟨-, -, h⟩ k hk
    -- a page the loop visits holds a byte of the range
    have hi := h (pageDown base + k * pageSize - base) (by unfold pageDown pageSize at hk ⊢; omega)
    rwa [vmmGetPte_congr (w := pageDown base + k * pageSize)] at hi
    unfold pageDown pageSize at hk ⊢
    omega

theorem Private.userRangeOk {A : ℕ → Prop} (hp : Private m cr3 A) (hs : SameOutside m m' cr3 A)
    (hin : ∀ v, InBuffer base len v → A v) :
    userRangeOk m' cr3 base len needWrite = userRangeOk m cr3 base len needWrite := by
  rw [Bool.eq_iff_iff, userRangeOk_iff, userRangeOk_iff]
  have hpte : ∀ i < len, vmmGetPte m' cr3 (base + i) = vmmGetPte m cr3 (base + i) := fun i hi =>
    (hp.stable m' hs _ (hin _ (InBuffer.add base hi))).2
  constructor
  · rintro ⟨h₁, h₂, h⟩
    exact ⟨h₁, h₂, fun i hi => hpte i hi ▸ h i hi⟩
  · rintro ⟨h₁, h₂, h⟩
    exact ⟨h₁, h₂, fun i hi => (hpte i hi).symm ▸ h i hi⟩

end Range

end VoidOS.Mm
