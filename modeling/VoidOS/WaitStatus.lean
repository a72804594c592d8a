import VoidOS.KernelFrames
import VoidOS.PageRelease

namespace VoidOS.Mm

open ByteMem PageTree Ownership

section Destroy

variable {ph : Phys} {sp : Space} {v x : ℕ}

theorem vmmUnmapPage_tables (h : SpaceOk ph sp) (hv : v < userLimit)
    (hx : x / pageSize ∉ tablesOf ph.ram sp.cr3 UserPlaces) :
    (vmmUnmapPage ph sp.cr3 v).1.ram x = ph.ram x := by
  have hplace : UserPlaces (Mm.tables v) := h.tree.place (userPlaces_indices hv)
  rw [vmmUnmapPage_eq]
  split
  · rfl
  · rename_i pt hw
    split
    · rfl
    · refine setEntry_apply (Nat.mod_lt _ (by decide)) ?_
      by_contra hc
      exact hx (h.tree.mem_tables hplace (by rw [length_tables]) hw (by omega)
        (by unfold pageSize; omega))

theorem releasePages_tables (h : SpaceOk ph sp)
    (hx : x / pageSize ∉ tablesOf ph.ram sp.cr3 UserPlaces) :
    (releasePages ph sp.cr3 sp.umap).ram x = ph.ram x ∧
      tablesOf (releasePages ph sp.cr3 sp.umap).ram sp.cr3 UserPlaces =
        tablesOf ph.ram sp.cr3 UserPlaces := by
  unfold releasePages
  obtain ⟨cr3, umap, a, b, c⟩ := sp
  dsimp only at hx ⊢
  induction umap generalizing ph with
  | nil => exact ⟨rfl, rfl⟩
  | cons e es ih =>
    have hv := h.virt e List.mem_cons_self
    have hacts : Acts ph ⟨cr3, e :: es, a, b, c⟩ (releasePage ph cr3 e) ⟨cr3, es, a, b, c⟩ :=
      (@releasePage_acts ph ⟨cr3, e :: es, a, b, c⟩ ⟨cr3, es, a, b, c⟩ e es h (List.Perm.refl _)
        rfl (List.Perm.refl _) rfl).1
    -- the frame of the page goes, and the tables stay
    have hram : (releasePage ph cr3 e).ram = (vmmUnmapPage ph cr3 e.virt).1.ram :=
      pmmFreeFrame_ram _ _
    have htables : tablesOf (releasePage ph cr3 e).ram cr3 UserPlaces =
        tablesOf ph.ram cr3 UserPlaces := by
      rw [hram]
      exact (vmmUnmapPage_acts h hv).2.2.2.1
    obtain ⟨hbyte, hrest⟩ := ih hacts.ok (by rw [htables]; exact hx)
    rw [List.foldl_cons]
    refine ⟨hbyte.trans ?_, hrest.trans htables⟩
    rw [hram]
    exact vmmUnmapPage_tables h hv hx

theorem processDestroyUserSpace_tables (h : SpaceOk ph sp)
    (hx : x / pageSize ∉ tablesOf ph.ram sp.cr3 UserPlaces) :
    (processDestroyUserSpace ph sp).1.ram x = ph.ram x := by
  have hacts := @releasePages_acts ph sp { sp with umap := [] } h rfl rfl h.perm
  obtain ⟨hbyte, htables⟩ := releasePages_tables h hx
  unfold processDestroyUserSpace
  dsimp only
  generalize releasePages ph sp.cr3 sp.umap = ph₁ at hacts hbyte htables ⊢
  have T : Tree ph₁ sp.cr3 UserPlaces := hacts.ok.tree
  obtain ⟨-, hout, -, -⟩ := freeTables_rounds T (le_refl 256) freeTables_eq
  have hroot : sp.cr3 / pageSize ∈ tablesOf ph₁.ram sp.cr3 UserPlaces := by
    rw [tablesOf_eq T.root]
    exact Or.inl rfl
  rw [pmmFreeFrame_ram, hout x, hbyte]
  intro hc
  rw [htables, ← hc] at hroot
  exact hx hroot

theorem walk_empty {m : Mem} {t a : ℕ} {p : List ℕ}
    (h : ∀ i < 256, present (entry m t i) = false) (hp : UserPlaces p)
    (hw : walk m t p = some a) : p = [] ∧ a = t := by
  cases p with
  | nil => exact ⟨rfl, (Option.some.inj hw).symm⟩
  | cons i p =>
    obtain ⟨v, hv, hpre⟩ := hp
    have hi : i = pml4Idx v := (List.cons_prefix_cons.mp hpre).1
    rw [walk, h i (hi ▸ hv)] at hw
    cases hw

theorem emptySpace_ok {f : ℕ} (hok : ph.Ok) (hf : f < ph.totalFrames) (hused : ph.used f = true)
    (h0 : f ≠ 0) (h : ∀ i < 256, present (entry ph.ram (f * pageSize) i) = false) :
    SpaceOk ph ⟨f * pageSize, [], 0, 0, 0⟩ ∧
      tablesOf ph.ram (f * pageSize) UserPlaces = {f} := by
  have hpos : 0 < pageSize := by decide
  have htables : tablesOf ph.ram (f * pageSize) UserPlaces = {f} := by
    ext g
    constructor
    · intro hg
      obtain ⟨p, hp, -, hw⟩ := hg
      exact Nat.eq_of_mul_eq_mul_right hpos (walk_empty h hp hw).2
    · intro hg
      rw [Set.mem_singleton_iff.mp hg]
      exact ⟨[], ⟨0, by decide, List.nil_prefix⟩, by decide, rfl⟩
  refine ⟨⟨hok, ⟨userPlaces, Nat.mul_mod_left _ _, ?_, ?_, ?_⟩, ?_, List.nodup_nil, ?_, ?_,
    Nat.zero_le _, show PageFlags 0 from ⟨by decide, by decide⟩, ?_⟩, htables⟩
  · intro p q a hp hq _ _ hwp hwq
    rw [(walk_empty h hp hwp).1, (walk_empty h hq hwq).1]
  · intro p a hp _ hw
    exact ⟨f, hf, hused, (walk_empty h hp hw).2⟩
  · intro p i u hp _ hw hpres
    obtain ⟨v, hv, hpre⟩ := hp
    obtain ⟨rfl, rfl⟩ := walk_empty h ⟨v, hv, (List.prefix_append p [i]).trans hpre⟩ hw
    have hi : i = pml4Idx v := (List.cons_prefix_cons.mp hpre).1
    rw [h i (hi ▸ hv)] at hpres
    cases hpres
  · intro hzero
    cases hzero with
    | inl ht =>
      have ht' : 0 ∈ tablesOf ph.ram (f * pageSize) UserPlaces := ht
      rw [htables] at ht'
      exact h0 (Set.mem_singleton_iff.mp ht').symm
    | inr hd =>
      obtain ⟨e, he, -⟩ := hd
      cases he
  · intro e he
    cases he
  · intro e he
    cases he
  · intro v hv hpres
    have hnone : walk ph.ram (f * pageSize) (Mm.tables v) = none := by
      by_contra hc
      obtain ⟨a, ha⟩ := Option.ne_none_iff_exists'.mp hc
      have hplace : UserPlaces (Mm.tables v) := userPlaces.head (Mm.tables v) (ptIdx v) (userPlaces_indices hv)
      exact absurd (walk_empty h hplace ha).1 nofun
    rw [leaf_of_walk_none hnone, not_present_zero] at hpres
    cases hpres

end Destroy

end VoidOS.Mm

namespace VoidOS.Proc

open ByteMem PageTree Ownership Mm

/-- The four bytes at the pointer are memory that the process can write. -/
def StatusWord (m : Mem) (cr3 ustatus : ℕ) : Prop :=
  ∀ j < 4, ustatus + j < userLimit ∧ pageOk (vmmGetPte m cr3 (ustatus + j)) true = true

/-- The pointer passes the test of the call exactly when it should, and what it points to lies in
one piece of physical memory. -/
structure StatusFits (m : Mem) (cr3 ustatus : ℕ) : Prop where
  word : ustatus ≠ 0 → pageOk (vmmGetPte m cr3 ustatus) true = true → StatusWord m cr3 ustatus
  piece : StatusWord m cr3 ustatus → ustatus ≠ 0 ∧
    ∀ j < 4, vmmVirtToPhys m cr3 (ustatus + j) = vmmVirtToPhys m cr3 ustatus + j

def statusByte (status : ℤ) (j : ℕ) : UInt8 := UInt8.ofNat (toU64 status / 256 ^ j)

namespace Kernel

def zombieChild (k : Kernel) (i : ℕ) (pid : ℤ) : Option ℕ :=
  (List.range maxProcesses).find? fun j =>
    k.isChild (k.procs i).pid pid j && (k.procs j).state = .zombie

/-- The state in which the child that a wait of slot `i` reaps has exited with `st`. -/
def withStatus (k : Kernel) (i : ℕ) (pid st : ℤ) : Kernel :=
  { k with procs := fun j =>
      if k.zombieChild i pid = some j then { k.procs j with exitStatus := st } else k.procs j }

/-- What a wait of slot `i` stores: the reap clears entries of the tables that it frees with the
zombie, and then the status goes to the four bytes at the pointer. -/
structure WaitWrites (k : Kernel) (i : ℕ) (pid : ℤ) (ustatus : ℕ) (k' : Kernel) : Prop where
  reap : ∀ x, (k.processTryReap (k.procs i).pid pid).1.phys.ram x ≠ k.phys.ram x →
    ∃ c, k.zombieChild i pid = some c ∧
      x / pageSize ∈ tablesOf k.phys.ram (k.procs c).space.cr3 UserPlaces
  only : ∀ x, k'.phys.ram x ≠ (k.processTryReap (k.procs i).pid pid).1.phys.ram x →
    StatusWord k.phys.ram (k.procs i).space.cr3 ustatus ∧
      ∃ j < 4, x = vmmVirtToPhys k.phys.ram (k.procs i).space.cr3 (ustatus + j)
  status : ∀ c, k.zombieChild i pid = some c →
    StatusWord k.phys.ram (k.procs i).space.cr3 ustatus → ∀ j < 4,
    k'.phys.ram (vmmVirtToPhys k.phys.ram (k.procs i).space.cr3 (ustatus + j)) =
      statusByte (k.procs c).exitStatus j

/-- The memory of the process in slot `i` and of the zombies is in order. -/
structure WaitOk (k : Kernel) (i : ℕ) : Prop where
  space : SpaceOk k.phys (k.procs i).space
  hidden : ∀ v, 256 ≤ pml4Idx v → user (vmmGetPte k.phys.ram (k.procs i).space.cr3 v) = false
  pid : ∀ c < maxProcesses, (k.procs c).state = .zombie → 0 < (k.procs c).pid
  zombie : ∀ c < maxProcesses, (k.procs c).state = .zombie → SpaceOk k.phys (k.procs c).space ∧
    Disjoint ((k.procs i).space.frames k.phys) ((k.procs c).space.frames k.phys) ∧
    ∀ v, 256 ≤ pml4Idx v → user (vmmGetPte
      (processDestroyUserSpace k.phys (k.procs c).space).1.ram (k.procs i).space.cr3 v) = false

end Kernel

section Store

variable {m m' : Mem} {cr3 u x : ℕ} {st : ℤ} {ph : Phys} {b : UInt8}

theorem exists_statusByte_ne (b : UInt8) {j : ℕ} (hj : j < 4) : ∃ st, statusByte st j ≠ b := by
  by_cases hb : b = 0
  · refine ⟨-1, ?_⟩
    rw [hb]
    interval_cases j <;> decide
  · refine ⟨0, fun hc => hb ?_⟩
    rw [← hc]
    interval_cases j <;> decide

theorem statusByte_inj {j j' : ℕ} (hj : j < 4) (hj' : j' < 4)
    (h : ∀ st, statusByte st j = statusByte st j') : j = j' := by
  by_contra hne
  have hone := h (256 ^ j)
  interval_cases j <;> interval_cases j' <;> first | exact hne rfl | exact absurd hone (by decide)

theorem storeStatus_skip (h : ¬ (u ≠ 0 ∧ pageOk (vmmGetPte ph.ram cr3 u) true = true)) :
    Kernel.storeStatus ph cr3 u st = ph := by
  unfold Kernel.storeStatus
  split
  · rfl
  · rename_i hu
    rw [if_pos]
    simpa using fun hok => h ⟨hu, hok⟩

theorem storeStatus_word (hu : u ≠ 0) (hok : pageOk (vmmGetPte ph.ram cr3 u) true = true)
    (hp : vmmVirtToPhys ph.ram cr3 u ≠ 0) :
    (Kernel.storeStatus ph cr3 u st).ram x =
      if vmmVirtToPhys ph.ram cr3 u ≤ x ∧ x < vmmVirtToPhys ph.ram cr3 u + 4 then
        statusByte st (x - vmmVirtToPhys ph.ram cr3 u) else ph.ram x := by
  unfold Kernel.storeStatus
  rw [if_neg hu, hok, Bool.not_true, if_neg Bool.false_ne_true]
  dsimp only
  rw [if_neg hp]
  rfl

end Store

section Wait

variable {k k' : Kernel} {i c u v : ℕ} {pid : ℤ}

theorem zombieChild_spec (hz : k.zombieChild i pid = some c) :
    c < maxProcesses ∧ (k.procs c).state = .zombie := by
  have hp := List.find?_some hz
  simp only [Bool.and_eq_true, decide_eq_true_eq] at hp
  exact ⟨List.mem_range.mp (List.mem_of_find?_eq_some hz), hp.2⟩

theorem tryReap_zombie (hz : k.zombieChild i pid = some c) :
    k.processTryReap (k.procs i).pid pid =
      ({ k.processDestroy c with
          reaps := k.reaps ++ [⟨(k.procs i).pid, (k.procs c).pid, (k.procs c).exitStatus⟩] },
        (k.procs c).pid, (k.procs c).exitStatus) := by
  unfold Kernel.processTryReap
  unfold Kernel.zombieChild at hz
  rw [hz]

theorem tryReap_idle (hz : k.zombieChild i pid = none) :
    ∃ r ≤ 0, k.processTryReap (k.procs i).pid pid = (k, r, 0) := by
  unfold Kernel.processTryReap
  unfold Kernel.zombieChild at hz
  rw [hz]
  dsimp only
  split
  · exact ⟨0, le_rfl, rfl⟩
  · exact ⟨veChild, by decide, rfl⟩

theorem destroy_phys (hz : k.zombieChild i pid = some c) :
    (k.processDestroy c).phys = (processDestroyUserSpace k.phys (k.procs c).space).1 := by
  unfold Kernel.processDestroy
  rw [if_neg]
  rw [(zombieChild_spec hz).2]
  nofun

theorem wait_zombie (hi : k.processCurrent = some i) (hz : k.zombieChild i pid = some c)
    (hpos : 0 < (k.procs c).pid) :
    ∃ k', k.processWaitCurrent pid u = some k' ∧
      k'.phys = Kernel.storeStatus (processDestroyUserSpace k.phys (k.procs c).space).1
        (k.procs i).space.cr3 u (k.procs c).exitStatus := by
  unfold Kernel.processWaitCurrent
  rw [hi]
  dsimp only
  rw [tryReap_zombie hz]
  dsimp only
  rw [if_pos hpos]
  refine ⟨_, rfl, ?_⟩
  rw [← destroy_phys hz]
  rfl

theorem wait_idle (hi : k.processCurrent = some i) (hz : k.zombieChild i pid = none)
    (hw : k.processWaitCurrent pid u = some k') : k'.phys = k.phys := by
  obtain ⟨r, hr, hreap⟩ := tryReap_idle hz
  unfold Kernel.processWaitCurrent at hw
  rw [hi] at hw
  dsimp only at hw
  rw [hreap] at hw
  dsimp only at hw
  rw [if_neg (by omega)] at hw
  split at hw
  · cases hw
    rfl
  · split at hw
    · cases hw
    · rename_i ht
      cases hw
      obtain ⟨sc, -, rfl⟩ := tick_eq_some ht
      rfl
    · rename_i ht
      cases hw
      obtain ⟨sc, -, rfl⟩ := tick_eq_some ht
      rfl

theorem Kernel.WaitOk.untouched (h : k.WaitOk i) (hz : k.zombieChild i pid = some c)
    (hv : pml4Idx v < 256) :
    vmmGetPte (processDestroyUserSpace k.phys (k.procs c).space).1.ram (k.procs i).space.cr3 v =
        vmmGetPte k.phys.ram (k.procs i).space.cr3 v ∧
      vmmVirtToPhys (processDestroyUserSpace k.phys (k.procs c).space).1.ram
          (k.procs i).space.cr3 v =
        vmmVirtToPhys k.phys.ram (k.procs i).space.cr3 v := by
  obtain ⟨hc, hzombie⟩ := zombieChild_spec hz
  obtain ⟨hok, hdis, -⟩ := h.zombie c hc hzombie
  obtain ⟨hlocal, htotal⟩ := processDestroyUserSpace_local hok
  have hplace : UserPlaces (indices v) := ⟨v, hv, List.prefix_rfl⟩
  have hsame := hlocal.frame_same h.space.frames_subset hdis
  have hafter : SpaceOk (processDestroyUserSpace k.phys (k.procs c).space).1 (k.procs i).space :=
    (h.space.congr ⟨(zero_notMem hok.phys hok.zero hlocal).2, htotal ▸ hok.phys.bound⟩ htotal
      (hlocal.frame_subset h.space.frames_subset hdis) hsame).1
  have hleaf := h.space.tree.leaf_same (hsame.mono Set.subset_union_left) hplace
  constructor
  · rw [vmmGetPte_eq (hafter.tree.noHuge hplace), vmmGetPte_eq (h.space.tree.noHuge hplace), hleaf]
  · rw [vmmVirtToPhys_eq (hafter.tree.noHuge hplace), vmmVirtToPhys_eq (h.space.tree.noHuge hplace),
      hleaf]

/-- The memory that a wait finds once it has reaped. -/
def Kernel.afterReap (k : Kernel) (c : ℕ) : Phys :=
  (processDestroyUserSpace k.phys (k.procs c).space).1

theorem Kernel.WaitOk.test (h : k.WaitOk i) (hz : k.zombieChild i pid = some c) (u : ℕ) :
    pageOk (vmmGetPte (k.afterReap c).ram (k.procs i).space.cr3 u) true =
      pageOk (vmmGetPte k.phys.ram (k.procs i).space.cr3 u) true := by
  obtain ⟨hc, hzombie⟩ := zombieChild_spec hz
  by_cases hu : pml4Idx u < 256
  · unfold Kernel.afterReap
    rw [(h.untouched hz hu).1]
  · have hafter := (h.zombie c hc hzombie).2.2 u (by omega)
    have hbefore := h.hidden u (by omega)
    unfold pageOk Kernel.afterReap
    rw [hafter, hbefore, Bool.and_false, Bool.and_false, Bool.false_and, Bool.false_and]

theorem Kernel.WaitOk.passes (h : k.WaitOk i) (hz : k.zombieChild i pid = some c)
    (hok : pageOk (vmmGetPte k.phys.ram (k.procs i).space.cr3 u) true = true) :
    vmmVirtToPhys (k.afterReap c).ram (k.procs i).space.cr3 u =
        vmmVirtToPhys k.phys.ram (k.procs i).space.cr3 u ∧
      vmmVirtToPhys k.phys.ram (k.procs i).space.cr3 u ≠ 0 := by
  simp only [pageOk, Bool.and_eq_true] at hok
  have hlow : pml4Idx u < 256 := by
    by_contra hc
    rw [h.hidden u (by omega)] at hok
    exact absurd hok.1.2 Bool.false_ne_true
  obtain ⟨f, hf, he⟩ := virtToPhys_alias h.space hlow hok.1.1
  refine ⟨(h.untouched hz hlow).2, fun hzero => ?_⟩
  have hf0 : f = 0 := by
    rw [he] at hzero
    unfold pageSize at hzero
    omega
  exact h.space.zero (Or.inr (hf0 ▸ hf))

theorem Kernel.WaitOk.stored (h : k.WaitOk i) (hz : k.zombieChild i pid = some c) (st : ℤ) (x : ℕ) :
    (Kernel.storeStatus (k.afterReap c) (k.procs i).space.cr3 u st).ram x =
      if (u ≠ 0 ∧ pageOk (vmmGetPte k.phys.ram (k.procs i).space.cr3 u) true = true) ∧
          vmmVirtToPhys k.phys.ram (k.procs i).space.cr3 u ≤ x ∧
          x < vmmVirtToPhys k.phys.ram (k.procs i).space.cr3 u + 4 then
        statusByte st (x - vmmVirtToPhys k.phys.ram (k.procs i).space.cr3 u)
      else (k.afterReap c).ram x := by
  by_cases htest : u ≠ 0 ∧ pageOk (vmmGetPte k.phys.ram (k.procs i).space.cr3 u) true = true
  · obtain ⟨hsame, hne⟩ := h.passes hz htest.2
    rw [storeStatus_word htest.1 ((h.test hz u).trans htest.2) (by rw [hsame]; exact hne), hsame]
    simp only [htest.1, htest.2, ne_eq, not_false_eq_true, true_and]
  · rw [storeStatus_skip (by rw [h.test hz u]; exact htest), if_neg fun hc => htest hc.1]

structure Kernel.StatusStored (k : Kernel) (i c u : ℕ) (st : ℤ) : Prop where
  only : ∀ x, (Kernel.storeStatus (k.afterReap c) (k.procs i).space.cr3 u st).ram x ≠
      (k.afterReap c).ram x → StatusWord k.phys.ram (k.procs i).space.cr3 u ∧
    ∃ j < 4, x = vmmVirtToPhys k.phys.ram (k.procs i).space.cr3 (u + j)
  status : StatusWord k.phys.ram (k.procs i).space.cr3 u → ∀ j < 4,
    (Kernel.storeStatus (k.afterReap c) (k.procs i).space.cr3 u st).ram
      (vmmVirtToPhys k.phys.ram (k.procs i).space.cr3 (u + j)) = statusByte st j

theorem StatusFits.stored (hfit : StatusFits k.phys.ram (k.procs i).space.cr3 u) (h : k.WaitOk i)
    (hz : k.zombieChild i pid = some c) (st : ℤ) : k.StatusStored i c u st where
  only x hx := by
    rw [h.stored hz] at hx
    split at hx
    · rename_i hin
      have hword := hfit.word hin.1.1 hin.1.2
      refine ⟨hword, x - vmmVirtToPhys k.phys.ram (k.procs i).space.cr3 u, by omega, ?_⟩
      rw [(hfit.piece hword).2 _ (by omega)]
      omega
    · exact absurd rfl hx
  status hword j hj := by
    obtain ⟨hu, hpiece⟩ := hfit.piece hword
    rw [h.stored hz, hpiece j hj, if_pos ⟨⟨hu, (hword 0 (by decide)).2⟩, by omega, by omega⟩,
      Nat.add_sub_cancel_left]

theorem statusFits_of_stored (h : k.WaitOk i) (hz : k.zombieChild i pid = some c)
    (hall : ∀ st, k.StatusStored i c u st) : StatusFits k.phys.ram (k.procs i).space.cr3 u := by
  have hstored := @Kernel.WaitOk.stored k i c u pid h hz
  obtain ⟨P, hP⟩ : ∃ P, vmmVirtToPhys k.phys.ram (k.procs i).space.cr3 u = P := ⟨_, rfl⟩
  rw [hP] at hstored
  constructor
  · intro hu hok
    -- a status that changes the first byte
    obtain ⟨st, hst⟩ := exists_statusByte_ne ((k.afterReap c).ram P) (show 0 < 4 by decide)
    refine ((hall st).only P ?_).1
    rw [hstored, if_pos ⟨⟨hu, hok⟩, by omega, by omega⟩, Nat.sub_self]
    exact hst
  · intro hword
    have hstatus := fun st => (hall st).status hword
    -- every byte of the word must have been stored
    have hwritten : ∀ j < 4, u ≠ 0 ∧
        P ≤ vmmVirtToPhys k.phys.ram (k.procs i).space.cr3 (u + j) ∧
        vmmVirtToPhys k.phys.ram (k.procs i).space.cr3 (u + j) < P + 4 := by
      intro j hj
      by_contra hc
      obtain ⟨st, hst⟩ := exists_statusByte_ne ((k.afterReap c).ram
        (vmmVirtToPhys k.phys.ram (k.procs i).space.cr3 (u + j))) hj
      have hbyte := hstatus st j hj
      rw [hstored, if_neg fun hin => hc ⟨hin.1.1, hin.2⟩] at hbyte
      exact hst hbyte.symm
    refine ⟨(hwritten 0 (by decide)).1, fun j hj => ?_⟩
    obtain ⟨hu, hl, hr⟩ := hwritten j hj
    have hbytes : ∀ st, statusByte st (vmmVirtToPhys k.phys.ram (k.procs i).space.cr3 (u + j) - P) =
        statusByte st j := by
      intro st
      rw [← hstatus st j hj, hstored, if_pos ⟨⟨hu, (hword 0 (by decide)).2⟩, hl, hr⟩]
    have hoff := statusByte_inj (by omega) hj hbytes
    rw [hP]
    omega

end Wait

section Statuses

variable {k k' : Kernel} {i c u : ℕ} {pid st : ℤ}

theorem reap_phys (hz : k.zombieChild i pid = some c) :
    (k.processTryReap (k.procs i).pid pid).1.phys = k.afterReap c := by
  rw [tryReap_zombie hz]
  exact destroy_phys hz

theorem waitWrites_zombie (h : k.WaitOk i) (hz : k.zombieChild i pid = some c)
    (hphys : k'.phys = Kernel.storeStatus (k.afterReap c) (k.procs i).space.cr3 u
      (k.procs c).exitStatus) :
    k.WaitWrites i pid u k' ↔ k.StatusStored i c u (k.procs c).exitStatus := by
  constructor
  · intro hw
    refine ⟨fun x => ?_, fun hword => ?_⟩
    · have honly := hw.only x
      rw [reap_phys hz, hphys] at honly
      exact honly
    · have hstatus := hw.status c hz hword
      rw [hphys] at hstatus
      exact hstatus
  · intro hst
    refine ⟨fun x hx => ⟨c, hz, ?_⟩, fun x => ?_, fun c' hz' hword => ?_⟩
    · by_contra hno
      obtain ⟨hc, hzombie⟩ := zombieChild_spec hz
      rw [reap_phys hz] at hx
      exact hx (processDestroyUserSpace_tables (h.zombie c hc hzombie).1 hno)
    · rw [reap_phys hz, hphys]
      exact hst.only x
    · rw [hz] at hz'
      cases hz'
      rw [hphys]
      exact hst.status hword

theorem waitWrites_idle (hi : k.processCurrent = some i) (hz : k.zombieChild i pid = none)
    (hw : k.processWaitCurrent pid u = some k') : k.WaitWrites i pid u k' := by
  obtain ⟨r, -, hreap⟩ := tryReap_idle hz
  refine ⟨fun x hx => ?_, fun x hx => ?_, fun c hc => ?_⟩
  · rw [hreap] at hx
    exact absurd rfl hx
  · rw [hreap, wait_idle hi hz hw] at hx
    exact absurd rfl hx
  · rw [hz] at hc
    cases hc

theorem withStatus_proc (k : Kernel) (i : ℕ) (pid st : ℤ) (j : ℕ) :
    ∃ e, (k.withStatus i pid st).procs j = { k.procs j with exitStatus := e } := by
  by_cases hj : k.zombieChild i pid = some j
  · exact ⟨st, if_pos hj⟩
  · exact ⟨(k.procs j).exitStatus, if_neg hj⟩

@[simp]
theorem withStatus_space (j : ℕ) :
    ((k.withStatus i pid st).procs j).space = (k.procs j).space := by
  obtain ⟨e, he⟩ := withStatus_proc k i pid st j
  rw [he]

@[simp]
theorem withStatus_state (j : ℕ) :
    ((k.withStatus i pid st).procs j).state = (k.procs j).state := by
  obtain ⟨e, he⟩ := withStatus_proc k i pid st j
  rw [he]

@[simp]
theorem withStatus_pid (j : ℕ) : ((k.withStatus i pid st).procs j).pid = (k.procs j).pid := by
  obtain ⟨e, he⟩ := withStatus_proc k i pid st j
  rw [he]

theorem withStatus_zombieChild :
    (k.withStatus i pid st).zombieChild i pid = k.zombieChild i pid := by
  have hchild : ∀ p j, (k.withStatus i pid st).isChild p pid j = k.isChild p pid j := by
    intro p j
    obtain ⟨e, he⟩ := withStatus_proc k i pid st j
    simp only [Kernel.isChild, he]
  simp only [Kernel.zombieChild, hchild, withStatus_pid, withStatus_state]

theorem withStatus_exitStatus (hz : k.zombieChild i pid = some c) :
    ((k.withStatus i pid st).procs c).exitStatus = st := by
  simp [Kernel.withStatus, hz]

theorem stored_withStatus {e : ℤ} :
    (k.withStatus i pid st).StatusStored i c u e ↔ k.StatusStored i c u e := by
  have hreap : (k.withStatus i pid st).afterReap c = k.afterReap c := by
    rw [Kernel.afterReap, withStatus_space]
    rfl
  constructor
  · rintro ⟨honly, hstatus⟩
    rw [hreap, withStatus_space] at honly hstatus
    exact ⟨honly, hstatus⟩
  · rintro ⟨honly, hstatus⟩
    refine ⟨?_, ?_⟩
    · rw [hreap, withStatus_space]
      exact honly
    · rw [hreap, withStatus_space]
      exact hstatus

theorem Kernel.WaitOk.withStatus (h : k.WaitOk i) : (k.withStatus i pid st).WaitOk i := by
  have hphys : (k.withStatus i pid st).phys = k.phys := rfl
  refine ⟨?_, ?_, ?_, ?_⟩
  · rw [hphys, withStatus_space]
    exact h.space
  · rw [hphys, withStatus_space]
    exact h.hidden
  · intro c hc
    rw [withStatus_state, withStatus_pid]
    exact h.pid c hc
  · intro c hc
    rw [withStatus_state, hphys, withStatus_space, withStatus_space]
    exact h.zombie c hc

end Statuses

/-- In every state that the kernel reaches, the memory is in order for a wait of a process. -/
theorem FramesInv.waitOk {boot : Set ℕ} {top : UpperHalf} {k : Kernel} {l : List ℕ} {i : ℕ}
    (h : FramesInv boot top k) (hs : Sys.Ok k.sys l) (hi : k.processCurrent = some i)
    (huser : k.UserCall) : k.WaitOk i := by
  obtain ⟨hlt, hu, hz, -⟩ := running_live hs hi
  have hsp := spaceAt_some (fun h0 => huser (h0 ▸ hi)) hlt hu
  refine ⟨spaceOk_at h hsp, h.hidden hsp, fun c hc => zombie_pid_pos hs hc, fun c hc hzc => ?_⟩
  have hne : i ≠ c := by
    intro hic
    exact hz (hic ▸ hzc)
  have huc : (k.procs c).state ≠ .unused := by
    rw [hzc]
    nofun
  have hc0 : c ≠ 0 := slot_ne_zero hs (ne_of_gt (zombie_pid_pos hs hc hzc))
  have hspc := spaceAt_some hc0 hc huc
  refine ⟨spaceOk_at h hspc, h.mem.space_apart hsp hne hspc, fun v hv => ?_⟩
  -- the kernel without the zombie has its invariant as well
  have hafter := ((h.since {c}).processDestroy hc0 rfl hc).inv
  have hproc := @processDestroy_other c k i hne
  have hsp' : (k.processDestroy c).spaceAt i = some (k.procs i).space := by
    rw [← hproc]
    exact spaceAt_some (fun h0 => huser (h0 ▸ hi)) hlt (by rw [hproc]; exact hu)
  have hhidden := hafter.hidden hsp' v hv
  unfold Kernel.processDestroy at hhidden
  rw [if_neg huc] at hhidden
  exact hhidden

/-- A wait stores the status in the four bytes at the pointer and nowhere else, whatever the
status, exactly when the pointer fits: the call looks at the page of the first byte only, and
stores all four bytes there. -/
theorem wait_writes_status {k : Kernel} {i : ℕ} (h : k.WaitOk i) (hi : k.processCurrent = some i)
    (pid : ℤ) (ustatus : ℕ) :
    (∀ st k', (k.withStatus i pid st).processWaitCurrent pid ustatus = some k' →
        (k.withStatus i pid st).WaitWrites i pid ustatus k') ↔
      (∀ c, k.zombieChild i pid = some c →
        StatusFits k.phys.ram (k.procs i).space.cr3 ustatus) := by
  constructor
  · intro hall c hz
    obtain ⟨hc, hzombie⟩ := zombieChild_spec hz
    refine statusFits_of_stored h hz fun st => ?_
    have hz' : (k.withStatus i pid st).zombieChild i pid = some c := withStatus_zombieChild.trans hz
    obtain ⟨k', hw, hphys⟩ := @wait_zombie (k.withStatus i pid st) i c ustatus pid hi hz'
      (by rw [withStatus_pid]; exact h.pid c hc hzombie)
    have hst := (waitWrites_zombie h.withStatus hz' hphys).mp (hall st k' hw)
    rw [withStatus_exitStatus hz] at hst
    exact stored_withStatus.mp hst
  · intro hfit st k' hw
    cases hz : k.zombieChild i pid with
    | none => exact waitWrites_idle hi (withStatus_zombieChild.trans hz) hw
    | some c =>
      obtain ⟨hc, hzombie⟩ := zombieChild_spec hz
      have hz' : (k.withStatus i pid st).zombieChild i pid = some c :=
        withStatus_zombieChild.trans hz
      obtain ⟨k₁, hw₁, hphys⟩ := @wait_zombie (k.withStatus i pid st) i c ustatus pid hi hz'
        (by rw [withStatus_pid]; exact h.pid c hc hzombie)
      rw [hw] at hw₁
      cases hw₁
      refine (waitWrites_zombie h.withStatus hz' hphys).mpr ?_
      rw [withStatus_exitStatus hz]
      exact stored_withStatus.mpr ((hfit c hz).stored h hz st)

/-- Process 1 runs with two pages, and its child 2 has exited. Frame 7 belongs to somebody else. -/
def waitKernel : Kernel where
  phys := twoPagePhys 0x5007 0x6007 10 64
  kernelPml4 := 0x1000
  nxOk := true
  blobs := []
  trampoline := 0
  nextStackVaddr := 0xFFFFFFFF90000000
  heapTop := 0xFFFFFFFFA0000000
  procs := fun j =>
    if j = 1 then ⟨1, 0, .running, 0, some 0, twoPageSpace 0x401000, [], none, 0, []⟩
    else if j = 2 then ⟨2, 1, .zombie, 0x01010101, none, ⟨9 * pageSize, [], 0, 0, 0⟩, [], none, 0, []⟩
    else ⟨-1, -1, .unused, 0, none, ⟨0, [], 0, 0, 0⟩, [], none, 0, []⟩
  nextPid := 3
  sched := { Sched.bootThreads 0x1000 with
    threads := fun _ => ⟨Sched.emptyFrame, 0x1000, .running, some 1, some 0⟩ }
  files := fun _ => none
  root := Vfs.builtTree
  heapFrames := []
  stackFrames := []
  exits := []
  reaps := []

theorem twoPageMem_hidden {v : ℕ} {m : Mem}
    (hm : ∀ x, x / pageSize = 1 → m x = twoPageMem 0x5007 0x6007 x) (hv : 256 ≤ pml4Idx v) :
    user (vmmGetPte m 0x1000 v) = false := by
  have hlt : pml4Idx v < 512 := Nat.mod_lt _ (by decide)
  have hentry : entry m 0x1000 (pml4Idx v) = 0 := by
    have hsame : entry m 0x1000 (pml4Idx v) =
        entry (twoPageMem 0x5007 0x6007) 0x1000 (pml4Idx v) := by
      apply entry_congr hlt
      intro x hl hr
      exact hm x (by unfold pageSize; omega)
    rw [hsame, twoPageMem_entry (by decide) (by decide) hlt (by decide)]
    split_ifs <;> omega
  have hzero : user 0 = false := by decide
  unfold vmmGetPte
  simpa [hentry, not_present_zero] using hzero

theorem twoPageSpace_nine :
    9 ∉ (twoPageSpace 0x401000).frames (twoPagePhys 0x5007 0x6007 10 64) := by
  intro h
  cases h with
  | inl ht =>
    obtain ⟨p, hp, hlen, hw⟩ := ht
    unfold pageSize at hw
    rcases twoPageMem_walk (by decide) (by decide) userPlaces hp hlen hw with
      ⟨-, h⟩ | ⟨-, h⟩ | ⟨-, h⟩ | ⟨-, h⟩ <;> omega
  | inr hd =>
    obtain ⟨e, he, hphys⟩ := hd
    have hmem : e = ⟨0x5FE000, 0x5000⟩ ∨ e = ⟨0x5FF000, 0x6000⟩ := by
      simpa [twoPageSpace] using he
    cases hmem with
    | inl heq =>
      rw [heq] at hphys
      exact absurd hphys (by decide)
    | inr heq =>
      rw [heq] at hphys
      exact absurd hphys (by decide)

theorem waitKernel_ok : waitKernel.WaitOk 1 := by
  have hspace := twoPageSpace_ok 0x401000 (show 7 ≤ 10 by decide) (show 10 ≤ 64 by decide)
    (by decide)
  have hempty : ∀ i < 256,
      present (entry (twoPageMem 0x5007 0x6007) (9 * pageSize) i) = false := by
    intro i hi
    have hentry : entry (twoPageMem 0x5007 0x6007) (9 * pageSize) i = 0 := by
      rw [twoPageMem_entry (by decide) (by decide) (by omega) (by decide)]
      unfold pageSize
      split_ifs <;> omega
    rw [hentry, not_present_zero]
  obtain ⟨hchild, htables⟩ := @emptySpace_ok (twoPagePhys 0x5007 0x6007 10 64) 9 hspace.phys
    (by decide) (by decide) (by decide) hempty
  have hzombie : ∀ c, (waitKernel.procs c).state = .zombie → c = 2 := by
    intro c hc
    by_contra hne
    by_cases h1 : c = 1
    · rw [h1] at hc
      cases hc
    · simp [waitKernel, h1, hne] at hc
  refine ⟨hspace, fun v hv => twoPageMem_hidden (fun _ _ => rfl) hv, fun c _ hc => ?_,
    fun c _ hc => ?_⟩
  · rw [hzombie c hc]
    decide
  · rw [hzombie c hc]
    refine ⟨hchild, ?_, fun v hv => ?_⟩
    · -- the only frame of the child is frame 9
      refine Set.disjoint_right.mpr fun f hf => ?_
      have hf9 : f = 9 := by
        cases hf with
        | inl ht =>
          have ht' : f ∈ tablesOf (twoPagePhys 0x5007 0x6007 10 64).ram (9 * pageSize) UserPlaces :=
            ht
          rw [htables] at ht'
          exact ht'
        | inr hd =>
          obtain ⟨e, he, -⟩ := hd
          cases he
      rw [hf9]
      exact twoPageSpace_nine
    · refine twoPageMem_hidden (fun x hx => processDestroyUserSpace_tables hchild fun hin => ?_) hv
      have hin' : x / pageSize ∈ tablesOf (twoPageMem 0x5007 0x6007) (9 * pageSize) UserPlaces := hin
      rw [show twoPageMem 0x5007 0x6007 = (twoPagePhys 0x5007 0x6007 10 64).ram from rfl, htables,
        hx] at hin'
      exact absurd (Set.mem_singleton_iff.mp hin') (by decide)

theorem wait_writes_status_page : waitKernel.WaitOk 1 ∧ ∀ st k',
    (waitKernel.withStatus 1 (-1) st).processWaitCurrent (-1) 0x5FF000 = some k' →
      (waitKernel.withStatus 1 (-1) st).WaitWrites 1 (-1) 0x5FF000 k' := by
  have hpages : ∀ j < 4, pageOk (vmmGetPte (twoPageMem 0x5007 0x6007) 0x1000 (0x5FF000 + j)) true =
      true := by decide +kernel
  have hpiece : ∀ j < 4, vmmVirtToPhys (twoPageMem 0x5007 0x6007) 0x1000 (0x5FF000 + j) =
      vmmVirtToPhys (twoPageMem 0x5007 0x6007) 0x1000 0x5FF000 + j := by decide +kernel
  refine ⟨waitKernel_ok, (wait_writes_status waitKernel_ok rfl (-1) 0x5FF000).mpr fun _ _ =>
    ⟨fun _ _ j hj => ?_, fun _ => ⟨by decide, hpiece⟩⟩⟩
  exact ⟨by unfold userLimit; omega, hpages j hj⟩

/-- The word starts two bytes before the end of the last page of the process: its second half goes
to frame 7. -/
theorem wait_writes_next_frame :
    waitKernel.WaitOk 1 ∧ waitKernel.zombieChild 1 (-1) = some 2 ∧
      waitKernel.phys.ram 0x7000 = 0 ∧
      ∃ k', waitKernel.processWaitCurrent (-1) 0x5FFFFE = some k' ∧ k'.phys.ram 0x7000 = 1 ∧
        ¬ waitKernel.WaitWrites 1 (-1) 0x5FFFFE k' := by
  have hz : waitKernel.zombieChild 1 (-1) = some 2 := by decide +kernel
  have hbyte : (waitKernel.processWaitCurrent (-1) 0x5FFFFE).map (·.phys.ram 0x7000) = some 1 := by
    decide +kernel
  obtain ⟨k', hw, hone⟩ := Option.map_eq_some_iff.mp hbyte
  have hzero : (waitKernel.processTryReap (waitKernel.procs 1).pid (-1)).1.phys.ram 0x7000 = 0 := by
    decide +kernel
  refine ⟨waitKernel_ok, hz, by decide +kernel, k', hw, hone, fun hwrites => ?_⟩
  have hword := (hwrites.only 0x7000 (by rw [hone, hzero]; decide)).1
  have hno : pageOk (vmmGetPte (twoPageMem 0x5007 0x6007) 0x1000 0x600000) true = false := by
    decide +kernel
  exact absurd ((hword 2 (by decide)).2.symm.trans hno) (by decide)

end VoidOS.Proc
