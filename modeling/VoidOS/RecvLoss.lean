import VoidOS.CopyLaws
import VoidOS.IpcQueue
import VoidOS.PageRelease
import VoidOS.SpaceStore

namespace VoidOS.Mm

open ByteMem PageTree Ownership

/-- A memory that differs at most in the recorded pages. -/
def SameOffData (ph : Phys) (sp : Space) (m : Mem) : Prop :=
  ∀ x, x / pageSize ∉ sp.data → m x = ph.ram x

section Data

variable {ph : Phys} {sp : Space} {m : Mem} {v base len fuel done : ℕ} {src : List UInt8} {b : Bool}

theorem SameOffData.translation (hm : SameOffData ph sp m) (h : SpaceOk ph sp)
    (hv : v < userLimit) :
    vmmGetPte m sp.cr3 v = vmmGetPte ph.ram sp.cr3 v ∧
      vmmVirtToPhys m sp.cr3 v = vmmVirtToPhys ph.ram sp.cr3 v := by
  have hok : SpaceOk { ph with ram := m } sp := (h.write hm).ok
  have htsame : SameOn pageSize (tablesOf ph.ram sp.cr3 UserPlaces) ph.ram
      ({ ph with ram := m } : Phys).ram :=
    fun x hx => hm x fun hd => Set.disjoint_left.mp h.data_disjoint hd hx
  have hleaf : Mm.leaf m sp.cr3 v = Mm.leaf ph.ram sp.cr3 v :=
    h.tree.leaf_same htsame (userPlaces_indices hv)
  constructor
  · rw [h.pte hv, ← hleaf]
    exact hok.pte hv
  · rw [vmmVirtToPhys_eq (h.tree.noHuge (userPlaces_indices hv)), ← hleaf]
    exact vmmVirtToPhys_eq (hok.tree.noHuge (userPlaces_indices hv))

theorem SameOffData.userRange (hm : SameOffData ph sp m) (h : SpaceOk ph sp) :
    UserRange m sp.cr3 base len b ↔ UserRange ph.ram sp.cr3 base len b := by
  unfold UserRange
  refine and_congr_right fun _ => and_congr_right fun hle => forall_congr' fun v =>
    imp_congr_right fun hv => ?_
  rw [(hm.translation h (show v < userLimit by unfold InBuffer at hv; omega)).1]

theorem UserRange.onPage (hr : UserRange ph.ram sp.cr3 base len b) (h : SpaceOk ph sp)
    (hv : InBuffer base len v) :
    v < userLimit ∧ present (Mm.leaf ph.ram sp.cr3 v) = true := by
  have hlt : v < userLimit := by
    have := hr.2.1
    unfold InBuffer at hv
    omega
  have hok := hr.2.2 v hv
  unfold pageOk at hok
  rw [Bool.and_eq_true, Bool.and_eq_true, h.pte hlt] at hok
  exact ⟨hlt, hok.1.1⟩

/-- An address of a page that is present leads to a byte of a recorded page. -/
theorem UserRange.data (hr : UserRange ph.ram sp.cr3 base len b) (h : SpaceOk ph sp)
    (hv : InBuffer base len v) :
    ∃ f ∈ sp.data, vmmVirtToPhys ph.ram sp.cr3 v = f * pageSize + v % pageSize ∧
      vmmVirtToPhys ph.ram sp.cr3 v ≠ 0 := by
  obtain ⟨hlt, hp⟩ := hr.onPage h hv
  obtain ⟨f, hf, -, heq, hne⟩ := h.phys_of_present hlt hp
  exact ⟨f, hf, heq, hne⟩

/-- The loop of `copy_to_user` over a buffer of the process goes through, and stores into its
pages only. -/
theorem copyOutFrom_data (h : SpaceOk ph sp)
    (hr : UserRange ph.ram sp.cr3 base src.length true) (hm : SameOffData ph sp m) :
    (copyOutFrom sp.cr3 base src fuel done m).2 = true ∧
      SameOffData ph sp (copyOutFrom sp.cr3 base src fuel done m).1 := by
  induction fuel generalizing done m with
  | zero => exact ⟨rfl, hm⟩
  | succ fuel ih =>
    rw [copyOutFrom]
    by_cases hend : src.length ≤ done
    · rw [if_pos hend]
      exact ⟨rfl, hm⟩
    rw [Nat.not_le] at hend
    obtain ⟨f, hf, heq, hne⟩ := hr.data h (InBuffer.add base hend)
    have hlt : base + done < userLimit := by
      have := hr.2.1
      omega
    rw [if_neg (by omega)]
    dsimp only
    rw [(hm.translation h hlt).2, if_neg hne]
    apply ih
    -- the bytes of the round are bytes of one page
    obtain ⟨hpos, hle, hpage⟩ := chunkAt_spec base hend
    intro x hx
    rw [heq, blit_page (f := f), hm x hx]
    · have := hpage (chunkAt base src.length done - 1) (by omega)
      rw [List.length_take, List.length_drop]
      omega
    · exact fun hc => hx (hc ▸ hf)

theorem copyToUser_data (h : SpaceOk ph sp) (hm : SameOffData ph sp m) (src : List UInt8) :
    ((copyToUser m sp.cr3 base src).2 = true ↔ UserRange ph.ram sp.cr3 base src.length true) ∧
      SameOffData ph sp (copyToUser m sp.cr3 base src).1 := by
  unfold copyToUser
  by_cases hr : UserRange ph.ram sp.cr3 base src.length true
  · rw [userRangeOk_range.mpr ((hm.userRange h).mpr hr), Bool.not_true, if_neg Bool.false_ne_true]
    obtain ⟨htrue, hdata⟩ := @copyOutFrom_data ph sp m base src.length 0 src h hr hm
    exact ⟨iff_of_true htrue hr, hdata⟩
  · have hno : userRangeOk m sp.cr3 base src.length true = false := by
      rw [Bool.eq_false_iff]
      exact fun hok => hr ((hm.userRange h).mp (userRangeOk_range.mp hok))
    rw [hno, Bool.not_false, if_pos rfl]
    exact ⟨iff_of_false nofun hr, hm⟩

/-- A buffer that the process can write is private: its pages are in frames of their own, none
of which is a table. -/
theorem UserRange.private (hr : UserRange ph.ram sp.cr3 base len b) (h : SpaceOk ph sp) :
    Private ph.ram sp.cr3 (InBuffer base len) := by
  have hpage : ∀ v, InBuffer base len v → ∃ e ∈ sp.umap, e.virt / pageSize = v / pageSize ∧
      vmmVirtToPhys ph.ram sp.cr3 v = e.phys + v % pageSize := by
    intro v hv
    obtain ⟨hlt, hp⟩ := hr.onPage h hv
    obtain ⟨e, he, hvirt, hphys⟩ := h.recorded v hlt hp
    obtain ⟨f, -, haddr, heq, -⟩ := h.phys_of_present hlt hp
    exact ⟨e, he, hvirt, by rw [heq, hphys, haddr]⟩
  constructor
  · intro v hv
    obtain ⟨f, -, -, hne⟩ := hr.data h hv
    exact hne
  · intro v w hv hw he
    obtain ⟨e, hmem, hvirt, heq⟩ := hpage v hv
    obtain ⟨e', hmem', hvirt', heq'⟩ := hpage w hw
    obtain ⟨f, -, -, hf, -⟩ := h.frame e hmem
    obtain ⟨f', -, -, hf', -⟩ := h.frame e' hmem'
    have hv' : v % pageSize < pageSize := Nat.mod_lt _ (by decide)
    have hw' : w % pageSize < pageSize := Nat.mod_lt _ (by decide)
    rw [heq, heq', hf, hf'] at he
    have hff : f = f' ∧ v % pageSize = w % pageSize := by
      unfold pageSize at he hv' hw' ⊢
      omega
    have hee : e = e' := List.inj_on_of_nodup_map h.nodup hmem hmem' (by rw [hf, hf', hff.1])
    rw [← Nat.div_add_mod v pageSize, ← Nat.div_add_mod w pageSize, ← hvirt, ← hvirt', hee, hff.2]
  · intro m' hsame v hv
    have hdata : SameOffData ph sp m' := by
      intro x hx
      apply hsame
      intro w hw hxw
      obtain ⟨f, hf, heq, -⟩ := hr.data h hw
      apply hx
      have hmod : w % pageSize < pageSize := Nat.mod_lt _ (by decide)
      rwa [hxw, heq, div_page (Nat.le_add_right _ _) (by omega)]
    exact (hdata.translation h (hr.onPage h hv).1).symm

theorem copyToUser_userBytes (h : SpaceOk ph sp)
    (hok : (copyToUser ph.ram sp.cr3 base src).2 = true) :
    userBytes (copyToUser ph.ram sp.cr3 base src).1 sp.cr3 base src.length = src := by
  have hr := (copyToUser_data h (fun _ _ => rfl) src).1.mp hok
  have hp := hr.private h
  exact (copyToUser_stored src (userRangeOk_range.mpr hr) hp).2.userBytes (B := fun _ => False) hp
    (fun _ hv => hv) (fun _ _ => rfl) (fun _ hv => hv.elim)

end Data

end VoidOS.Mm

namespace VoidOS.Ipc

open SlotTable RingBuffer ByteMem Mm

/-- The output pointers of a receive of `n` bytes are absent or name memory that the process can
write. -/
def Deliverable (m : Mem) (cr3 tagOut dataOut n : ℕ) : Prop :=
  (tagOut ≠ 0 → UserRange m cr3 tagOut 4 true) ∧
    (dataOut ≠ 0 → 0 < n → UserRange m cr3 dataOut n true)

/-- After a receive that fails every queue is as before, and the handle leads to the endpoint it
led to. -/
def World.LosesNothing (w : World) (p : Pid) (heap : Bool) (h : ℤ) (tagOut dataOut maxLen : ℕ) :
    Prop :=
  (w.recv p heap h tagOut dataOut maxLen).2 < 0 →
    (w.recv p heap h tagOut dataOut maxLen).1.ipc.registry = w.ipc.registry ∧
    ∀ i ep, Resolves w.ipc p h i ep →
      Resolves (w.recv p heap h tagOut dataOut maxLen).1.ipc p h i ep

section Failures

variable {ph : Phys} {sp : Space} {w : World} {p : Pid} {heap : Bool} {h : ℤ} {msg : Message}
  {tagOut dataOut maxLen i : ℕ} {ep ep' : Endpoint}

theorem copyTag_data (hok : SpaceOk ph sp) (tag : UInt32) :
    ((if tagOut = 0 then (ph.ram, true) else
        copyToUser ph.ram sp.cr3 tagOut (tagBytes tag)).2 = true ↔
      (tagOut ≠ 0 → UserRange ph.ram sp.cr3 tagOut 4 true)) ∧
    SameOffData ph sp (if tagOut = 0 then (ph.ram, true) else
      copyToUser ph.ram sp.cr3 tagOut (tagBytes tag)).1 := by
  have hself : SameOffData ph sp ph.ram := fun _ _ => rfl
  by_cases ht : tagOut = 0
  · rw [if_pos ht]
    exact ⟨iff_of_true rfl fun hne => absurd ht hne, hself⟩
  · rw [if_neg ht]
    obtain ⟨hiff, hdata⟩ := @copyToUser_data ph sp ph.ram tagOut hok hself (tagBytes tag)
    rw [length_tagBytes] at hiff
    exact ⟨hiff.trans ⟨fun hr _ => hr, fun hr => hr ht⟩, hdata⟩

theorem copyMessage_fails (hok : SpaceOk ph sp) :
    (copyMessage ph.ram sp.cr3 msg tagOut dataOut maxLen).2 < 0 ↔
      ¬ Deliverable ph.ram sp.cr3 tagOut dataOut (min msg.data.length maxLen) := by
  have hnat (n : ℕ) : ¬ ((n : ℤ) < 0) := Int.not_lt.mpr (Int.natCast_nonneg n)
  have hfault : veFault < 0 := by decide
  obtain ⟨htag, hsame⟩ := @copyTag_data ph sp tagOut hok msg.tag
  unfold copyMessage Deliverable
  generalize (if tagOut = 0 then (ph.ram, true) else
    copyToUser ph.ram sp.cr3 tagOut (tagBytes msg.tag)) = r at htag hsame
  obtain ⟨m, ok⟩ := r
  dsimp only at htag hsame ⊢
  cases ok with
  | false =>
    -- a bad tag pointer
    exact iff_of_true hfault fun hd => absurd (htag.mpr hd.1) Bool.false_ne_true
  | true =>
    have hlen : (msg.data.take (min msg.data.length maxLen)).length =
        min msg.data.length maxLen := by
      rw [List.length_take]
      omega
    generalize min msg.data.length maxLen = n at hlen ⊢
    rw [Bool.not_true, if_neg Bool.false_ne_true]
    by_cases hd : 0 < n ∧ dataOut ≠ 0
    · obtain ⟨hiff, -⟩ := @copyToUser_data ph sp m dataOut hok hsame (msg.data.take n)
      rw [if_pos hd]
      rw [hlen] at hiff
      cases hc : (copyToUser m sp.cr3 dataOut (msg.data.take n)).2 with
      | false =>
        rw [hc] at hiff
        refine iff_of_true hfault fun hall => ?_
        exact absurd (hiff.mpr (hall.2 hd.2 hd.1)) Bool.false_ne_true
      | true =>
        rw [Bool.not_true, if_neg Bool.false_ne_true]
        exact iff_of_false (hnat n) (not_not_intro ⟨htag.mp rfl, fun _ _ => hiff.mp hc⟩)
    · rw [if_neg hd]
      refine iff_of_false (hnat n) (not_not_intro ⟨htag.mp rfl, fun hne hpos => ?_⟩)
      exact absurd ⟨hpos, hne⟩ hd

theorem Resolves.table {s : State} (hres : Resolves w.ipc p h i ep) {t : HandleTable}
    (he : w.ipc.table p heap = .ok (s, t)) : s = w.ipc := by
  obtain ⟨pr, t', hp, ht, -⟩ := hres
  rw [table_of_handles hp ht] at he
  cases he
  rfl

theorem Resolves.get {s : State} (hres : Resolves s p h i ep) :
    ∃ e, get s.registry i = some e ∧ e.endpoint = ep := by
  obtain ⟨pr, t, -, -, -, -, -, hfind⟩ := hres
  unfold endpointOf at hfind
  split at hfind
  · cases hfind
  · obtain ⟨e, hget, heq⟩ := Option.map_eq_some_iff.mp hfind
    cases heq
    exact ⟨e, hget, rfl⟩

theorem recv_idle (hno : ∀ i ep msg ep', Resolves w.ipc p h i ep →
      ipcQueueDequeue ep ≠ some (msg, ep')) :
    (w.recv p heap h tagOut dataOut maxLen).1.ipc.registry = w.ipc.registry ∧
    ∀ i ep, Resolves w.ipc p h i ep →
      Resolves (w.recv p heap h tagOut dataOut maxLen).1.ipc p h i ep := by
  unfold World.recv
  split
  · exact ⟨rfl, fun _ _ hres => hres⟩
  · rename_i s t he
    have hkept : s.registry = w.ipc.registry ∧
        ∀ i ep, Resolves w.ipc p h i ep → Resolves s p h i ep :=
      ⟨(table_quiet he).1, fun _ _ hres => by rw [hres.table he]; exact hres⟩
    split
    · exact hkept
    rename_i hrange
    dsimp only
    split
    · exact hkept
    rename_i ha
    split
    · exact hkept
    rename_i i ep hfind
    split
    · exact hkept
    · rename_i msg ep' hdeq
      obtain ⟨rfl, pr, hp, ht⟩ := table_allocated he (by simpa using ha)
      have hres : Resolves w.ipc p h i ep :=
        ⟨pr, t, hp, ht, by omega, by omega, by simpa using ha, hfind⟩
      exact absurd hdeq (hno i ep msg ep' hres)

theorem dequeue_changes (hdeq : ipcQueueDequeue ep = some (msg, ep')) : ep' ≠ ep := by
  unfold ipcQueueDequeue at hdeq
  split at hdeq
  · cases hdeq
  · rename_i hne
    cases hdeq
    intro hc
    have hcount := congrArg (fun e => e.queue.count) hc
    simp only at hcount
    omega

end Failures

/-- A receive that fails loses nothing exactly when a message that waits could be delivered; the
call takes the message off the queue before it looks at the output pointers. -/
theorem recv_loses_nothing {w : World} {p : Pid} {ph : Phys} {sp : Space} (hok : SpaceOk ph sp)
    (hram : ph.ram = w.ram) (hcr3 : sp.cr3 = w.cr3 p) (heap : Bool) (h : ℤ)
    (tagOut dataOut maxLen : ℕ) :
    w.LosesNothing p heap h tagOut dataOut maxLen ↔
      ∀ i ep msg ep', Resolves w.ipc p h i ep → ipcQueueDequeue ep = some (msg, ep') →
        Deliverable w.ram (w.cr3 p) tagOut dataOut (min msg.data.length maxLen) := by
  rw [← hram, ← hcr3]
  constructor
  · intro hloses i ep msg ep' hres hdeq
    by_contra hbad
    have hfails := (@copyMessage_fails ph sp msg tagOut dataOut maxLen hok).mpr hbad
    rw [hram, hcr3] at hfails
    unfold World.LosesNothing at hloses
    rw [recv_resolves hres hdeq] at hloses
    -- the slot has the endpoint without its message
    have hreg : setEndpoint w.ipc.registry i ep' = w.ipc.registry := (hloses hfails).1
    obtain ⟨e, hget, rfl⟩ := hres.get
    have hgot := congrArg (get · i) hreg
    simp only [setEndpoint, get_modify, if_pos, hget, Option.map_some] at hgot
    exact dequeue_changes hdeq (congrArg RegistryEntry.endpoint (Option.some.inj hgot))
  · intro hall hneg
    by_cases hidle : ∀ i ep msg ep', Resolves w.ipc p h i ep →
        ipcQueueDequeue ep ≠ some (msg, ep')
    · exact recv_idle hidle
    · push Not at hidle
      obtain ⟨i, ep, msg, ep', hres, hdeq⟩ := hidle
      rw [recv_resolves hres hdeq, ← hram, ← hcr3] at hneg
      exact absurd (hall i ep msg ep' hres hdeq) ((copyMessage_fails hok).mp hneg)

def bootWorld : World := ⟨initState, fun _ => 0, fun _ => 4096, []⟩

/-- An endpoint of the kernel process, then an empty message to it. -/
def mailWorld : World :=
  { bootWorld with
    ipc := (sysIpcSend (sysIpcEndpointCreate initState 0 true true).1 0 true 0 7 ⟨[], false⟩).1 }

/-- The message of `mailWorld` waits for a process with two pages. -/
def pagedWorld : World := ⟨mailWorld.ipc, twoPageMem 0x5007 0x6007, fun _ => 0x1000, []⟩

theorem pagedWorld_ok : SpaceOk (twoPagePhys 0x5007 0x6007 7 64) (twoPageSpace 0x401000) :=
  twoPageSpace_ok 0x401000 (le_refl 7) (show 7 ≤ 64 by decide) (by decide)

theorem recv_loses_nothing_page : pagedWorld.LosesNothing 0 true 0 0x5FF000 0 16 := by
  have hrange : UserRange (twoPageMem 0x5007 0x6007) 0x1000 0x5FF000 4 true :=
    userRangeOk_range.mp (by decide +kernel)
  exact (recv_loses_nothing pagedWorld_ok rfl rfl true 0 0x5FF000 0 16).mpr
    fun _ _ _ _ _ _ => ⟨fun _ => hrange, fun hne => absurd rfl hne⟩

/-- The tag pointer is not mapped: the call fails, and the queue has lost its message. -/
theorem recv_bad_tag :
    SpaceOk (twoPagePhys 0x5007 0x6007 7 64) (twoPageSpace 0x401000) ∧
      (pagedWorld.recv 0 true 0 8 0 16).2 = veFault ∧
      (get pagedWorld.ipc.registry 0).map (·.endpoint.queue.count) = some 1 ∧
      (get (pagedWorld.recv 0 true 0 8 0 16).1.ipc.registry 0).map
        (·.endpoint.queue.count) = some 0 ∧
      ¬ pagedWorld.LosesNothing 0 true 0 8 0 16 := by
  have hret : (pagedWorld.recv 0 true 0 8 0 16).2 = veFault := by decide +kernel
  have hbefore : (get pagedWorld.ipc.registry 0).map (·.endpoint.queue.count) = some 1 := by
    decide +kernel
  have hafter : (get (pagedWorld.recv 0 true 0 8 0 16).1.ipc.registry 0).map
      (·.endpoint.queue.count) = some 0 := by decide +kernel
  refine ⟨pagedWorld_ok, hret, hbefore, hafter, fun hl => ?_⟩
  have hreg := (hl (by rw [hret]; decide)).1
  rw [hreg, hbefore] at hafter
  cases hafter

end VoidOS.Ipc
