import VoidOS.LifecycleRuns
import VoidOS.RefCount

namespace VoidOS.Proc

open Transition RefCount Mm Elf

def counts (files : Vfs.Files) (o : ℕ) : Option ℤ := (files o).map Vfs.VfsFile.refcount

section Counts

variable {files : Vfs.Files} {n : ℕ → ℕ} {o : ℕ} {fds : List Fd}

theorem counts_eq_none : counts files o = none ↔ files o = none := Option.map_eq_none_iff

theorem counts_update (files : Vfs.Files) (o : ℕ) (f : Option Vfs.VfsFile) :
    counts (Function.update files o f) =
      Function.update (counts files) o (f.map Vfs.VfsFile.refcount) := by
  funext a
  unfold counts
  by_cases ha : a = o
  · rw [ha, Function.update_self, Function.update_self]
  · rw [Function.update_of_ne ha, Function.update_of_ne ha]

theorem counts_refInc (files : Vfs.Files) (o : ℕ) : counts (Vfs.refInc files o) =
    Function.update (counts files) o ((counts files o).map (· + 1)) := by
  rw [Vfs.refInc, counts_update, Option.map_map, counts, Option.map_map]
  rfl

theorem counts_refDec (files : Vfs.Files) (o : ℕ) : counts (Vfs.refDec files o) =
    Function.update (counts files) o
      ((counts files o).bind fun c => if c - 1 ≤ 0 then none else some (c - 1)) := by
  unfold Vfs.refDec
  cases hf : files o with
  | none =>
    rw [show counts files o = none from counts_eq_none.mpr hf, Option.bind_none,
      ← show counts files o = none from counts_eq_none.mpr hf, Function.update_eq_self]
  | some f =>
    rw [counts_update, show counts files o = some f.refcount by rw [counts, hf]; rfl,
      Option.bind_some]
    congr 1
    split <;> rfl

theorem vfsRefs_cons (fd : Fd) (fds : List Fd) (o : ℕ) : Kernel.vfsRefs (fd :: fds) o =
    Kernel.vfsRefs fds o + if fd.type = .vfs ∧ fd.object = some o then 1 else 0 := by
  unfold Kernel.vfsRefs
  rw [List.countP_cons]
  simp

theorem exact_close (h : Exact (counts files) n) (hle : ∀ o, Kernel.vfsRefs fds o ≤ n o) :
    Exact (counts (Kernel.vfsCloseProcessFds files fds).1) fun o => n o - Kernel.vfsRefs fds o := by
  induction fds generalizing files n with
  | nil => exact h
  | cons fd fds ih =>
    have hcons : ∀ o, Kernel.vfsRefs fds o +
        (if fd.type = .vfs ∧ fd.object = some o then 1 else 0) ≤ n o :=
      fun o => vfsRefs_cons fd fds o ▸ hle o
    have hskip : ¬ (fd.type = .vfs ∧ ∃ o, fd.object = some o) →
        Exact (counts (Kernel.vfsCloseProcessFds files fds).1)
          fun o => n o - Kernel.vfsRefs (fd :: fds) o := by
      intro hno
      have hzero : ∀ o, ¬ (fd.type = .vfs ∧ fd.object = some o) := fun o hc => hno ⟨hc.1, o, hc.2⟩
      have := ih h fun o => le_trans (Nat.le_add_right _ _) (hcons o)
      simpa only [vfsRefs_cons, if_neg (hzero _), add_zero] using this
    rw [Kernel.vfsCloseProcessFds]
    split
    · rename_i hv
      cases ho : fd.object with
      | none =>
        apply hskip
        rintro ⟨-, o, hc⟩
        rw [ho] at hc
        cases hc
      | some o =>
        have hpos : 0 < n o := by
          have := hcons o
          rw [if_pos ⟨hv, ho⟩] at this
          omega
        have hdec := h.dec hpos
        rw [← counts_refDec] at hdec
        have hrest := ih hdec fun a => by
          have := hcons a
          by_cases ha : a = o
          · rw [ha, Function.update_self]
            rw [ha, if_pos ⟨hv, ho⟩] at this
            omega
          · rw [Function.update_of_ne ha]
            omega
        apply hrest.congr
        intro a
        rw [vfsRefs_cons]
        by_cases ha : a = o
        · rw [ha, Function.update_self, if_pos ⟨hv, ho⟩]
          omega
        · rw [Function.update_of_ne ha, if_neg]
          · omega
          · rintro ⟨-, hc⟩
            exact ha (Option.some.inj (hc.symm.trans ho))
    · rename_i hv
      exact hskip fun hc => hv hc.1

theorem exact_dup (h : Exact (counts files) n) (hpos : ∀ o, 0 < Kernel.vfsRefs fds o → 0 < n o) :
    Exact (counts (Kernel.dupFds files fds)) fun o => n o + Kernel.vfsRefs fds o := by
  induction fds generalizing files n with
  | nil => exact h
  | cons fd fds ih =>
    have hcons : ∀ o, 0 < Kernel.vfsRefs fds o +
        (if fd.type = .vfs ∧ fd.object = some o then 1 else 0) → 0 < n o :=
      fun o => vfsRefs_cons fd fds o ▸ hpos o
    rw [Kernel.dupFds]
    split
    · rename_i o hv ho
      have hn : 0 < n o := by
        apply hcons o
        rw [if_pos ⟨hv, ho⟩]
        omega
      have hinc := h.inc hn
      rw [← counts_refInc] at hinc
      have hrest := ih hinc fun a ha => by
        by_cases hao : a = o
        · rw [hao, Function.update_self]
          omega
        · rw [Function.update_of_ne hao]
          exact hcons a (by omega)
      apply hrest.congr
      intro a
      rw [vfsRefs_cons]
      by_cases ha : a = o
      · rw [ha, Function.update_self, if_pos ⟨hv, ho⟩]
        omega
      · rw [Function.update_of_ne ha, if_neg]
        · omega
        · rintro ⟨-, hc⟩
          exact ha (Option.some.inj (hc.symm.trans ho))
    · rename_i hno
      have hzero : ∀ o, ¬ (fd.type = .vfs ∧ fd.object = some o) := fun o hc => hno o hc.1 hc.2
      have := ih h fun o ho => hcons o (by omega)
      simpa only [vfsRefs_cons, if_neg (hzero _), add_zero] using this

theorem closed_fds (files : Vfs.Files) (fds : List Fd) : (Kernel.vfsCloseProcessFds files fds).2 =
    fds.map fun fd => if fd.type = .vfs then Kernel.noFd else fd := by
  induction fds generalizing files with
  | nil => rfl
  | cons fd fds ih =>
    rw [Kernel.vfsCloseProcessFds, List.map_cons]
    split
    · exact congrArg _ (ih _)
    · exact congrArg _ (ih _)

end Counts

namespace Kernel

def refsAt (k : Kernel) (i o : ℕ) : ℕ :=
  if (k.procs i).state = .unused then 0 else vfsRefs (k.procs i).fds o

/-- The descriptors of all processes that point to an object. -/
def refsTo (k : Kernel) (o : ℕ) : ℕ := ∑ i ∈ Finset.range maxProcesses, k.refsAt i o

end Kernel

structure TableOk (fds : List Fd) : Prop where
  length : fds.length = maxFds
  object : ∀ fd ∈ fds, fd.type = .vfs → ∃ o, fd.object = some o
  low : ∀ j < 3, (fds.getD j Kernel.noFd).type ≠ .vfs

structure FdsOk (k : Kernel) : Prop where
  refs : Exact (counts k.files) k.refsTo
  table : ∀ i < maxProcesses, (k.procs i).state ≠ .unused → TableOk (k.procs i).fds

def SameFds (k k' : Kernel) (j : ℕ) : Prop :=
  ((k'.procs j).state = .unused ↔ (k.procs j).state = .unused) ∧
    (k'.procs j).fds = (k.procs j).fds

section Tables

variable {k k' k₁ : Kernel} {i c : ℕ} {fds : List Fd} {e : Fd}

theorem SameFds.of_eq {j : ℕ} (h : k'.procs j = k.procs j) : SameFds k k' j := by
  rw [SameFds, h]
  exact ⟨Iff.rfl, rfl⟩

theorem SameFds.refsAt {j : ℕ} (h : SameFds k k' j) (o : ℕ) : k'.refsAt j o = k.refsAt j o := by
  unfold Kernel.refsAt
  rw [h.2]
  simp only [h.1]

theorem refsTo_change (hi : i < maxProcesses)
    (hrest : ∀ j < maxProcesses, j ≠ i → SameFds k k' j) (o : ℕ) :
    k'.refsTo o = k.refsTo o - k.refsAt i o + k'.refsAt i o ∧ k.refsAt i o ≤ k.refsTo o := by
  have hmem : i ∈ Finset.range maxProcesses := Finset.mem_range.mpr hi
  have h₁ := Finset.add_sum_erase _ (fun j => k.refsAt j o) hmem
  have h₂ := Finset.add_sum_erase _ (fun j => k'.refsAt j o) hmem
  have heq : ∑ j ∈ (Finset.range maxProcesses).erase i, k'.refsAt j o =
      ∑ j ∈ (Finset.range maxProcesses).erase i, k.refsAt j o := by
    apply Finset.sum_congr rfl
    intro j hj
    obtain ⟨hne, hj⟩ := Finset.mem_erase.mp hj
    exact (hrest j (Finset.mem_range.mp hj) hne).refsAt o
  unfold Kernel.refsTo
  omega

theorem FdsOk.change (h : FdsOk k) (hi : i < maxProcesses)
    (hrest : ∀ j < maxProcesses, j ≠ i → SameFds k k' j)
    (hrefs : Exact (counts k'.files) fun o => k.refsTo o - k.refsAt i o + k'.refsAt i o)
    (htable : (k'.procs i).state ≠ .unused → TableOk (k'.procs i).fds) : FdsOk k' := by
  constructor
  · exact hrefs.congr fun o => (refsTo_change hi hrest o).1
  · intro j hj hu
    by_cases hji : j = i
    · exact hji ▸ htable (hji ▸ hu)
    · obtain ⟨hst, hfds⟩ := hrest j hj hji
      rw [hfds]
      exact h.table j hj fun hc => hu (hst.mpr hc)

theorem FdsOk.congr (h : FdsOk k) (hfiles : k'.files = k.files)
    (hsame : ∀ j < maxProcesses, SameFds k k' j) : FdsOk k' := by
  have hpos : 0 < maxProcesses := by decide
  apply h.change hpos fun j hj _ => hsame j hj
  · rw [hfiles]
    apply h.refs.congr
    intro o
    rw [(hsame 0 hpos).refsAt, Nat.sub_add_cancel]
    exact (refsTo_change hpos (fun j hj _ => hsame j hj) o).2
  · intro hu
    rw [(hsame 0 hpos).2]
    exact h.table 0 hpos fun hc => hu ((hsame 0 hpos).1.mpr hc)

theorem FdsOk.of_procs (h : FdsOk k) (hfiles : k'.files = k.files) (hprocs : k'.procs = k.procs) :
    FdsOk k' :=
  h.congr hfiles fun j _ => .of_eq (congrFun hprocs j)

theorem setProc_self (k : Kernel) (i : ℕ) (p : Process) : (k.setProc i p).procs i = p :=
  Function.update_self ..

theorem setProc_other (k : Kernel) {i j : ℕ} (p : Process) (hj : j ≠ i) :
    (k.setProc i p).procs j = k.procs j :=
  Function.update_of_ne hj _ _

theorem FdsOk.setProc (h : FdsOk k) {p : Process} (hfds : p.fds = (k.procs i).fds)
    (hst : p.state = .unused ↔ (k.procs i).state = .unused) : FdsOk (k.setProc i p) := by
  apply @FdsOk.congr k (k.setProc i p) h rfl
  intro j _
  by_cases hj : j = i
  · rw [hj, SameFds, setProc_self]
    exact ⟨hst, hfds⟩
  · exact .of_eq (setProc_other k p hj)

theorem vfsRefs_initial (o : ℕ) : Kernel.vfsRefs Kernel.initialFds o = 0 := rfl

theorem initialFds_ok : TableOk Kernel.initialFds := by
  have hno : ∀ fd ∈ Kernel.initialFds, fd.type ≠ .vfs := by decide
  exact ⟨rfl, fun fd hfd hv => absurd hv (hno fd hfd), by decide⟩

theorem vfsRefs_eq_zero {o : ℕ} (h : ∀ fd ∈ fds, fd.type ≠ .vfs) : Kernel.vfsRefs fds o = 0 := by
  rw [Kernel.vfsRefs, List.countP_eq_zero]
  intro fd hfd
  simp [h fd hfd]

theorem closed_ok (h : TableOk fds) (files : Vfs.Files) :
    TableOk (Kernel.vfsCloseProcessFds files fds).2 ∧
      ∀ o, Kernel.vfsRefs (Kernel.vfsCloseProcessFds files fds).2 o = 0 := by
  rw [closed_fds]
  have hno : ∀ fd ∈ fds.map (fun fd => if fd.type = .vfs then Kernel.noFd else fd),
      fd.type ≠ .vfs := by
    intro fd hfd
    obtain ⟨e, -, rfl⟩ := List.mem_map.mp hfd
    split
    · exact fun hc => nomatch hc
    · assumption
  refine ⟨⟨by rw [List.length_map, h.length], fun fd hfd hv => absurd hv (hno fd hfd), ?_⟩,
    fun o => vfsRefs_eq_zero hno⟩
  intro j hj
  rw [List.getD_eq_getElem?_getD]
  cases hg : (fds.map fun fd => if fd.type = .vfs then Kernel.noFd else fd)[j]? with
  | none => exact fun hc => nomatch hc
  | some fd => exact hno fd (List.mem_of_getElem? hg)

theorem FdsOk.close (h : FdsOk k) (hi : i < maxProcesses) (hu : (k.procs i).state ≠ .unused)
    (hfiles : k'.files = (Kernel.vfsCloseProcessFds k.files (k.procs i).fds).1)
    (hfds : (k'.procs i).fds = (Kernel.vfsCloseProcessFds k.files (k.procs i).fds).2)
    (hrest : ∀ j < maxProcesses, j ≠ i → SameFds k k' j) : FdsOk k' := by
  obtain ⟨htable, hzero⟩ := closed_ok (h.table i hi hu) k.files
  have hat : ∀ o, k.refsAt i o = Kernel.vfsRefs (k.procs i).fds o := fun o => if_neg hu
  have hat' : ∀ o, k'.refsAt i o = 0 := by
    intro o
    unfold Kernel.refsAt
    rw [hfds, hzero, ite_self]
  apply h.change hi hrest
  · have := @exact_close k.files k.refsTo (k.procs i).fds h.refs fun o =>
      hat o ▸ (refsTo_change hi hrest o).2
    rw [hfiles]
    apply this.congr
    intro o
    rw [hat, hat', add_zero]
  · intro _
    rw [hfds]
    exact htable

theorem FdsOk.processDestroy (h : FdsOk k) (hi : i < maxProcesses) :
    FdsOk (k.processDestroy i) := by
  unfold Kernel.processDestroy
  dsimp only
  split
  · exact h
  · rename_i hu
    apply h.close hi hu rfl
    · exact congrArg Process.fds (setProc_self k i _)
    · exact fun j _ hj => .of_eq (setProc_other k _ hj)

theorem FdsOk.processAlloc (h : FdsOk k) {parent : ℤ} {oc : Option ℕ}
    (ha : k.processAlloc parent = (k', oc)) : FdsOk k' ∧
      ∀ c, oc = some c → c < maxProcesses ∧ (k'.procs c).fds = Kernel.initialFds ∧
        (k'.procs c).state = .embryo ∧ (∀ j, j ≠ c → k'.procs j = k.procs j) ∧
        (k.procs c).state = .unused := by
  cases slotted ha with
  | full => exact ⟨h, fun c hc => nomatch hc⟩
  | noSpace _ => exact ⟨h.of_procs rfl rfl, fun c hc => nomatch hc⟩
  | @embryo _ _ c hlt hun _ _ =>
    refine ⟨h.change hlt ?_ ?_ ?_, fun c' hc' => ?_⟩
    · exact fun j _ hj => .of_eq (setProc_other k _ hj)
    · apply h.refs.congr
      intro o
      have hold : k.refsAt c o = 0 := if_pos hun
      rw [hold, Nat.sub_zero, Kernel.refsAt]
      dsimp only
      rw [setProc_self, vfsRefs_initial, ite_self, add_zero]
    · intro _
      dsimp only
      rw [setProc_self]
      exact initialFds_ok
    · cases hc'
      dsimp only
      rw [setProc_self]
      exact ⟨hlt, rfl, rfl, fun j hj => setProc_other k _ hj, hun⟩

theorem FdsOk.same (h : FdsOk k) (hs : SameTable k k') : FdsOk k' := h.of_procs hs.files hs.procs

theorem FdsOk.start {f : Sched.Frame} (h : FdsOk k) (hc : c < maxProcesses)
    (hu : (k.procs c).state ≠ .unused) (hs : Started k c f k') : FdsOk k' := by
  have hk : FdsOk k.allocKstack.1 := h.of_procs rfl rfl
  cases hs with
  | failed => exact hk.processDestroy hc
  | @started _ t _ =>
    have := @FdsOk.setProc _ c hk { k.procs c with thread := some t, state := .ready } rfl
      ⟨fun hs => (nomatch hs), fun hs => absurd hs hu⟩
    exact this.of_procs rfl rfl

theorem FdsOk.dup (h : FdsOk k) (hc : c < maxProcesses) (hi : i < maxProcesses)
    (hu : (k.procs i).state ≠ .unused) (hfresh : ∀ o, k.refsAt c o = 0) {p : Process}
    (hp : p.fds = (k.procs i).fds) (hst : p.state ≠ .unused) :
    FdsOk { k.setProc c p with files := Kernel.dupFds k.files (k.procs i).fds } := by
  refine h.change hc ?_ ?_ ?_
  · exact fun j _ hj => .of_eq (setProc_other k _ hj)
  · have hpos : ∀ o, 0 < Kernel.vfsRefs (k.procs i).fds o → 0 < k.refsTo o := by
      intro o ho
      have hle := (@refsTo_change k k i hi (fun j _ _ => .of_eq rfl) o).2
      unfold Kernel.refsAt at hle
      rw [if_neg hu] at hle
      omega
    apply (exact_dup h.refs hpos).congr
    intro o
    rw [hfresh, Nat.sub_zero, Kernel.refsAt]
    dsimp only
    rw [setProc_self, if_neg hst, hp]
  · intro _
    dsimp only
    rw [setProc_self, hp]
    exact h.table i hi hu

theorem FdsOk.ret (h : FdsOk k) (v : ℤ) : FdsOk (k.ret v) := h.of_procs rfl rfl

theorem FdsOk.setSpace (h : FdsOk k) (ph : Phys) (sp : Space) : FdsOk (k.setSpace i ph sp) :=
  (@FdsOk.setProc k i h { k.procs i with space := sp } rfl Iff.rfl).of_procs rfl rfl

end Tables

section Operations

variable {k k' : Kernel} {i : ℕ} {l : List ℕ}

theorem FdsOk.spawn {parent : ℤ} (h : FdsOk k) (hs : Spawns k parent k') : FdsOk k' := by
  cases hs with
  | refused => exact h
  | full ha => exact (h.processAlloc ha).1
  | failed ph sp ha =>
    obtain ⟨h₁, hc⟩ := h.processAlloc ha
    exact (h₁.setSpace ph sp).processDestroy (hc _ rfl).1
  | started ph sp f ha =>
    obtain ⟨h₁, hc⟩ := h.processAlloc ha
    obtain ⟨hlt, -, hst, -⟩ := hc _ rfl
    refine (h₁.setSpace ph sp).start hlt ?_ (processStarted _ _ f)
    rw [Kernel.setSpace]
    dsimp only
    rw [setProc_self, hst]
    simp

theorem FdsOk.fork {grow : ℕ} {heap : Bool} (h : FdsOk k) (hs : Sys.Ok k.sys l)
    (hf : Forked k grow heap k') : FdsOk k' := by
  cases hf with
  | refused _ => exact h.ret _
  | full _ ha => exact (h.processAlloc ha).1.ret _
  | noPages _ ha _ =>
    obtain ⟨h₁, hc⟩ := h.processAlloc ha
    exact ((h₁.setSpace _ _).processDestroy (hc _ rfl).1).ret _
  | noTable _ ha _ hh =>
    obtain ⟨h₁, hc⟩ := h.processAlloc ha
    exact (((h₁.setSpace _ _).same (forkHandles_same hh)).processDestroy (hc _ rfl).1).ret _
  | @started i c k₁ k₂ k₃ ph sp handles b hf ha _ hh hstart =>
    obtain ⟨hlt, hu, -, -⟩ := running_live hs hf.1
    obtain ⟨h₁, hc⟩ := h.processAlloc ha
    obtain ⟨hclt, hfds, hst, hothers, hun⟩ := hc c rfl
    have hic : i ≠ c := fun hc => hu (hc ▸ hun)
    have hsame := forkHandles_same hh
    have h₂ := (h₁.setSpace ph (inheritBreak sp (k.procs i).space)).same hsame
    have hc₂ : (k₂.procs c).fds = Kernel.initialFds ∧ (k₂.procs c).state = .embryo := by
      rw [hsame.procs, Kernel.setSpace]
      dsimp only
      rw [setProc_self]
      exact ⟨hfds, hst⟩
    have hi₂ : k₂.procs i = k.procs i := by
      rw [hsame.procs, Kernel.setSpace]
      dsimp only
      rw [setProc_other _ _ hic, hothers i hic]
    have hdup := @FdsOk.dup k₂ i c h₂ hclt hlt (by rw [hi₂]; exact hu)
      (fun o => by rw [Kernel.refsAt, hc₂.1, vfsRefs_initial, ite_self])
      { k₂.procs c with ipcHandles := handles, fds := (k.procs i).fds }
      (by rw [hi₂]) (by rw [hc₂.2]; simp)
    rw [hi₂] at hdup
    replace hdup : FdsOk (k₂.inherit c (k.procs i) handles) := hdup
    have hu₂ : ((k₂.inherit c (k.procs i) handles).procs c).state ≠ .unused := by
      unfold Kernel.inherit
      dsimp only
      rw [setProc_self, hc₂.2]
      simp
    have h₃ := hdup.start hclt hu₂ (processStarted _ c (Function.update k₂.frame .rax 0))
    rw [hstart] at h₃
    exact h₃.ret _

theorem FdsOk.execve {upath : ℕ} (h : FdsOk k) (hx : Execed k upath k') : FdsOk k' := by
  cases hx with
  | @swapped i cr3 entry rsp ctx ph ph' sp _ _ _ _ =>
    have hswap := h.setSpace (i := i) (processDestroyUserSpace ph' (k.procs i).space).1 sp
    unfold Kernel.execSwap
    dsimp only
    split <;> exact hswap.of_procs rfl rfl
  | _ => exact h.of_procs rfl rfl

theorem FdsOk.wake (h : FdsOk k) (hw : Wakes k k') : FdsOk k' := by
  cases hw with
  | nothing => exact h
  | @woken j _ hb =>
    have hset := @FdsOk.setProc k j h { k.procs j with state := .ready } rfl
      ⟨fun hc => (nomatch hc), fun hc => by rw [hb] at hc; cases hc⟩
    exact hset.of_procs rfl rfl

theorem FdsOk.exitProcess (h : FdsOk k) (hi : i < maxProcesses) (hu : (k.procs i).state ≠ .unused)
    (status : ℤ) : FdsOk (k.exitProcess i status) := by
  obtain ⟨-, -, hfds⟩ := marked_self k i status
  rw [exitProcess_eq]
  refine FdsOk.wake ?_ (wakes _ _)
  refine h.close hi hu (by rw [← hfds]; rfl) ?_ ?_
  · rw [← hfds]
    exact congrArg Process.fds (setProc_self _ i _)
  · intro j _ hj
    obtain ⟨hst, -, hfds⟩ := marked_other k status hj
    unfold SameFds Kernel.released
    dsimp only
    rw [setProc_other _ _ hj, hst]
    exact ⟨Iff.rfl, hfds⟩

theorem FdsOk.tryReap (h : FdsOk k) (parent pid : ℤ) :
    FdsOk (k.processTryReap parent pid).1 := by
  unfold Kernel.processTryReap
  split
  · rename_i j hj
    have hlt := List.mem_range.mp (List.mem_of_find?_eq_some hj)
    exact (h.processDestroy hlt).of_procs rfl rfl
  · split
    · exact h
    · exact h

theorem FdsOk.wait {pid : ℤ} {ustatus : ℕ} (h : FdsOk k) (hs : Sys.Ok k.sys l)
    (hw : Waited k pid ustatus k') : FdsOk k' := by
  have hset : ∀ {i st}, k.processCurrent = some i → st ≠ .unused →
      FdsOk (k.setProc i { k.procs i with state := st, waitPid := pid }) := fun hi hst =>
    h.setProc rfl ⟨fun hc => absurd hc hst, fun hc => absurd hc (running_live hs hi).2.1⟩
  cases hw with
  | refused r => exact h.ret r
  | @reaped i _ _ _ hr _ _ _ =>
    have hreap := h.tryReap (k.procs i).pid pid
    rw [hr] at hreap
    exact hreap.of_procs rfl rfl
  | blocked hi _ _ => exact (hset hi (by decide)).of_procs rfl rfl
  | declined hi _ => exact (hset hi (by decide)).of_procs rfl rfl

theorem FdsOk.exit {status : ℤ} (h : FdsOk k) (hs : Sys.Ok k.sys l) (he : Exited k status k') :
    FdsOk k' := by
  cases he with
  | refused => exact h.ret _
  | exited hi _ _ =>
    obtain ⟨hlt, hu, -, -⟩ := running_live hs hi
    exact (h.exitProcess hlt hu status).of_procs rfl rfl

theorem FdsOk.onSpace (h : FdsOk k) (err : ℤ) (f : Phys → Space → Phys × Space × ℤ) :
    FdsOk (k.onSpace err f) := by
  unfold Kernel.onSpace
  split
  · exact h.ret _
  · exact (h.setSpace _ _).ret _

theorem TableOk.set {fds : List Fd} {fd : ℕ} {e : Fd} (h : TableOk fds)
    (hobj : e.type = .vfs → 3 ≤ fd ∧ ∃ o, e.object = some o) : TableOk (fds.set fd e) := by
  refine ⟨by rw [List.length_set, h.length], ?_, ?_⟩
  · intro e' he' hv
    rcases List.mem_or_eq_of_mem_set he' with he' | rfl
    · exact h.object e' he' hv
    · exact (hobj hv).2
  · intro j hj
    by_cases hjf : j = fd
    · rw [List.getD_eq_getElem?_getD, hjf, List.getElem?_set]
      rw [if_pos rfl]
      split
      · intro hv
        have := (hobj hv).1
        omega
      · exact fun hc => nomatch hc
    · rw [List.getD_eq_getElem?_getD, List.getElem?_set_ne (Ne.symm hjf),
        ← List.getD_eq_getElem?_getD]
      exact h.low j hj

theorem vfsRefs_set {fds : List Fd} {fd : ℕ} {e : Fd} (hfd : fd < fds.length) (o : ℕ) :
    Kernel.vfsRefs (fds.set fd e) o =
        Kernel.vfsRefs fds o - Kernel.vfsRefs [fds.getD fd Kernel.noFd] o +
          Kernel.vfsRefs [e] o ∧
      Kernel.vfsRefs [fds.getD fd Kernel.noFd] o ≤ Kernel.vfsRefs fds o := by
  have hget : fds.getD fd Kernel.noFd = fds[fd] := List.getD_eq_getElem _ _ hfd
  unfold Kernel.vfsRefs
  rw [hget, List.countP_set hfd, List.countP_singleton, List.countP_singleton]
  refine ⟨rfl, ?_⟩
  split
  · rename_i hp
    exact List.countP_pos_iff.mpr ⟨_, List.getElem_mem hfd, hp⟩
  · exact Nat.zero_le _

theorem FdsOk.setFd (h : FdsOk k) (hi : i < maxProcesses) (hu : (k.procs i).state ≠ .unused)
    {fd : ℕ} {e : Fd} {files : Vfs.Files} (hfd : fd < maxFds)
    (hobj : e.type = .vfs → 3 ≤ fd ∧ ∃ o, e.object = some o)
    (hrefs : Exact (counts files) fun o => k.refsTo o -
      Kernel.vfsRefs [(k.procs i).fds.getD fd Kernel.noFd] o + Kernel.vfsRefs [e] o) :
    FdsOk { k.setFd i fd e with files := files } := by
  have hself := setProc_self k i { k.procs i with fds := (k.procs i).fds.set fd e }
  have hrest : ∀ j < maxProcesses, j ≠ i →
      SameFds k { k.setFd i fd e with files := files } j :=
    fun j _ hj => .of_eq (setProc_other k _ hj)
  refine h.change hi hrest ?_ ?_
  · apply hrefs.congr
    intro o
    obtain ⟨hset, hle⟩ := @vfsRefs_set (k.procs i).fds fd e
      ((h.table i hi hu).length.symm ▸ hfd) o
    have hall := (@refsTo_change k _ i hi hrest o).2
    have hold : k.refsAt i o = Kernel.vfsRefs (k.procs i).fds o := if_neg hu
    have hnew : Kernel.refsAt { k.setFd i fd e with files := files } i o =
        Kernel.vfsRefs ((k.procs i).fds.set fd e) o := by
      unfold Kernel.refsAt Kernel.setFd
      dsimp only
      rw [hself]
      exact if_neg hu
    rw [hold] at hall ⊢
    rw [hnew, hset]
    omega
  · intro _
    unfold Kernel.setFd
    dsimp only
    rw [hself]
    exact (h.table i hi hu).set hobj

theorem vfsRefs_one (e : Fd) (o : ℕ) : Kernel.vfsRefs [e] o =
    if e.type = .vfs ∧ e.object = some o then 1 else 0 := by
  rw [vfsRefs_cons]
  exact Nat.zero_add _

theorem vfsFd_eq_some {fd : ℤ} {o : ℕ} {f : Vfs.VfsFile} (hf : k.vfsFd i fd = some (o, f)) :
    fd.toNat < maxFds ∧ k.files o = some f ∧
      ((k.procs i).fds.getD fd.toNat Kernel.noFd).type = .vfs ∧
      ((k.procs i).fds.getD fd.toNat Kernel.noFd).object = some o := by
  unfold Kernel.vfsFd at hf
  split at hf
  · cases hf
  · rename_i hrange
    split at hf
    · rename_i o' hty hob
      obtain ⟨f', hf', heq⟩ := Option.map_eq_some_iff.mp hf
      cases heq
      exact ⟨by omega, hf', hty, hob⟩
    · cases hf

theorem FdsOk.setPos (h : FdsOk k) {o : ℕ} {f : Vfs.VfsFile} (hf : k.files o = some f) (pos : ℕ) :
    Exact (counts (Function.update k.files o (some { f with pos := pos }))) k.refsTo := by
  have hsame : counts (Function.update k.files o (some { f with pos := pos })) =
      counts k.files := by
    rw [counts_update]
    apply Function.update_eq_self_iff.mpr
    rw [counts, hf]
    rfl
  rw [hsame]
  exact h.refs

theorem FdsOk.of_files (h : FdsOk k) (hrefs : Exact (counts k'.files) k.refsTo)
    (hprocs : k'.procs = k.procs) : FdsOk k' := by
  have hto : ∀ o, k'.refsTo o = k.refsTo o := by
    intro o
    unfold Kernel.refsTo Kernel.refsAt
    rw [hprocs]
  exact ⟨hrefs.congr hto, hprocs ▸ h.table⟩

theorem FdsOk.opened (h : FdsOk k) (hi : i < maxProcesses) (hu : (k.procs i).state ≠ .unused)
    {fd o : ℕ} (hfd : Kernel.freeFd (k.procs i).fds = some fd) (hnew : k.files o = none)
    (node : Vfs.Node) : FdsOk { k.setFd i fd ⟨.vfs, some o, 0⟩ with
      files := Function.update k.files o (some ⟨node, 0, 1⟩) } := by
  have hlt := List.mem_range.mp (List.mem_of_find?_eq_some hfd)
  have hfree := List.find?_some hfd
  simp only [Bool.and_eq_true, decide_eq_true_eq] at hfree
  refine h.setFd hi hu hlt (fun _ => ⟨hfree.1, o, rfl⟩) ?_
  rw [counts_update]
  apply (h.refs.alloc (counts_eq_none.mpr hnew)).congr
  intro a
  rw [vfsRefs_one, vfsRefs_one, if_neg]
  · by_cases ha : a = o
    · rw [ha, Function.update_self, if_pos ⟨rfl, rfl⟩, Nat.sub_zero]
    · rw [Function.update_of_ne ha, if_neg, Nat.sub_zero, add_zero]
      exact fun hc => ha (Option.some.inj hc.2).symm
  · rw [hfree.2]
    exact fun hc => nomatch hc.1

theorem FdsOk.closed (h : FdsOk k) (hi : i < maxProcesses) (hu : (k.procs i).state ≠ .unused)
    {fd : ℤ} {o : ℕ} {f : Vfs.VfsFile} (hf : k.vfsFd i fd = some (o, f)) :
    FdsOk { k.setFd i fd.toNat Kernel.noFd with files := Vfs.refDec k.files o } := by
  obtain ⟨hlt, hfile, hty, hob⟩ := vfsFd_eq_some hf
  refine h.setFd hi hu hlt (fun hc => nomatch hc) ?_
  have hpos : 0 < k.refsTo o := by
    rw [h.refs.pos_iff, Ne, counts_eq_none, hfile]
    exact fun hc => nomatch hc
  have hdec := h.refs.dec hpos
  rw [← counts_refDec] at hdec
  apply hdec.congr
  intro a
  rw [vfsRefs_one, vfsRefs_one, if_neg (c := Kernel.noFd.type = .vfs ∧ _) (fun hc => nomatch hc.1)]
  by_cases ha : a = o
  · rw [ha, Function.update_self, if_pos ⟨hty, hob⟩, add_zero]
  · rw [Function.update_of_ne ha, if_neg, Nat.sub_zero, add_zero]
    exact fun hc => ha (Option.some.inj (hc.2.symm.trans hob))

theorem FdsOk.fileCall {op : Op} (h : FdsOk k) (hi : i < maxProcesses)
    (hu : (k.procs i).state ≠ .unused) (hc : FileCall k i op k') : FdsOk k' := by
  cases hc with
  | nothing => exact h
  | @unopened _ _ grow _ => exact h.same (heapGrow_same grow k)
  | @opened _ _ grow o fd cur hnew _ hfd =>
    have hg := heapGrow_same grow k
    have hproc : (k.heapGrow grow).procs i = k.procs i := congrFun hg.procs i
    exact (h.same hg).opened hi (hproc ▸ hu) (by rw [hproc, hfd]) (by rw [hg.files, hnew]) cur.1
  | closed hf => exact h.closed hi hu hf
  | unread _ => exact h.of_procs rfl rfl
  | read hf _ => exact h.of_files (h.setPos (vfsFd_eq_some hf).2.1 _) rfl
  | sought hf _ => exact h.of_files (h.setPos (vfsFd_eq_some hf).2.1 _) rfl
  | entered _ _ _ => exact h.setProc rfl Iff.rfl
  | told _ => exact h.of_procs rfl rfl
  | @handled handles grow _ =>
    have hproc : (k.heapGrow grow).procs i = k.procs i := congrFun (heapGrow_same grow k).procs i
    apply (h.same (heapGrow_same grow k)).setProc
    · rw [hproc]
    · rw [hproc]

theorem FdsOk.step (h : FdsOk k) (hs : Sys.Ok k.sys l) {op : Op} (hstep : step k op = some k') :
    FdsOk k' := by
  by_cases haside : op.Aside
  · obtain ⟨hprocs, hfiles, -⟩ := step_aside haside hstep
    exact h.of_procs hfiles hprocs
  by_cases hcall : op.OnProcess
  · rcases fileCalled hcall hstep with rfl | ⟨i, k₁, r, hi, hc, rfl⟩
    · exact h.ret _
    · obtain ⟨hlt, hu, -, -⟩ := running_live hs hi
      exact (h.fileCall hlt hu hc).ret r
  cases op with
  | spawnUser code parent =>
    cases hstep
    exact h.spawn (spawnedUser k code parent)
  | spawnElf image parent =>
    cases hstep
    exact h.spawn (spawnedElf k image parent)
  | fork grow heap =>
    cases hstep
    exact h.fork hs (forked k grow heap)
  | execve upath =>
    cases hstep
    exact h.execve (execed k upath)
  | brk addr =>
    cases hstep
    exact h.onSpace _ _
  | mmap addr length prot flags fd offset =>
    cases hstep
    exact h.onSpace _ _
  | munmap addr length =>
    cases hstep
    exact h.onSpace _ _
  | exit status => exact h.exit hs (exited hstep)
  | fault vector => exact h.exit hs (exited hstep)
  | wait pid ustatus => exact h.wait hs (waited hs hstep)
  | reap pid =>
    cases hstep
    exact h.tryReap 0 pid
  | _ => first | exact absurd trivial haside | exact absurd trivial hcall

end Operations

section Results

variable {k k' : Kernel} {l : List ℕ}

theorem FdsOk.boot (h : Booted k) (hfiles : ∀ o, k.files o = none) : FdsOk k := by
  obtain ⟨k₀, f, -, -, -, rfl⟩ := h
  generalize k₀.schedInit f = k₁ at hfiles
  have hno : ∀ fd ∈ List.replicate maxFds Kernel.noFd, fd.type ≠ .vfs := by decide
  have hused : ∀ i, (k₁.processInit.procs i).state ≠ .unused →
      (k₁.processInit.procs i).fds = List.replicate maxFds Kernel.noFd := by
    intro i hu
    unfold Kernel.processInit at hu ⊢
    dsimp only at hu ⊢
    split
    · rfl
    · rename_i hi
      rw [if_neg hi] at hu
      exact absurd rfl hu
  constructor
  · intro o
    have hzero : k₁.processInit.refsTo o = 0 := by
      apply Finset.sum_eq_zero
      intro i _
      unfold Kernel.refsAt
      split
      · rfl
      · rename_i hu
        rw [hused i hu]
        exact vfsRefs_eq_zero hno
    rw [if_pos hzero, counts_eq_none, hfiles]
  · intro i _ hu
    rw [hused i hu]
    exact ⟨rfl, fun fd hfd hv => absurd hv (hno fd hfd), by decide⟩

/-- The kernel at boot, before any file is opened. -/
def BootedClosed (k : Kernel) : Prop := Booted k ∧ ∀ o, k.files o = none

theorem reach_fds (h : Reach step Legal BootedClosed k) : (∃ l, Sys.Ok k.sys l) ∧ FdsOk k := by
  apply h.invariant (P := fun k => (∃ l, Sys.Ok k.sys l) ∧ FdsOk k)
  · exact fun k hk => ⟨booted_ok hk.1, .boot hk.1 hk.2⟩
  · rintro k op k' ⟨⟨l, hs⟩, hf⟩ hl hstep
    exact ⟨step_ok hs hl hstep, hf.step hs hstep⟩

theorem FdsOk.files_eq_none (h : FdsOk k) (o : ℕ) : k.files o = none ↔ k.refsTo o = 0 := by
  have hpos := h.refs.pos_iff (o := o)
  rw [Ne, counts_eq_none] at hpos
  by_cases hnone : k.files o = none
  · simp only [hnone, not_true_eq_false, iff_false] at hpos
    exact ⟨fun _ => by omega, fun _ => hnone⟩
  · have := hpos.mpr hnone
    exact ⟨fun hc => absurd hc hnone, fun hc => by omega⟩

end Results

end VoidOS.Proc
