import VoidOS.LifecycleInv
import VoidOS.ProcessCases

/-!
# The kernel simulates the abstract system

Memory operations are invisible; what is left of a kernel step is a sequence of events.
-/

namespace VoidOS.Proc

open Mm Elf Sched Relation

section Root

variable {ph ph' : Phys} {sp sp' : Space} {b : Bool}

theorem processMapUser_cr3 {virt phys flags : ℕ}
    (h : processMapUser ph sp virt phys flags = (ph', sp', b)) : sp'.cr3 = sp.cr3 := by
  unfold processMapUser at h
  split_ifs at h
  · cases h
    rfl
  · cases h
    rfl
  · split at h <;> cases h <;> rfl

theorem processAllocUserPage_cr3 {virt flags : ℕ}
    (h : processAllocUserPage ph sp virt flags = (ph', sp', b)) : sp'.cr3 = sp.cr3 := by
  unfold processAllocUserPage at h
  dsimp only at h
  split_ifs at h
  · cases h
    rfl
  · split at h
    · rename_i hm
      cases h
      exact processMapUser_cr3 hm
    · rename_i hm
      cases h
      exact processMapUser_cr3 hm

theorem allocPages_cr3 {flags n va : ℕ} (h : allocPages flags n va ph sp = (ph', sp', b)) :
    sp'.cr3 = sp.cr3 := by
  induction n generalizing va ph sp with
  | zero =>
    cases h
    rfl
  | succ n ih =>
    rw [allocPages] at h
    split at h
    · rename_i hm
      cases h
      exact processAllocUserPage_cr3 hm
    · rename_i hm
      exact (ih h).trans (processAllocUserPage_cr3 hm)

theorem umReleaseLoop_cr3 {start fuel i : ℕ} : (umReleaseLoop start fuel i ph sp).2.cr3 = sp.cr3 := by
  induction fuel generalizing i ph sp with
  | zero => rfl
  | succ fuel ih =>
    rw [umReleaseLoop]
    split
    · rfl
    · split
      · exact ih
      · exact ih

theorem sysBrk_cr3 {addr : ℕ} : (sysBrk ph sp addr).2.1.cr3 = sp.cr3 := by
  have hset : (umBrkSet ph sp addr).2.1.cr3 = sp.cr3 := by
    unfold umBrkSet
    split_ifs
    · rfl
    · rfl
    · split
      · rename_i hm
        exact allocPages_cr3 hm
      · rename_i sp₁ hm
        have h₁ : sp₁.cr3 = sp.cr3 := allocPages_cr3 hm
        exact h₁
    · exact umReleaseLoop_cr3
    · rfl
  unfold sysBrk
  split_ifs
  · rfl
  · rfl
  · rfl
  · split
    · rename_i hm
      rw [hm] at hset
      exact hset
    · rename_i hm
      rw [hm] at hset
      exact hset

theorem mmapLoop_cr3 {flags base n k : ℕ} (h : mmapLoop flags base n k ph sp = (ph', sp', b)) :
    sp'.cr3 = sp.cr3 := by
  induction n generalizing k ph sp with
  | zero =>
    cases h
    rfl
  | succ n ih =>
    rw [mmapLoop] at h
    split at h
    · rename_i hm
      cases h
      exact processAllocUserPage_cr3 hm
    · rename_i hm
      exact (ih h).trans (processAllocUserPage_cr3 hm)

theorem sysMmap_cr3 {nxOk : Bool} {addr length prot flags offset : ℕ} {fd : ℤ} :
    (sysMmap nxOk ph sp addr length prot flags fd offset).2.1.cr3 = sp.cr3 := by
  unfold sysMmap
  split_ifs
  · rfl
  · rfl
  · rfl
  · rfl
  · rfl
  · dsimp only
    split
    · rfl
    · split
      · rename_i hm
        exact mmapLoop_cr3 hm
      · rename_i hm
        exact mmapLoop_cr3 hm

theorem sysMunmap_cr3 {addr length : ℕ} : (sysMunmap ph sp addr length).2.1.cr3 = sp.cr3 := by
  unfold sysMunmap
  dsimp only
  split_ifs
  · rfl
  · rfl
  · rfl
  · exact umReleaseLoop_cr3

end Root

def Process.node (p : Process) : Option Node :=
  if p.state = .unused then none
  else some ⟨p.pid, p.ppid, p.state, p.exitStatus, p.thread, p.waitPid, p.space.cr3⟩

namespace Kernel

def sys (k : Kernel) : Sys :=
  ⟨fun i => if i < maxProcesses then (k.procs i).node else none, k.nextPid, k.sched, k.exits,
    k.reaps⟩

/-- `pid` is the pid of a process that has not exited. -/
def Live (k : Kernel) (pid : ℤ) : Prop :=
  ∃ i < maxProcesses, (k.procs i).pid = pid ∧ (k.procs i).state ≠ .unused ∧
    (k.procs i).state ≠ .zombie

end Kernel

/-- Who may do what: a spawn is for a live parent, and `sched_exit` is called once the scheduler
runs, by another thread than the idle one. -/
def Legal (k : Kernel) : Op → Prop
  | .spawnUser _ parent => k.Live parent
  | .spawnElf _ parent => k.Live parent
  | .schedExit => k.sched.active = true ∧ k.sched.idleThread ≠ k.sched.current
  | _ => True

section Table

variable {k k' k₀ : Kernel} {i c : ℕ} {parent : ℤ}

theorem node_eq_some {p : Process} {n : Node} (h : p.node = some n) : p.state ≠ .unused ∧
    n = ⟨p.pid, p.ppid, p.state, p.exitStatus, p.thread, p.waitPid, p.space.cr3⟩ := by
  unfold Process.node at h
  split at h
  · cases h
  · exact ⟨by assumption, (Option.some.inj h).symm⟩

theorem sys_node (hi : i < maxProcesses) (hu : (k.procs i).state ≠ .unused) :
    k.sys.nodes i = some ⟨(k.procs i).pid, (k.procs i).ppid, (k.procs i).state,
      (k.procs i).exitStatus, (k.procs i).thread, (k.procs i).waitPid, (k.procs i).space.cr3⟩ := by
  show (if i < maxProcesses then (k.procs i).node else none) = _
  rw [if_pos hi, Process.node, if_neg hu]

theorem sys_eq_some {n : Node} (h : k.sys.nodes i = some n) : i < maxProcesses ∧
    (k.procs i).state ≠ .unused ∧ n = ⟨(k.procs i).pid, (k.procs i).ppid, (k.procs i).state,
      (k.procs i).exitStatus, (k.procs i).thread, (k.procs i).waitPid,
      (k.procs i).space.cr3⟩ := by
  replace h : (if i < maxProcesses then (k.procs i).node else none) = some n := h
  split at h
  · exact ⟨by assumption, node_eq_some h⟩
  · cases h

theorem sys_live {pid : ℤ} (h : k.Live pid) : Sys.Live k.sys.nodes pid := by
  obtain ⟨i, hi, hp, hu, hz⟩ := h
  exact ⟨i, _, sys_node hi hu, hp, hz⟩

theorem sys_ext (hn : ∀ i < maxProcesses, (k'.procs i).node = (k.procs i).node)
    (hp : k'.nextPid = k.nextPid) (hs : k'.sched = k.sched) (he : k'.exits = k.exits)
    (hr : k'.reaps = k.reaps) : k'.sys = k.sys := by
  unfold Kernel.sys
  rw [hp, hs, he, hr]
  congr 1
  funext i
  split
  · rename_i hi
    exact hn i hi
  · rfl

def Sys.Spares (s s' : Sys) : Prop := Sys.Step s s' ∧ s'.reaps = s.reaps

theorem frame_step (k : Kernel) (f : Frame) : Sys.Spares k.sys (k.setFrame f).sys :=
  ⟨Sys.Step.frame f, rfl⟩

theorem ret_step (k : Kernel) (v : ℤ) : Sys.Spares k.sys (k.ret v).sys := frame_step k _

theorem SameTable.sys (h : SameTable k k') : k'.sys = k.sys :=
  sys_ext (fun i _ => by rw [h.procs]) h.nextPid h.sched h.exits h.reaps

/-- Slot `c` holds a process that is being built on top of `k₀`. -/
structure Embryo (k₀ k : Kernel) (c : ℕ) (parent : ℤ) : Prop where
  lt : c < maxProcesses
  unused : (k₀.procs c).state = .unused
  others : ∀ j, j ≠ c → k.procs j = k₀.procs j
  state : (k.procs c).state = .embryo
  pid : (k.procs c).pid = k₀.nextPid
  rest : (k.procs c).ppid = parent ∧ (k.procs c).exitStatus = 0 ∧ (k.procs c).waitPid = 0
  nextPid : k.nextPid = k₀.nextPid + 1
  sched : k.sched = k₀.sched
  exits : k.exits = k₀.exits
  reaps : k.reaps = k₀.reaps

theorem processAlloc_same (ha : k.processAlloc parent = (k', none)) : SameTable k k' := by
  cases slotted ha with
  | full => exact .refl k
  | noSpace _ => exact ⟨rfl, rfl, rfl, rfl, rfl, rfl, rfl⟩

theorem processAlloc_embryo (ha : k.processAlloc parent = (k', some c)) :
    Embryo k k' c parent := by
  cases slotted ha with
  | embryo hlt hun _ _ =>
    have hself : ∀ p, Function.update k.procs c p c = p := fun p => Function.update_self ..
    refine ⟨hlt, hun, fun j hj => Function.update_of_ne hj _ _, ?_, ?_, ?_, rfl, rfl, rfl, rfl⟩
    all_goals
      simp only [Kernel.setProc, hself]
      try trivial

theorem Embryo.setProc (h : Embryo k₀ k c parent) {p : Process} (hs : p.state = .embryo)
    (hp : p.pid = (k.procs c).pid) (hpp : p.ppid = (k.procs c).ppid)
    (he : p.exitStatus = (k.procs c).exitStatus) (hw : p.waitPid = (k.procs c).waitPid)
    (hprocs : k'.procs = Function.update k.procs c p) (hnext : k'.nextPid = k.nextPid)
    (hsched : k'.sched = k.sched) (hexits : k'.exits = k.exits) (hreaps : k'.reaps = k.reaps) :
    Embryo k₀ k' c parent := by
  have hself : k'.procs c = p := by rw [hprocs, Function.update_self]
  refine ⟨h.lt, h.unused, ?_, ?_, ?_, ?_, hnext.trans h.nextPid, hsched.trans h.sched,
    hexits.trans h.exits, hreaps.trans h.reaps⟩
  · intro j hj
    rw [hprocs, Function.update_of_ne hj, h.others j hj]
  · rw [hself, hs]
  · rw [hself, hp, h.pid]
  · rw [hself, hpp, he, hw]
    exact h.rest

theorem Embryo.setSpace (h : Embryo k₀ k c parent) (ph : Phys) (sp : Space) :
    Embryo k₀ (k.setSpace c ph sp) c parent :=
  h.setProc (p := { k.procs c with space := sp }) h.state rfl rfl rfl rfl rfl rfl rfl rfl rfl

theorem Embryo.same (h : Embryo k₀ k c parent) (hs : SameTable k k') :
    Embryo k₀ k' c parent := by
  refine ⟨h.lt, h.unused, ?_, ?_, ?_, ?_, hs.nextPid.trans h.nextPid, hs.sched.trans h.sched,
    hs.exits.trans h.exits, hs.reaps.trans h.reaps⟩
  all_goals rw [hs.procs]
  · exact h.others
  · exact h.state
  · exact h.pid
  · exact h.rest

theorem Embryo.destroy (h : Embryo k₀ k c parent) :
    Sys.Spares k₀.sys (k.processDestroy c).sys := by
  have hsys : (k.processDestroy c).sys = { k₀.sys with nextPid := k₀.nextPid + 1 } := by
    unfold Kernel.processDestroy
    rw [if_neg (by rw [h.state]; simp)]
    dsimp only [Kernel.sys, Kernel.setProc]
    rw [h.nextPid, h.sched, h.exits, h.reaps]
    congr 1
    funext j
    by_cases hj : j = c
    · rw [hj, Function.update_self]
      simp [Process.node, h.unused]
    · rw [Function.update_of_ne hj, h.others j hj]
  rw [hsys]
  exact ⟨Sys.Step.failed (Int.le_add_one le_rfl), rfl⟩

theorem Embryo.start {f : Frame} (h : Embryo k₀ k c parent) (hlive : k₀.Live parent)
    (hs : Started k c f k') : Sys.Spares k₀.sys k'.sys := by
  have h₁ : Embryo k₀ k.allocKstack.1 c parent := h.same (allocKstack_same k)
  cases hs with
  | failed => exact h₁.destroy
  | @started sc t ha =>
    have hsys : ({ k.allocKstack.1.setProc c { k.procs c with thread := some t, state := .ready }
        with sched := sc } : Kernel).sys =
        { k₀.sys.setNode c
            ⟨k₀.sys.nextPid, parent, .ready, 0, some t, 0, (k.procs c).space.cr3⟩ with
          nextPid := k₀.sys.nextPid + 1, sched := sc } := by
      dsimp only [Kernel.sys, Kernel.setProc, Sys.setNode]
      rw [h₁.nextPid, h₁.exits, h₁.reaps]
      congr 1
      funext j
      by_cases hj : j = c
      · obtain ⟨e₁, e₂, e₃⟩ := h.rest
        rw [hj, Function.update_self, Function.update_self, if_pos h.lt]
        simp [Process.node, h.pid, e₁, e₂, e₃]
      · rw [Function.update_of_ne hj, Function.update_of_ne hj, h₁.others j hj]
    rw [hsys]
    have ha' : schedAdoptThread k₀.sys.sched f (k.procs c).space.cr3 c = some (sc, t) := by
      rw [← ha, h.sched]
      rfl
    refine ⟨Sys.Step.born h.lt ?_ (sys_live hlive) ha', rfl⟩
    show (if c < maxProcesses then (k₀.procs c).node else none) = none
    rw [if_pos h.lt, Process.node, if_pos h.unused]

end Table

section Operations

variable {k k' : Kernel} {i : ℕ} {parent : ℤ} {l : List ℕ}

theorem Spawns.steps (h : Spawns k parent k') (hlive : k.Live parent) :
    ReflTransGen Sys.Spares k.sys k'.sys := by
  cases h with
  | refused => exact .refl
  | full ha => rw [(processAlloc_same ha).sys]
  | failed ph sp ha => exact .single ((processAlloc_embryo ha).setSpace ph sp).destroy
  | started ph sp f ha =>
    exact .single (((processAlloc_embryo ha).setSpace ph sp).start hlive (processStarted _ _ f))

theorem running_live (h : Sys.Ok k.sys l) (hi : k.processCurrent = some i) :
    i < maxProcesses ∧ (k.procs i).state ≠ .unused ∧ (k.procs i).state ≠ .zombie ∧
      (k.procs i).thread = some k.sched.current := by
  obtain ⟨n, hn, hz, ht⟩ := h.running hi
  obtain ⟨hlt, hu, rfl⟩ := sys_eq_some hn
  exact ⟨hlt, hu, hz, ht⟩

theorem Forked.steps {grow : ℕ} {heap : Bool} (hf : Forked k grow heap k')
    (h : Sys.Ok k.sys l) : ReflTransGen Sys.Spares k.sys k'.sys := by
  cases hf with
  | refused _ => exact .single (ret_step k _)
  | @full i k₁ _ ha =>
    rw [← (processAlloc_same ha).sys]
    exact .single (ret_step k₁ _)
  | noPages _ ha _ =>
    exact (ReflTransGen.single ((processAlloc_embryo ha).setSpace _ _).destroy).tail
      (ret_step _ _)
  | noTable _ ha _ hh =>
    have he := ((processAlloc_embryo ha).setSpace _ _).same (forkHandles_same hh)
    exact (ReflTransGen.single he.destroy).tail (ret_step _ _)
  | @started i c k₁ k₂ k₃ ph sp handles b hf ha _ hh hst =>
    obtain ⟨hlt, hu, hz, -⟩ := running_live h hf.1
    have he := ((processAlloc_embryo ha).setSpace _ _).same (forkHandles_same hh)
    have he' : Embryo k (k₂.inherit c (k.procs i) handles) c (k.procs i).pid :=
      he.setProc (p := { k₂.procs c with ipcHandles := handles, fds := (k.procs i).fds })
        he.state rfl rfl rfl rfl rfl rfl rfl rfl rfl
    have hstart := he'.start ⟨i, hlt, rfl, hu, hz⟩
      (processStarted _ c (Function.update k₂.frame .rax 0))
    rw [hst] at hstart
    exact (ReflTransGen.single hstart).tail (ret_step _ _)

theorem sys_setSpace (k : Kernel) (i : ℕ) (ph : Phys) {sp : Space}
    (hcr3 : sp.cr3 = (k.procs i).space.cr3) : (k.setSpace i ph sp).sys = k.sys := by
  refine sys_ext (k := k) ?_ rfl rfl rfl rfl
  intro j _
  show (Function.update k.procs i _ j).node = _
  by_cases hj : j = i
  · rw [hj, Function.update_self]
    simp [Process.node, hcr3]
  · rw [Function.update_of_ne hj]

theorem sys_setProc (k : Kernel) {p : Process} (hi : i < maxProcesses) (hu : p.state ≠ .unused) :
    (k.setProc i p).sys = k.sys.setNode i
      ⟨p.pid, p.ppid, p.state, p.exitStatus, p.thread, p.waitPid, p.space.cr3⟩ := by
  dsimp only [Kernel.sys, Kernel.setProc, Sys.setNode]
  congr 1
  funext j
  by_cases hj : j = i
  · rw [hj, Function.update_self, Function.update_self, if_pos hi, Process.node, if_neg hu]
  · rw [Function.update_of_ne hj, Function.update_of_ne hj]

theorem onSpace_steps (k : Kernel) (err : ℤ) {f : Phys → Space → Phys × Space × ℤ}
    (hf : ∀ ph sp, (f ph sp).2.1.cr3 = sp.cr3) :
    ReflTransGen Sys.Spares k.sys (k.onSpace err f).sys := by
  unfold Kernel.onSpace
  split
  · exact .single (ret_step k _)
  · rename_i i _
    dsimp only
    rw [← sys_setSpace k i (f k.phys (k.procs i).space).1 (hf k.phys (k.procs i).space)]
    exact .single (ret_step _ _)

theorem execSwap_steps (h : Sys.Ok k.sys l) (hi : k.processCurrent = some i) (ph : Phys)
    (sp : Space) (entry rsp : ℕ) :
    ReflTransGen Sys.Spares k.sys (k.execSwap i ph sp entry rsp).sys := by
  obtain ⟨hlt, hu, hz, ht⟩ := running_live h hi
  unfold Kernel.execSwap
  dsimp only
  rw [ht]
  dsimp only
  refine (ReflTransGen.single ⟨?_, rfl⟩).tail (frame_step _ _)
  have hexec := @Sys.Step.exec k.sys i _ sp.cr3 _ (sys_node hlt hu) hz ht
  refine cast (congrArg _ ?_) hexec
  dsimp only [Kernel.sys, Kernel.setSpace, Kernel.setProc, Sys.setNode]
  congr 1
  funext j
  by_cases hj : j = i
  · rw [hj, Function.update_self, Function.update_self, if_pos hlt]
    simp [Process.node, hu]
  · rw [Function.update_of_ne hj, Function.update_of_ne hj]

theorem Execed.steps {upath : ℕ} (hx : Execed k upath k') (h : Sys.Ok k.sys l) :
    ReflTransGen Sys.Spares k.sys k'.sys := by
  cases hx with
  | refused v => exact .single (ret_step k v)
  | @noSpace i ctx ph _ _ => exact .single (ret_step { k with phys := ph } _)
  | failed _ _ _ _ => exact .single (ret_step { k with phys := _ } _)
  | swapped he _ _ _ => exact execSwap_steps h he.1 _ _ _ _

theorem sys_get (k : Kernel) (pid : ℤ) : k.sys.get pid = k.processGet pid := by
  unfold Sys.get Kernel.processGet
  apply List.find?_congr
  intro j hj
  show ((if j < maxProcesses then (k.procs j).node else none).any _) = _
  rw [if_pos (List.mem_range.mp hj), Process.node]
  split
  · rename_i hu
    simp [hu]
  · rename_i hu
    simp [hu]

theorem sys_wake (k : Kernel) (pid : ℤ) : (k.wakeParent pid).sys = k.sys.wake pid := by
  unfold Kernel.wakeParent Sys.wake
  rw [sys_get]
  cases hg : k.processGet pid with
  | none => rfl
  | some j =>
    have hlt := List.mem_range.mp (List.mem_of_find?_eq_some hg)
    have hp := List.find?_some hg
    have hu : (k.procs j).state ≠ .unused := by
      simp only [Bool.and_eq_true, decide_eq_true_eq] at hp
      exact hp.1
    dsimp only
    rw [sys_node hlt hu]
    dsimp only
    split
    · have hset := sys_setProc k hlt (p := { k.procs j with state := .ready }) (by simp)
      generalize k.setProc j { k.procs j with state := .ready } = k₁ at hset ⊢
      dsimp only at hset
      cases hth : (k.procs j).thread with
      | none =>
        rw [hth] at hset
        exact hset
      | some t =>
        rw [hth] at hset
        exact congrArg (fun s : Sys => { s with sched := s.sched.setState t .ready }) hset
    · rfl

theorem sys_exitProcess {n : Node} (hn : k.sys.nodes i = some n) (status : ℤ) :
    (k.exitProcess i status).sys = k.sys.exit i n status := by
  obtain ⟨hi, -, rfl⟩ := sys_eq_some hn
  unfold Kernel.exitProcess Sys.exit
  dsimp only
  rw [sys_wake]
  have hpp : (Kernel.reparent (Function.update k.procs i
      { k.procs i with exitStatus := status, state := .zombie }) (k.procs i).pid
      (k.procs i).ppid i).ppid = (k.procs i).ppid := by
    unfold Kernel.reparent
    rw [Function.update_self]
    split <;> rfl
  dsimp only [Kernel.setProc]
  rw [Function.update_self]
  dsimp only
  rw [hpp]
  congr 1
  dsimp only [Kernel.sys]
  congr 1
  funext j
  unfold Sys.reparent
  by_cases hj : j = i
  · rw [hj, Function.update_self, Function.update_self, if_pos hi]
    unfold Kernel.reparent
    rw [Function.update_self]
    simp only [Option.map_some, Process.node]
    split_ifs <;> simp_all
  · rw [Function.update_of_ne hj, Function.update_of_ne hj]
    unfold Kernel.reparent
    rw [Function.update_of_ne hj]
    by_cases hlt : j < maxProcesses
    · rw [if_pos hlt, if_pos hlt]
      unfold Process.node
      split_ifs <;> simp_all
    · rw [if_neg hlt, if_neg hlt]
      rfl

theorem tick_steps {b : Bool} (h : k.tick = some (k', b)) : Sys.Spares k.sys k'.sys := by
  obtain ⟨sc, hsc, rfl⟩ := tick_eq_some h
  exact ⟨Sys.Step.tick (s := k.sys) hsc, rfl⟩

theorem Exited.steps {status : ℤ} (he : Exited k status k') (h : Sys.Ok k.sys l) :
    ReflTransGen Sys.Spares k.sys k'.sys := by
  cases he with
  | refused => exact .single (ret_step k _)
  | @exited i sc b hi hpid hsc =>
    obtain ⟨n, hn, -, -⟩ := h.running hi
    have hsys := sys_exitProcess hn status
    have hpid' : n.pid ≠ 0 := by
      obtain ⟨-, -, rfl⟩ := sys_eq_some hn
      exact hpid
    obtain ⟨w, hx⟩ := h.exited hi hn hpid' status
    rw [← hsys] at hx
    have hcur : (k.exitProcess i status).sched.current = k.sched.current := by
      have hsame := (Sys.woken_same k.sys.sched w).1
      rw [← hx.sched] at hsame
      exact hsame
    have ht' : schedTick ((k.sys.exit i n status).sched.setState k.sys.sched.current .exited) =
        some (sc, b) := by
      rw [← hsys]
      unfold Kernel.stop at hsc
      rw [hcur] at hsc
      exact hsc
    refine .single ⟨cast (congrArg _ ?_) (Sys.Step.exit hi hn hpid' ht'), hx.reaps⟩
    rw [← hsys]
    rfl

theorem zombie_pid_pos (h : Sys.Ok k.sys l) (hi : i < maxProcesses)
    (hz : (k.procs i).state = .zombie) : 0 < (k.procs i).pid := by
  have hn := sys_node hi (show (k.procs i).state ≠ .unused by rw [hz]; nofun)
  have hb := (h.tree.bound i _ hn).1
  rcases hb.lt_or_eq with hlt | heq
  · exact hlt
  · obtain ⟨m, hm, hm0, hmz⟩ := h.tree.kernel
    have h0 : i = 0 := h.tree.distinct i 0 _ m hn hm (by rw [hm0]; exact heq.symm)
    rw [← h0, hn] at hm
    cases hm
    exact absurd hz hmz

theorem tryReap_cases (h : Sys.Ok k.sys l) (parent pid : ℤ) :
    (∃ i k₁, k.processTryReap parent pid = (k₁, (k.procs i).pid, (k.procs i).exitStatus) ∧
      i < maxProcesses ∧ (k.procs i).state = .zombie ∧ (k.procs i).ppid = parent ∧
      (pid = -1 ∨ (k.procs i).pid = pid) ∧ 0 < (k.procs i).pid ∧ Sys.Step k.sys k₁.sys ∧
      k₁ = { k.processDestroy i with
        reaps := k.reaps ++ [⟨parent, (k.procs i).pid, (k.procs i).exitStatus⟩] }) ∨
    (k.processTryReap parent pid = (k, 0, 0) ∧ Sys.Awaits k.sys.nodes parent pid) ∨
    k.processTryReap parent pid = (k, veChild, 0) := by
  unfold Kernel.processTryReap
  split
  · left
    rename_i i hi
    have hlt := List.mem_range.mp (List.mem_of_find?_eq_some hi)
    have hp := List.find?_some hi
    simp only [Kernel.isChild, Bool.and_eq_true, decide_eq_true_eq, Bool.or_eq_true] at hp
    obtain ⟨⟨⟨hu, hpp⟩, hpid⟩, hz⟩ := hp
    have hn := sys_node hlt hu
    refine ⟨i, _, rfl, hlt, hz, hpp, hpid, zombie_pid_pos h hlt hz, ?_, rfl⟩
    have hstep := Sys.Step.reap hn hz
    refine cast (congrArg _ ?_) hstep
    unfold Kernel.processDestroy
    rw [if_neg hu]
    dsimp only [Kernel.sys, Kernel.setProc]
    rw [hpp]
    congr 1
    funext j
    by_cases hj : j = i
    · rw [hj, Function.update_self, Function.update_self]
      simp [Process.node]
    · rw [Function.update_of_ne hj, Function.update_of_ne hj]
  · right
    rename_i hnone
    split
    · left
      rename_i hany
      refine ⟨rfl, ?_⟩
      obtain ⟨j, hj, hc⟩ := List.any_eq_true.mp hany
      have hlt := List.mem_range.mp hj
      have hnz := List.find?_eq_none.mp hnone j hj
      simp only [Kernel.isChild, Bool.and_eq_true, decide_eq_true_eq, Bool.or_eq_true]
        at hc hnz
      obtain ⟨⟨hu, hpp⟩, hpid⟩ := hc
      exact ⟨j, _, sys_node hlt hu, ⟨hpp, hpid⟩, fun hz => hnz ⟨⟨⟨hu, hpp⟩, hpid⟩, hz⟩⟩
    · exact Or.inr rfl

theorem reap_steps (h : Sys.Ok k.sys l) (parent pid : ℤ) :
    ReflTransGen Sys.Step k.sys (k.processTryReap parent pid).1.sys := by
  rcases tryReap_cases h parent pid with ⟨i, k₁, hr, -, -, -, -, -, hs, -⟩ | ⟨hr, -⟩ | hr
  · rw [hr]
    exact .single hs
  · rw [hr]
  · rw [hr]

/-- What `process_wait_current` does. -/
inductive Waited (k : Kernel) (pid : ℤ) (ustatus : ℕ) : Kernel → Prop
  | refused (r : ℤ) : Waited k pid ustatus (k.ret r)
  | reaped {i c : ℕ} {k₁ : Kernel} : k.processCurrent = some i →
      k.processTryReap (k.procs i).pid pid = (k₁, (k.procs c).pid, (k.procs c).exitStatus) →
      (k.procs c).state = .zombie → (∀ j, j ≠ c → k₁.procs j = k.procs j) →
      Sys.Step k.sys k₁.sys →
      Waited k pid ustatus ({ k₁ with
        phys := Kernel.storeStatus k₁.phys (k.procs i).space.cr3 ustatus
          (k.procs c).exitStatus }.ret (k.procs c).pid)
  | blocked {i : ℕ} {sc : Scheduler} : k.processCurrent = some i →
      Sys.Awaits k.sys.nodes (k.procs i).pid pid →
      schedTick ((k.ret 0).stop .blocked).sched = some (sc, true) →
      Waited k pid ustatus
        { k.setProc i { k.procs i with state := .blocked, waitPid := pid } with sched := sc }
  | declined {i : ℕ} {sc : Scheduler} : k.processCurrent = some i →
      schedTick ((k.ret 0).stop .blocked).sched = some (sc, false) →
      Waited k pid ustatus
        { k.setProc i { k.procs i with state := .running, waitPid := pid } with
          sched := sc.setState k.sched.current .running }

theorem processDestroy_other (k : Kernel) {j : ℕ} (hj : j ≠ i) :
    (k.processDestroy i).procs j = k.procs j := by
  unfold Kernel.processDestroy
  dsimp only
  split
  · rfl
  · exact Function.update_of_ne hj _ _

theorem waited (h : Sys.Ok k.sys l) {pid : ℤ} {ustatus : ℕ}
    (hs : k.processWaitCurrent pid ustatus = some k') : Waited k pid ustatus k' := by
  unfold Kernel.processWaitCurrent at hs
  split at hs
  · cases hs
    exact .refused _
  rename_i i hi
  dsimp only at hs
  rcases tryReap_cases h (k.procs i).pid pid with
    ⟨c, k₁, hr, -, hz, -, -, hpos, hstep, rfl⟩ | ⟨hr, haw⟩ | hr
  · rw [hr] at hs
    dsimp only at hs
    rw [if_pos hpos] at hs
    cases hs
    exact .reaped hi hr hz (fun j hj => processDestroy_other k hj) hstep
  · rw [hr] at hs
    dsimp only at hs
    rw [if_neg (lt_irrefl 0), if_neg (lt_irrefl 0)] at hs
    split at hs
    · cases hs
    · rename_i ht
      cases hs
      obtain ⟨sc, hsc, rfl⟩ := tick_eq_some ht
      exact .blocked hi haw hsc
    · rename_i ht
      cases hs
      obtain ⟨sc, hsc, rfl⟩ := tick_eq_some ht
      refine cast (congrArg _ ?_) (@Waited.declined k pid ustatus i sc hi hsc)
      unfold Kernel.setProc
      dsimp only [Kernel.stop, Kernel.ret, Kernel.setFrame]
      rw [Function.update_self, Function.update_idem]
      rfl
  · rw [hr] at hs
    dsimp only at hs
    rw [if_neg (by decide), if_pos (by decide)] at hs
    cases hs
    exact .refused _

theorem Waited.steps {pid : ℤ} {ustatus : ℕ} (hw : Waited k pid ustatus k') (h : Sys.Ok k.sys l) :
    ReflTransGen Sys.Step k.sys k'.sys := by
  -- a block sets the result register first and is then one event
  have hnode : ∀ {i}, k.processCurrent = some i → (k.ret 0).sys.nodes i = some ⟨(k.procs i).pid,
      (k.procs i).ppid, (k.procs i).state, (k.procs i).exitStatus, (k.procs i).thread,
      (k.procs i).waitPid, (k.procs i).space.cr3⟩ := fun hi =>
    sys_node (k := k.ret 0) (running_live h hi).1 (running_live h hi).2.1
  have hrun : (k.ret 0).sys.running = k.processCurrent := by
    show ((k.ret 0).sched.threads k.sched.current).proc = _
    unfold Kernel.ret Kernel.setFrame
    dsimp only
    rw [threads_setThread, if_pos rfl]
    rfl
  have hset : ∀ {i} st, k.processCurrent = some i → st ≠ ProcState.unused → _ := fun {i} st hi hst =>
    @sys_setProc i k { k.procs i with state := st, waitPid := pid } (running_live h hi).1 hst
  cases hw with
  | refused r => exact .single (ret_step k r).1
  | @reaped _ _ k₁ _ _ _ _ hstep =>
    exact (ReflTransGen.single hstep).tail (ret_step { k₁ with phys := _ } _).1
  | @blocked i sc hi haw hsc =>
    refine ReflTransGen.head (ret_step k 0).1 (.single (cast (congrArg _ ?_)
      (@Sys.Step.block (k.ret 0).sys i _ pid sc (hrun.trans hi) (hnode hi) haw hsc)))
    exact congrArg (fun s : Sys => { s with sched := sc }) (hset .blocked hi (by decide)).symm
  | @declined i sc hi hsc =>
    refine ReflTransGen.head (ret_step k 0).1 (.single (cast (congrArg _ ?_)
      (@Sys.Step.unblock (k.ret 0).sys i _ pid sc (hrun.trans hi) (hnode hi) hsc)))
    exact congrArg (fun s : Sys => { s with sched := sc.setState k.sched.current .running })
      (hset .running hi (by decide)).symm

theorem sys_setProc_same (k : Kernel) {p : Process} (hp : p.node = (k.procs i).node) :
    (k.setProc i p).sys = k.sys := by
  refine sys_ext ?_ rfl rfl rfl rfl
  intro j _
  show (Function.update k.procs i p j).node = _
  by_cases hj : j = i
  · rw [hj, Function.update_self, hp]
  · rw [Function.update_of_ne hj]

theorem sys_setFd (k : Kernel) (i fd : ℕ) (e : Fd) : (k.setFd i fd e).sys = k.sys :=
  sys_setProc_same k rfl

theorem sys_setHandles (k : Kernel) (i : ℕ) (handles : Option Ipc.HandleTable) (grow : ℕ) :
    (k.setHandles i handles grow).sys = k.sys := by
  have hgrow := heapGrow_same grow k
  refine (sys_setProc_same (k.heapGrow grow) ?_).trans hgrow.sys
  rw [hgrow.procs]
  rfl

theorem FileCall.sys {op : Op} (h : FileCall k i op k') : k'.sys = k.sys := by
  cases h with
  | @unopened _ _ grow _ => exact (heapGrow_same grow k).sys
  | @opened _ _ grow _ _ _ _ _ _ =>
    exact (sys_setFd (k.heapGrow grow) i _ _).trans (heapGrow_same grow k).sys
  | closed _ => exact sys_setFd k i _ _
  | entered _ _ _ => exact sys_setProc_same k rfl
  | handled => exact sys_setHandles k i _ _
  | _ => rfl

def Op.Reaps : Op → Prop
  | .wait .. | .reap _ => True
  | _ => False

theorem step_spares (h : Sys.Ok k.sys l) {a : Op} (hl : Legal k a) (hr : ¬ a.Reaps)
    (hs : step k a = some k') : ReflTransGen Sys.Spares k.sys k'.sys := by
  by_cases hcall : a.OnProcess
  · rcases fileCalled hcall hs with rfl | ⟨i, k₁, r, -, hc, rfl⟩
    · exact .single (ret_step k _)
    · rw [← hc.sys]
      exact .single (ret_step k₁ r)
  cases a with
  | spawnUser code parent =>
    cases hs
    exact (spawnedUser k code parent).steps hl
  | spawnElf image parent =>
    cases hs
    exact (spawnedElf k image parent).steps hl
  | fork grow heap =>
    cases hs
    exact (forked k grow heap).steps h
  | execve upath =>
    cases hs
    exact (execed k upath).steps h
  | brk addr =>
    cases hs
    exact onSpace_steps k _ fun _ _ => sysBrk_cr3
  | mmap addr length prot flags fd offset =>
    cases hs
    exact onSpace_steps k _ fun _ _ => sysMmap_cr3
  | munmap addr length =>
    cases hs
    exact onSpace_steps k _ fun _ _ => sysMunmap_cr3
  | exit status => exact (exited hs).steps h
  | fault vector => exact (exited hs).steps h
  | wait pid ustatus => exact (hr trivial).elim
  | reap pid => exact (hr trivial).elim
  | yield =>
    obtain ⟨⟨k₁, b⟩, ht, rfl⟩ := Option.map_eq_some_iff.mp hs
    exact (ReflTransGen.single (ret_step k 0)).tail (tick_steps ht)
  | tick =>
    obtain ⟨⟨k₁, b⟩, ht, rfl⟩ := Option.map_eq_some_iff.mp hs
    exact .single (tick_steps ht)
  | createKthread func arg =>
    cases hs
    have hsame := allocKstack_same k
    unfold Kernel.createKthread
    split
    · exact .refl
    · generalize k.allocKstack = r at hsame ⊢
      obtain ⟨k₁, top⟩ := r
      rw [← hsame.sys]
      exact .single ⟨Sys.Step.kthread (s := k₁.sys) rfl, rfl⟩
  | schedExit =>
    obtain ⟨sc, ht, rfl⟩ := Option.map_eq_some_iff.mp hs
    exact .single ⟨Sys.Step.schedExit (s := k.sys) hl.1 hl.2 ht, rfl⟩
  | schedStart =>
    cases hs
    exact .single ⟨Sys.Step.start (s := k.sys), rfl⟩
  | heapGrow n =>
    cases hs
    rw [(heapGrow_same n k).sys]
  | registers f =>
    cases hs
    exact .single (frame_step k f)
  | store v b =>
    replace hs : k.userStore v b = some k' := hs
    unfold Kernel.userStore at hs
    split at hs
    · cases hs
    · dsimp only at hs
      split_ifs at hs
      cases hs
      exact .refl
  | _ => exact absurd trivial hcall

theorem step_steps (h : Sys.Ok k.sys l) {a : Op} (hl : Legal k a) (hs : step k a = some k') :
    ReflTransGen Sys.Step k.sys k'.sys := by
  by_cases hr : a.Reaps
  · cases a with
    | wait pid ustatus => exact (waited h hs).steps h
    | reap pid =>
      cases hs
      exact reap_steps h 0 pid
    | _ => exact hr.elim
  · exact (step_spares h hl hr hs).lift id fun _ _ he => he.1

end Operations

end VoidOS.Proc
