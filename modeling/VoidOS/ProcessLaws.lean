import VoidOS.FirstProcess
import VoidOS.OpenFiles
import VoidOS.PathFetch

namespace VoidOS.Proc

open Transition ByteMem PageTree Mm Elf Sched

/-- Descriptor 3 is an open file. -/
def oneFile : List Fd := Kernel.initialFds.set 3 ⟨.vfs, some 0, 0⟩

/-- Process 1, in slot `i`, has opened the root directory and forked process 2, in slot `c`.
Process 1 runs, and process 2 is next. -/
structure Family (k : Kernel) (i c : ℕ) : Prop where
  reach : Reach step Legal (· = booted 1024 []) k
  parent : ∃ sp, k.procs i = ⟨1, 0, .ready, 0, some 2, sp, oneFile, none, 0, [Vfs.slash]⟩
  child : ∃ sp, k.procs c = ⟨2, 1, .ready, 0, some 3, sp, oneFile, none, 0, [Vfs.slash]⟩
  other : ∀ j, j ≠ i → j ≠ c → k.procs j = (booted 1024 []).procs j
  parent_slot : i < maxProcesses ∧ i ≠ 0
  child_slot : c < maxProcesses ∧ c ≠ 0 ∧ c ≠ i
  current : k.sched.current = 2 ∧ (k.sched.threads 2).proc = some i
  next : k.sched.next 2 = some 3 ∧ (k.sched.threads 3).proc = some c ∧ k.sched.state 3 = .ready
  active : k.sched.active = true
  file : k.files 0 = some ⟨Vfs.builtTree, 0, 2⟩

section Run

variable {k k' : Kernel} {n i c brk pages upath : ℕ}

theorem user_pageEntry (phys flags : ℕ) : user (pageEntry phys flags) = true := by
  have hbit : Nat.testBit vmmUser 2 = true := by decide
  unfold user pageEntry
  rw [Nat.testBit_or, Nat.testBit_or, hbit]
  simp

/-- A page that the break has just been moved over holds the empty string. -/
theorem Running.empty_path {sp : Space} {e : Mapping} {ph : Phys} (h : Running n k i brk pages)
    (hsp : (k.procs i).space.cr3 = sp.cr3) {flags : ℕ} (hflags : PageFlags flags)
    (ha : Allocated ph sp k.phys { sp with umap := sp.umap ++ [e] } flags [e]) :
    Vfs.copyUserPath k.phys.ram (k.procs i).space.cr3 e.virt = .ok [] := by
  have hok := h.spaceOk
  have hv : e.virt < userLimit := ha.virt e List.mem_cons_self
  have hleaf := ha.new e List.mem_cons_self e.virt hv rfl
  rw [← hsp] at hleaf
  have hp : present (leaf k.phys.ram (k.procs i).space.cr3 e.virt) = true := by
    rw [hleaf]
    exact present_pageEntry ..
  obtain ⟨f, -, haddr, hphys, -⟩ := hok.phys_of_present hv hp
  have hpage : OnUserPage k.phys.ram (k.procs i).space.cr3 e.virt := by
    refine ⟨hv, ?_⟩
    unfold pageOk
    rw [hok.pte hv, hleaf, present_pageEntry, user_pageEntry]
    rfl
  have hbyte : userByte k.phys.ram (k.procs i).space.cr3 e.virt = 0 := by
    rw [userByte, hphys]
    apply ha.zero e List.mem_cons_self
    rw [hleaf, ha.addr_entry hflags List.mem_cons_self] at haddr
    rw [haddr]
    unfold pageSize
    omega
  refine (Vfs.copyUserPath_string hok.userFrames ⟨List.not_mem_nil, ?_⟩ (by decide) ?_).1 ?_
  · intro j hj _
    rw [Nat.le_zero.mp hj]
    exact hbyte
  · unfold userLimit at hv
    omega
  · intro j hj
    rw [Nat.le_zero.mp hj]
    exact hpage

theorem Running.opens (h : Running n k i brk pages) {upath : ℕ}
    (hpath : Vfs.copyUserPath k.phys.ram (k.procs i).space.cr3 upath = .ok []) :
    step k (.vfsOpen upath 0 0 (some 0)) = some ({ k.setFd i 3 ⟨.vfs, some 0, 0⟩ with
      files := Function.update k.files 0 (some ⟨Vfs.builtTree, 0, 1⟩) }.ret 3) := by
  obtain ⟨sp, hproc⟩ := h.proc
  have hlook : Vfs.lookup k.phys.ram (k.procs i).space.cr3 k.root (k.procs i).cwd upath =
      .ok (Vfs.builtTree, []) := by
    unfold Vfs.lookup
    rw [hpath, h.root, hproc]
    rfl
  have hopen : k.sysVfsOpen i upath 0 0 (some 0) = ({ k.setFd i 3 ⟨.vfs, some 0, 0⟩ with
      files := Function.update k.files 0 (some ⟨Vfs.builtTree, 0, 1⟩) }, 3) := by
    unfold Kernel.sysVfsOpen
    dsimp only
    rw [hlook, hproc]
    rfl
  have hfree : (some 0).all (fun o => (k.files o).isNone) = true := by
    rw [h.files]
    rfl
  show (if _ then some (k.onProcess _) else none) = _
  rw [if_pos hfree, Kernel.onProcess, h.current]
  dsimp only
  rw [hopen]

theorem next_ret (k : Kernel) (v : ℤ) (t : ℕ) :
    (k.ret v).sched.next t = k.sched.next t ∧ (k.ret v).sched.state t = k.sched.state t ∧
      ((k.ret v).sched.threads t).proc = (k.sched.threads t).proc := by
  unfold Kernel.ret Kernel.setFrame Scheduler.next Scheduler.state
  dsimp only
  rw [threads_setThread]
  split
  · rename_i ht
    rw [ht]
    exact ⟨rfl, rfl, rfl⟩
  · exact ⟨rfl, rfl, rfl⟩

/-- A process that runs with room left opens the root directory and forks. -/
theorem Running.family (h : Running 1024 k i brk pages) (hpages : pages ≤ 20)
    (hpath : Vfs.copyUserPath k.phys.ram (k.procs i).space.cr3 upath = .ok []) :
    ∃ k' c, Family k' i c := by
  obtain ⟨sp, hproc⟩ := h.proc
  have hopen := h.opens hpath
  generalize hk₂ : ({ k.setFd i 3 ⟨.vfs, some 0, 0⟩ with
    files := Function.update k.files 0 (some ⟨Vfs.builtTree, 0, 1⟩) } : Kernel).ret 3 = k₂ at hopen
  have hself : k₂.procs i = ⟨1, 0, .ready, 0, some 2, sp, oneFile, none, 0, [Vfs.slash]⟩ := by
    rw [← hk₂]
    show Function.update k.procs i _ i = _
    rw [Function.update_self, hproc]
    rfl
  have hother : ∀ j, j ≠ i → k₂.procs j = (booted 1024 []).procs j := by
    intro j hj
    rw [← hk₂]
    exact (Function.update_of_ne hj _ _).trans (h.other j hj)
  have hreach : Reach step Legal (· = booted 1024 []) k₂ :=
    (h.reach.mono fun _ _ ha => ha.1).step (a := Op.vfsOpen upath 0 0 (some 0)) trivial hopen
  obtain ⟨l, hs⟩ := reach_ok ((Reach.init h.boot.booted).trans hreach)
  have hcur : k₂.processCurrent = some i := by
    rw [← hk₂, Kernel.processCurrent_ret]
    exact h.current
  have hthread : k₂.sched.current = 2 := by
    have := (running_live hs hcur).2.2.2
    rw [hself] at this
    exact (Option.some.inj this).symm
  have hrest : k₂.phys = k.phys ∧ k₂.sched.nextTid = 3 ∧ k₂.nextPid = 2 ∧
      k₂.sched.active = true ∧ k₂.files 0 = some ⟨Vfs.builtTree, 0, 1⟩ := by
    rw [← hk₂]
    exact ⟨rfl, h.nextTid, h.nextPid, h.active, rfl⟩
  -- slot 1 or slot 2 is free
  obtain ⟨j, hj, hji, hj0⟩ : ∃ j < maxProcesses, j ≠ i ∧ j ≠ 0 := by
    by_cases h1 : i = 1
    · exact ⟨2, by decide, by omega, by decide⟩
    · exact ⟨1, by decide, Ne.symm h1, by decide⟩
  have hspace : sp = (k.procs i).space := by rw [hproc]
  have hok := h.spaceOk
  have humap := h.umap
  rw [← hspace] at hok humap
  have hfree := h.free
  have hcost : processCost sp.umap.length ≤ k.phys.free.card := by
    have hstack : kstackCost = 64 := by decide
    unfold processCost
    omega
  have hunused : (k₂.procs j).state = .unused := by
    rw [hother j hji]
    exact (booted_start (by decide) (by decide)).2.2.2.1 j hj0
  obtain ⟨k₃, c, sp', f, hfork, hborn, hfiles⟩ := @fork_succeeds k₂ j i (hrest.1 ▸ hok.phys) hj
    hunused ⟨hcur, by simp [hself], by simp [hself]⟩ (by rw [hself])
    (by rw [hself]; exact hok.virt) (by rw [hself]; exact hok.length)
    (by rw [hself, hrest.1]; exact hcost) (by rw [hrest.2.1]; decide) 0 true
  rw [hself, hrest.2.1, hrest.2.2.1] at hborn
  have hci : c ≠ i := by
    rintro rfl
    have := hborn.unused
    rw [hself] at this
    cases this
  have hc0 : c ≠ 0 := by
    rintro rfl
    have := hborn.unused
    rw [hother 0 (Ne.symm h.ne_zero)] at this
    cases this
  have hsched := hborn.sched
  rw [hrest.2.1] at hsched
  obtain ⟨-, -, hcur₃, -, hproc₃, -, hstate₃⟩ := hs.sched.adopt hsched
  obtain ⟨hnext₃, -, hact₃⟩ := hs.sched.adopt_next hsched
  have hcur₂ : (k₂.sched.threads 2).proc = some i := by
    rw [← hthread]
    exact hcur
  refine ⟨k₃.ret 2, c, ?_, ⟨sp, ?_⟩, ⟨sp', ?_⟩, ?_, ⟨h.used.1, h.ne_zero⟩, ⟨hborn.lt, hc0, hci⟩,
    ⟨hcur₃.trans hthread, ?_⟩, ⟨?_, ?_, ?_⟩, hact₃.trans hrest.2.2.2.1, ?_⟩
  · refine hreach.step (a := Op.fork 0 true) trivial ?_
    show some _ = _
    rw [hfork, hrest.2.2.1]
  · show k₃.procs i = _
    rw [hborn.procs, Function.update_of_ne hci.symm, hself]
  · show k₃.procs c = _
    rw [hborn.procs, Function.update_self]
  · intro j hji hjc
    show k₃.procs j = _
    rw [hborn.procs, Function.update_of_ne hjc, hother j hji]
  · rw [(next_ret k₃ 2 2).2.2, hproc₃, if_neg (by decide)]
    exact hcur₂
  · rw [(next_ret k₃ 2 2).1, ← hcur₃.trans hthread]
    exact hnext₃
  · rw [(next_ret k₃ 2 3).2.2, hproc₃, if_pos rfl]
  · rw [(next_ret k₃ 2 3).2.1, hstate₃, if_pos rfl]
  · show k₃.files 0 = _
    rw [hfiles, hself]
    show Vfs.refInc k₂.files 0 0 = _
    rw [Vfs.refInc, Function.update_self, hrest.2.2.2.2]
    rfl

theorem family : ∃ k i c, Family k i c := by
  obtain ⟨k₀, i, h₀⟩ := booted_running (le_refl 1024) (by decide)
  obtain ⟨k, e, h, -, hsp, ha⟩ := h₀.byte le_rfl (by decide) (by decide) (by decide)
  obtain ⟨k', c, hf⟩ := h.family (by decide) (h.empty_path (by rw [hsp]) h₀.spaceOk.perm ha)
  exact ⟨k', i, c, hf⟩

theorem Family.reachBooted (h : Family k i c) : Reach step Legal Booted k :=
  (Reach.init (booted_frames (by decide) (by decide)).booted).trans h.reach

theorem Family.processCurrent (h : Family k i c) : k.processCurrent = some i := by
  unfold Kernel.processCurrent
  rw [h.current.1]
  exact h.current.2

theorem Family.state (h : Family k i c) (j : ℕ) :
    (k.procs j).state ≠ .zombie ∧ (k.procs j).state ≠ .blocked := by
  obtain ⟨sp, hp⟩ := h.parent
  obtain ⟨sp', hc⟩ := h.child
  by_cases hji : j = i
  · simp [hji, hp]
  by_cases hjc : j = c
  · simp [hjc, hc]
  rw [h.other j hji hjc]
  by_cases h0 : j = 0
  · rw [h0]
    exact ⟨fun hs => (nomatch hs), fun hs => (nomatch hs)⟩
  · rw [(booted_start (by decide) (by decide)).2.2.2.1 j h0]
    simp

/-- Process 1 waits for process 2, which runs. -/
structure Waiting (k : Kernel) (i c : ℕ) : Prop where
  reach : Reach step Legal Booted k
  parent : k.Used i ∧ (k.procs i).pid = 1 ∧ (k.procs i).state = .blocked
  child : k.Used c ∧ (k.procs c).pid = 2 ∧ (k.procs c).ppid = 1
  current : k.sched.current = 3 ∧ k.processCurrent = some c

theorem Family.waits (h : Family k i c) : ∃ k', Waiting k' i c := by
  obtain ⟨sp, hp⟩ := h.parent
  obtain ⟨sp', hc⟩ := h.child
  obtain ⟨hclt, -, hci⟩ := h.child_slot
  have hreap : k.processTryReap (k.procs i).pid (-1) = (k, 0, 0) := by
    unfold Kernel.processTryReap
    rw [List.find?_eq_none.mpr (fun j _ => by simp [(h.state j).1]), if_pos]
    rw [List.any_eq_true]
    exact ⟨c, List.mem_range.mpr hclt, by simp [Kernel.isChild, hc, hp]⟩
  generalize hk₁ : (k.setProc i { k.procs i with state := .blocked, waitPid := -1 }).ret 0 = k₁
  have hprocs : k₁.procs = Function.update k.procs i
      { k.procs i with state := .blocked, waitPid := -1 } := by
    rw [← hk₁]
    rfl
  have hsched : k₁.sched.current = 2 ∧ k₁.sched.active = true := by
    rw [← hk₁]
    exact ⟨h.current.1, h.active⟩
  have hthread : ∀ t, k₁.sched.next t = k.sched.next t ∧ k₁.sched.state t = k.sched.state t ∧
      (k₁.sched.threads t).proc = (k.sched.threads t).proc := by
    rw [← hk₁]
    exact next_ret _ 0
  have htick := @Scheduler.Ok.tick_next k₁.sched 3 hsched.2
    (by rw [hsched.1, (hthread 2).1]; exact h.next.1) (by rw [hsched.1]; decide)
    ((hthread 3).2.1.trans h.next.2.2) .blocked
  have hstep : step k (.wait (-1) 0) =
      some { k₁ with sched := Scheduler.Ok.ticked k₁.sched .blocked 3 } := by
    show k.processWaitCurrent (-1) 0 = _
    unfold Kernel.processWaitCurrent
    rw [h.processCurrent]
    dsimp only
    rw [hreap]
    dsimp only
    rw [if_neg (lt_irrefl _), if_neg (lt_irrefl _), hk₁]
    unfold Kernel.tick
    rw [show (k₁.stop .blocked).sched = k₁.sched.setState k₁.sched.current .blocked from rfl, htick]
    rfl
  refine ⟨_, h.reachBooted.step (a := Op.wait (-1) 0) trivial hstep,
    ⟨⟨h.parent_slot.1, ?_⟩, ?_, ?_⟩, ⟨⟨hclt, ?_⟩, ?_, ?_⟩, rfl, ?_⟩
  · show (k₁.procs i).state ≠ _
    rw [hprocs, Function.update_self]
    exact fun hs => by cases hs
  · show (k₁.procs i).pid = _
    rw [hprocs, Function.update_self, hp]
  · show (k₁.procs i).state = _
    rw [hprocs, Function.update_self]
  · show (k₁.procs c).state ≠ _
    rw [hprocs, Function.update_of_ne hci, hc]
    exact fun hs => by cases hs
  · show (k₁.procs c).pid = _
    rw [hprocs, Function.update_of_ne hci, hc]
  · show (k₁.procs c).ppid = _
    rw [hprocs, Function.update_of_ne hci, hc]
  · show ((Scheduler.Ok.ticked k₁.sched .blocked 3).threads 3).proc = some c
    rw [Scheduler.Ok.threads_ticked]
    exact (hthread 3).2.2.trans h.next.2.1

end Run

section Results

variable {k : Kernel}

/-- In every state reached: pids are distinct, parents are older and live, the way up ends at
pid 0, and no process is reaped twice or with another status than the one it exited with. What
is reaped next is a zombie, for its parent of that moment. Pids do not wrap here. -/
theorem process_tree (h : Reach step Legal Booted k) :
    (∀ i j, k.Used i → k.Used j → (k.procs i).pid = (k.procs j).pid → i = j) ∧
    (∀ i, k.Used i → (k.procs i).pid ≠ 0 → 0 ≤ (k.procs i).ppid ∧
      (k.procs i).ppid < (k.procs i).pid ∧ k.Live (k.procs i).ppid) ∧
    (∀ i, k.Used i → k.Rooted i) ∧
    (k.exits.map Prod.fst).Nodup ∧ (k.reaps.map Reaped.pid).Nodup ∧
    (∀ r ∈ k.reaps, (r.pid, r.status) ∈ k.exits ∧ ∀ i, k.Used i → (k.procs i).pid ≠ r.pid) ∧
    (∀ i, k.Used i → (k.procs i).state = .zombie →
      ((k.procs i).pid, (k.procs i).exitStatus) ∈ k.exits) ∧
    ∀ a k', Legal k a → step k a = some k' →
      k'.reaps = k.reaps ∨ ∃ i parent, Reaps k k' i parent := by
  obtain ⟨l, hok⟩ := reach_ok h
  have hnode := fun (i : ℕ) (hu : k.Used i) => sys_node hu.1 hu.2
  refine ⟨?_, ?_, fun i hu => rooted hok hu, hok.logs.exits_nodup, hok.logs.reaps_nodup, ?_, ?_, ?_⟩
  · intro i j hi hj he
    exact hok.tree.distinct i j _ _ (hnode i hi) (hnode j hj) he
  · intro i hi hne
    obtain ⟨h₀, hlt, hlive⟩ := hok.tree.parent i _ (hnode i hi) hne
    exact ⟨h₀, hlt, live_of_sys hlive⟩
  · intro r hr
    refine ⟨hok.logs.reaps_exits r hr, ?_⟩
    intro i hi
    exact hok.logs.reaps_gone r hr i _ (hnode i hi)
  · intro i hi hz
    exact hok.logs.zombie i _ (hnode i hi) hz
  · intro a k' hl hs
    exact step_reaps hok hl hs

/-- Process 1 has exited before its child: it is a zombie, and process 2 has a new parent. -/
theorem process_tree_orphan : ∃ k i c, Reach step Legal Booted k ∧
    k.Used i ∧ (k.procs i).pid = 1 ∧ (k.procs i).state = .zombie ∧ (1, 7) ∈ k.exits ∧
    k.Used c ∧ (k.procs c).pid = 2 ∧ (k.procs c).ppid = 0 ∧ k.Live 0 ∧ k.Rooted c := by
  obtain ⟨k, i, c, h⟩ := family
  obtain ⟨sp, hp⟩ := h.parent
  obtain ⟨sp', hc⟩ := h.child
  obtain ⟨hclt, -, hci⟩ := h.child_slot
  obtain ⟨l, hs⟩ := reach_ok h.reachBooted
  obtain ⟨m, w, n, hm, hx, -, -, hexit⟩ := exit_returns hs h.processCurrent (by simp [hp]) 7
  obtain ⟨hilt, -, rfl⟩ := sys_eq_some hm
  have hnc := sys_node hclt (show (k.procs c).state ≠ .unused by simp [hc])
  -- the slots of the two processes after the exit
  have hi := hx.nodes i
  rw [hm, Option.map_some] at hi
  obtain ⟨-, hiu, hinode⟩ := sys_eq_some hi
  have hj := hx.nodes c
  rw [hnc, Option.map_some] at hj
  obtain ⟨-, hcu, hcnode⟩ := sys_eq_some hj
  have hreach := h.reachBooted.step (a := Op.exit 7) trivial hexit
  have htree := process_tree hreach
  have hcpid : ((k.exitProcess i 7).procs c).pid = 2 := by
    exact (congrArg Node.pid hcnode).symm.trans (by simp [hc])
  have hcppid : ((k.exitProcess i 7).procs c).ppid = 0 := by
    exact (congrArg Node.ppid hcnode).symm.trans (by simp [hc, hp])
  refine ⟨_, i, c, hreach, ⟨hilt, hiu⟩, ?_, ?_, ?_, ⟨hclt, hcu⟩, hcpid, hcppid, ?_,
    htree.2.2.1 c ⟨hclt, hcu⟩⟩
  · show ((k.exitProcess i 7).procs i).pid = 1
    exact (congrArg Node.pid hinode).symm.trans (by simp [hp])
  · show ((k.exitProcess i 7).procs i).state = .zombie
    exact (congrArg Node.state hinode).symm.trans (by simp)
  · show (1, 7) ∈ (k.exitProcess i 7).sys.exits
    rw [hx.exits]
    simp [hp]
  · have hlive := (htree.2.1 c ⟨hclt, hcu⟩ (by
      show ((k.exitProcess i 7).procs c).pid ≠ 0
      rw [hcpid]
      decide)).2.2
    rwa [show ({ (k.exitProcess i 7).stop .exited with sched := _ } : Kernel).procs c =
      (k.exitProcess i 7).procs c from rfl, hcppid] at hlive

/-- A blocked process waits for a child that has not exited, and the exit of a child makes a
blocked parent and its thread ready. -/
theorem no_lost_wakeup (h : Reach step Legal Booted k) :
    (∀ i, k.Used i → (k.procs i).state = .blocked → ∃ t, (k.procs i).thread = some t ∧
      k.sched.state t = .blocked ∧ ∃ c, k.Used c ∧ (k.procs c).ppid = (k.procs i).pid ∧
        ((k.procs i).waitPid = -1 ∨ (k.procs c).pid = (k.procs i).waitPid) ∧
        (k.procs c).state ≠ .zombie) ∧
    ∀ i j status, k.processCurrent = some i → (k.procs i).pid ≠ 0 → k.Used j →
      (k.procs j).pid = (k.procs i).ppid → (k.procs j).state = .blocked →
      ∃ t k', (k.procs j).thread = some t ∧ ((k.exitProcess i status).procs j).state = .ready ∧
        (k.exitProcess i status).sched.state t = .ready ∧ k.processExitCurrent status = some k' ∧
        (k'.procs j).state = .ready ∧ (k'.sched.state t = .ready ∨ k'.sched.current = t) := by
  obtain ⟨l, hok⟩ := reach_ok h
  refine ⟨?_, fun i j status => exit_wakes hok status⟩
  intro i hi hb
  have hn := sys_node hi.1 hi.2
  obtain ⟨t, -, ht, -, -⟩ := hok.threads.thread i _ hn (by
    dsimp only
    rw [hb]
    simp)
  obtain ⟨c, m, hm, ⟨hpp, hsel⟩, hz⟩ := hok.blocked.awaits i _ hn hb
  obtain ⟨hc, hcu, rfl⟩ := sys_eq_some hm
  exact ⟨t, ht, hok.blocked.thread i _ t hn hb ht, c, ⟨hc, hcu⟩, hpp, hsel, hz⟩

/-- Process 1 is blocked in its wait, and the exit of process 2 makes it ready. -/
theorem no_lost_wakeup_family : ∃ k k' i c, Reach step Legal Booted k ∧
    (k.procs i).state = .blocked ∧ (∃ t, k.sched.state t = .blocked) ∧
    k.processCurrent = some c ∧ (k.procs c).ppid = (k.procs i).pid ∧
    step k (.exit 3) = some k' ∧ (k'.procs i).state = .ready := by
  obtain ⟨k₀, i, c, h₀⟩ := family
  obtain ⟨k, h⟩ := h₀.waits
  obtain ⟨hused, hpid, hblocked⟩ := h.parent
  obtain ⟨hcused, hcpid, hcppid⟩ := h.child
  obtain ⟨hall, hexit⟩ := no_lost_wakeup h.reach
  obtain ⟨t, -, hthread, -⟩ := hall i hused hblocked
  obtain ⟨-, k', -, -, -, hstep, hready, -⟩ := hexit c i 3 h.current.2 (by rw [hcpid]; decide) hused
    (by rw [hpid, hcppid]) hblocked
  exact ⟨k, k', i, c, h.reach, hblocked, ⟨t, hthread⟩, h.current.2, by rw [hpid, hcppid], hstep,
    hready⟩

/-- The queue of `k` as `pick_next` finds it: perhaps a thread has been woken, and the running
thread has been given the state `st`. -/
def Kernel.Picking (k : Kernel) (st : ThreadState) (sc : Scheduler) : Prop :=
  ∃ sc₀, (sc₀ = k.sched ∨ ∃ t, k.sched.state t = .blocked ∧ sc₀ = k.sched.setState t .ready) ∧
    sc = (sc₀.setState sc₀.current st).preempted

/-- In every state reached the linked threads form one cycle with the running and the idle
thread, `pick_next` finds a ready one, and a thread that has exited never runs again. Here
`sched_exit` is called once the scheduler runs, and not by the idle thread. -/
theorem scheduler_integrity (h : Reach step Legal Booted k) :
    ∃ l, Ring.Cycle k.sched.next l ∧ (∀ t, k.sched.next t ≠ none ↔ t ∈ l) ∧
      k.sched.current ∈ l ∧ k.sched.idleThread ∈ l ∧
      (∀ t ∈ l, k.sched.state t = .running ↔ t = k.sched.current) ∧
      (∀ st sc, st = .running ∨ k.sched.idleThread ≠ k.sched.current → k.Picking st sc →
        ∃ t ∈ l, pickNext sc = some t ∧ sc.state t = .ready) ∧
      ∀ t ∈ l, k.sched.state t = .exited → ∀ k', Reach step Legal (· = k) k' →
        k'.sched.state t = .exited ∧ k'.sched.current ≠ t := by
  obtain ⟨l, hok⟩ := reach_ok h
  have hsched : k.sched.Ok l := hok.sched
  refine ⟨l, hsched.cycle, hsched.linked, hsched.current_mem, hsched.idle_mem, hsched.running,
    ?_, ?_⟩
  · rintro st sc hst ⟨sc₀, h₀ | ⟨t, hb, h₀⟩, rfl⟩
    · rw [h₀]
      exact hsched.pickNext hst
    · rw [h₀]
      exact (hsched.wake hb).pickNext hst
  · intro t ht he k' hk'
    have hinv : (∃ l', Sys.Ok k'.sys l') ∧ k'.sched.state t = .exited ∧
        t < k'.sched.nextTid := by
      refine hk'.invariant (P := fun k' => (∃ l', Sys.Ok k'.sys l') ∧
        k'.sched.state t = .exited ∧ t < k'.sched.nextTid) ?_ ?_
      · rintro _ rfl
        exact ⟨⟨l, hok⟩, he, hsched.lt t ht⟩
      · rintro k₁ a k₂ ⟨⟨l₁, h₁⟩, he₁, hlt₁⟩ hl hs
        exact ⟨step_ok h₁ hl hs, h₁.exited_steps (step_steps h₁ hl hs) hlt₁ he₁⟩
    obtain ⟨⟨l', hok'⟩, he', -⟩ := hinv
    refine ⟨he', ?_⟩
    rintro rfl
    have hrun : k'.sched.state k'.sched.current = .running := hok'.sched.current_running
    rw [hrun] at he'
    cases he'

/-- After two ticks, a wait that blocks and an exit, the thread of process 2 never runs again. -/
theorem scheduler_integrity_family : ∃ k l, Reach step Legal Booted k ∧
    Ring.Cycle k.sched.next l ∧ 3 ∈ l ∧ k.sched.current ∈ l ∧ k.sched.state 3 = .exited ∧
    ∀ k', Reach step Legal (· = k) k' → k'.sched.current ≠ 3 := by
  obtain ⟨k₀, i, c, h₀⟩ := family
  obtain ⟨k, h⟩ := h₀.waits
  obtain ⟨l₀, hs⟩ := reach_ok h.reach
  obtain ⟨m, w, n, -, -, -, hne, hexit⟩ := exit_returns hs h.current.2
    (by rw [h.child.2.1]; decide) 3
  have hcur := (Sys.woken_same k.sched w).1
  have hreach := h.reach.step (a := Op.exit 3) trivial hexit
  obtain ⟨l, hcycle, hlinked, hmem, -, -, -, hdead⟩ := scheduler_integrity hreach
  have hstate : (Scheduler.Ok.ticked (Sys.woken k.sched w) .exited n).state 3 = .exited := by
    rw [h.current.1] at hne
    rw [Scheduler.Ok.state_ticked, if_neg (Ne.symm hne), hcur, h.current.1, if_pos rfl]
    rfl
  -- thread 3 was current, so it is in the queue
  have hmem₃ : 3 ∈ l := by
    rw [← hlinked]
    show (Scheduler.Ok.ticked (Sys.woken k.sched w) .exited n).next 3 ≠ none
    have hnext : (Sys.woken k.sched w).next 3 = k.sched.next 3 := by
      cases w with
      | none => rfl
      | some jt => exact next_setState
    rw [Scheduler.Ok.next_ticked, hnext]
    have := (hs.sched.linked k.sched.current).mpr hs.sched.current_mem
    rwa [h.current.1] at this
  exact ⟨_, l, hreach, hcycle, hmem₃, hmem, hstate, fun k' hk' => (hdead 3 hmem₃ hstate k' hk').2⟩

/-- A machine of 128 frames. Frame 1 is an empty PML4. -/
def smallKernel : Kernel where
  phys := ⟨fun _ => 0, fun f => f < 2, 128⟩
  kernelPml4 := 0x1000
  nxOk := true
  blobs := []
  trampoline := 0
  nextStackVaddr := 0xFFFFFFFF90000000
  heapTop := 0xFFFFFFFFA0000000
  procs := fun _ => ⟨-1, -1, .unused, 0, none, ⟨0, [], 0, 0, 0⟩, [], none, 0, []⟩
  nextPid := 0
  sched := bootThreads 0
  files := fun _ => none
  root := Vfs.builtTree
  heapFrames := []
  stackFrames := []
  exits := []
  reaps := []

theorem smallKernel_idle : (smallKernel.schedInit 0).sched.idleThread = 1 := by
  decide +kernel

theorem smallKernel_booted : Booted (smallKernel.schedInit 0).processInit :=
  ⟨smallKernel, 0, rfl, rfl, by rw [smallKernel_idle]; decide, rfl⟩

/-- The scheduler after its start and one tick: the idle thread runs. -/
def idleQueue : Option Scheduler :=
  (schedTick (schedStart (smallKernel.schedInit 0).processInit.sched)).map Prod.fst

/-- Before `sched_start` the tick declines, so the boot thread cannot hand over. -/
theorem boot_exit_stops : ∃ k k', Booted k ∧ step k .schedExit = some k' ∧
    ∀ t, k'.sched.state t ≠ .running := by
  obtain ⟨hq, -, -⟩ := @schedInit_queue smallKernel 0 (by rw [smallKernel_idle]; decide)
  have hact : ((smallKernel.schedInit 0).processInit.sched.setState
      (smallKernel.schedInit 0).processInit.sched.current .exited).active = false := hq.active
  refine ⟨_, { (smallKernel.schedInit 0).processInit with
    sched := (smallKernel.schedInit 0).processInit.sched.setState
      (smallKernel.schedInit 0).processInit.sched.current .exited }, smallKernel_booted, ?_, ?_⟩
  · show Option.map _ (Sched.schedExit _) = _
    unfold Sched.schedExit schedTick
    rw [hact]
    rfl
  · intro t
    have hcur : (smallKernel.schedInit 0).processInit.sched.current = 0 := hq.current
    rw [hcur, state_setState, state_processInit, hq.state]
    split_ifs <;> simp

/-- Two calls of `sched_exit` that break the queue. Before `sched_start` nobody runs after it. And
once the idle thread has exited, `pick_next` still falls back on it when the boot thread exits. -/
theorem sched_exit_unguarded :
    (∃ k k', Booted k ∧ step k .schedExit = some k' ∧ ∀ t, k'.sched.state t ≠ .running) ∧
    ∃ k k' k'', Reach step (fun _ _ => True) Booted k ∧
      k.sched.current = 1 ∧ k.sched.idleThread = 1 ∧
      step k .schedExit = some k' ∧ k'.sched.state 1 = .exited ∧ Legal k' .schedExit ∧
      step k' .schedExit = some k'' ∧ k''.sched.current = 1 := by
  refine ⟨boot_exit_stops, ?_⟩
  obtain ⟨s₁, h₁, hq₁⟩ : ∃ s₁, idleQueue = some s₁ ∧ (s₁.current, s₁.idleThread) = (1, 1) :=
    Option.map_eq_some_iff.mp (by decide +kernel)
  obtain ⟨s₂, h₂, hq₂⟩ : ∃ s₂, idleQueue.bind Sched.schedExit = some s₂ ∧
      (s₂.state 1, s₂.active, s₂.current, s₂.idleThread) = (.exited, true, 0, 1) :=
    Option.map_eq_some_iff.mp (by decide +kernel)
  obtain ⟨s₃, h₃, hq₃⟩ : ∃ s₃, (idleQueue.bind Sched.schedExit).bind Sched.schedExit = some s₃ ∧
      s₃.current = 1 :=
    Option.map_eq_some_iff.mp (by decide +kernel)
  rw [h₂] at h₃
  rw [h₁] at h₂
  simp only [Prod.mk.injEq] at hq₁ hq₂
  obtain ⟨⟨s, b⟩, htick, rfl⟩ := Option.map_eq_some_iff.mp h₁
  generalize hk : (smallKernel.schedInit 0).processInit = k at htick
  have hstart : Reach step (fun _ _ => True) Booted { k with sched := Sched.schedStart k.sched } :=
    (Reach.init (hk ▸ smallKernel_booted)).step (a := Op.schedStart) trivial rfl
  have hrun : step { k with sched := Sched.schedStart k.sched } .tick =
      some { k with sched := s } := by
    show Option.map _ (Option.map _ (schedTick (Sched.schedStart k.sched))) = _
    rw [htick]
    rfl
  refine ⟨_, { k with sched := s₂ }, { k with sched := s₃ }, hstart.step trivial hrun, hq₁.1, hq₁.2,
    ?_, hq₂.1, ⟨hq₂.2.1, ?_⟩, ?_, hq₃⟩
  · show Option.map _ (Sched.schedExit s) = _
    rw [show Sched.schedExit s = some s₂ from h₂]
    rfl
  · show s₂.idleThread ≠ s₂.current
    rw [hq₂.2.2.1, hq₂.2.2.2]
    decide
  · show Option.map _ (Sched.schedExit s₂) = _
    rw [show Sched.schedExit s₂ = some s₃ from h₃]
    rfl

/-- The count of an open file is the number of descriptors that point to it. -/
theorem open_file_counts (h : Reach step Legal BootedClosed k) :
    (∀ o f, k.files o = some f → f.refcount = k.refsTo o) ∧
    (∀ op k' o, Legal k op → step k op = some k' → k.files o ≠ none →
      (k'.files o = none ↔ 0 < k.refsTo o ∧ k'.refsTo o = 0)) ∧
    (∀ i, k.Used i → ∀ fd ∈ (k.procs i).fds, fd.type = .vfs →
      ∃ o f, fd.object = some o ∧ k.files o = some f ∧ 0 < f.refcount) ∧
    ∀ i, k.Used i → ∀ j < 3, ((k.procs i).fds.getD j Kernel.noFd).type ≠ .vfs := by
  obtain ⟨⟨l, hs⟩, hf⟩ := reach_fds h
  have hcount : ∀ o f, k.files o = some f → f.refcount = k.refsTo o := by
    intro o f ho
    apply hf.refs.eq_some
    rw [counts, ho]
    rfl
  refine ⟨hcount, ?_, ?_, ?_⟩
  · intro op k' o _ hstep hopen
    rw [(hf.step hs hstep).files_eq_none]
    have hpos : k.refsTo o ≠ 0 := fun hc => hopen ((hf.files_eq_none o).mpr hc)
    exact ⟨fun hc => ⟨Nat.pos_of_ne_zero hpos, hc⟩, fun hc => hc.2⟩
  · rintro i ⟨hi, hu⟩ fd hfd hv
    obtain ⟨o, ho⟩ := (hf.table i hi hu).object fd hfd hv
    -- the descriptor itself is one of the references
    have hone : 0 < Kernel.vfsRefs (k.procs i).fds o := by
      apply List.countP_pos_iff.mpr
      exact ⟨fd, hfd, by simp [hv, ho]⟩
    have hle := (@refsTo_change k k i hi (fun j _ _ => .of_eq rfl) o).2
    unfold Kernel.refsAt at hle
    rw [if_neg hu] at hle
    cases hfile : k.files o with
    | none =>
      have := (hf.files_eq_none o).mp hfile
      omega
    | some f =>
      refine ⟨o, f, ho, hfile, ?_⟩
      rw [hcount o f hfile]
      omega
  · rintro i ⟨hi, hu⟩ j hj
    exact (hf.table i hi hu).low j hj

/-- The descriptor that process 1 opened is shared by the fork, and its `close` leaves the one of
process 2. -/
theorem open_file_counts_family : ∃ k k' i c, Reach step Legal BootedClosed k ∧
    (k.files 0).map Vfs.VfsFile.refcount = some 2 ∧ k.refsTo 0 = 2 ∧
    step k (.vfsClose 3) = some k' ∧ (k'.files 0).map Vfs.VfsFile.refcount = some 1 ∧
    k'.refsTo 0 = 1 ∧ ((k'.procs i).fds.getD 3 Kernel.noFd).type = .none ∧
    ((k'.procs c).fds.getD 3 Kernel.noFd).type = .vfs := by
  obtain ⟨k, i, c, h⟩ := family
  obtain ⟨sp, hp⟩ := h.parent
  obtain ⟨sp', hc⟩ := h.child
  have hclosed : BootedClosed (booted 1024 []) :=
    ⟨(booted_frames (by decide) (by decide)).booted, fun o => congrFun (booted_closed 1024 []) o⟩
  have hreach := (Reach.init hclosed).trans h.reach
  have hfd : k.vfsFd i 3 = some (0, ⟨Vfs.builtTree, 0, 2⟩) := by
    unfold Kernel.vfsFd
    rw [if_neg (by decide), hp]
    show (k.files 0).map _ = _
    rw [h.file]
    rfl
  have hstep : step k (.vfsClose 3) = some (({ k.setFd i 3 Kernel.noFd with
      files := Vfs.refDec k.files 0 } : Kernel).ret 0) := by
    show some (k.onProcess _) = _
    unfold Kernel.onProcess Kernel.sysVfsClose
    rw [h.processCurrent]
    dsimp only
    rw [hfd]
    rfl
  generalize hk' : ({ k.setFd i 3 Kernel.noFd with
    files := Vfs.refDec k.files 0 } : Kernel).ret 0 = k' at hstep
  have hfile : k'.files 0 = some ⟨Vfs.builtTree, 0, 1⟩ := by
    rw [← hk']
    show Vfs.refDec k.files 0 0 = _
    unfold Vfs.refDec
    rw [h.file]
    exact Function.update_self ..
  have hprocs : k'.procs = Function.update k.procs i
      { k.procs i with fds := (k.procs i).fds.set 3 Kernel.noFd } := by
    rw [← hk']
    rfl
  have hrefs : (2 : ℤ) = k.refsTo 0 := (open_file_counts hreach).1 0 _ h.file
  have hrefs' : (1 : ℤ) = k'.refsTo 0 :=
    (open_file_counts (hreach.step (a := Op.vfsClose 3) trivial hstep)).1 0 _ hfile
  refine ⟨k, k', i, c, hreach, by rw [h.file]; rfl, by omega, hstep, by rw [hfile]; rfl, by omega,
    ?_, ?_⟩
  · rw [hprocs, Function.update_self, hp]
    rfl
  · rw [hprocs, Function.update_of_ne h.child_slot.2.2, hc]
    rfl

end Results

end VoidOS.Proc
