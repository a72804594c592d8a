import VoidOS.OpenFiles

namespace VoidOS.Proc

open Mm Elf ByteMem

/-- From `files` to `files'` references come and go, and objects with the last of them. -/
def SamePositions (files files' : Vfs.Files) : Prop :=
  ∀ o f', files' o = some f' → ∃ f, files o = some f ∧ f'.node = f.node ∧ f'.pos = f.pos

/-- No file is opened or moved, and no process changes its directory: one that is new or gone
has the root. -/
structure Quiet (k k' : Kernel) : Prop where
  root : k'.root = k.root
  files : SamePositions k.files k'.files
  cwd : ∀ i, (k'.procs i).cwd = (k.procs i).cwd ∨ (k'.procs i).cwd = [Vfs.slash]

section Positions

variable {files files' files'' : Vfs.Files}

theorem SamePositions.refl (files : Vfs.Files) : SamePositions files files :=
  fun _ f hf => ⟨f, hf, rfl, rfl⟩

theorem SamePositions.trans (h : SamePositions files files') (h' : SamePositions files' files'') :
    SamePositions files files'' := by
  intro o f'' hf''
  obtain ⟨f', hf', hn', hp'⟩ := h' o f'' hf''
  obtain ⟨f, hf, hn, hp⟩ := h o f' hf'
  exact ⟨f, hf, hn'.trans hn, hp'.trans hp⟩

theorem SamePositions.update {o : ℕ} {r : Option Vfs.VfsFile}
    (hr : ∀ f', r = some f' → ∃ f, files o = some f ∧ f'.node = f.node ∧ f'.pos = f.pos) :
    SamePositions files (Function.update files o r) := by
  intro o' f' hf'
  by_cases ho : o' = o
  · rw [ho, Function.update_self] at hf'
    rw [ho]
    exact hr f' hf'
  · rw [Function.update_of_ne ho] at hf'
    exact ⟨f', hf', rfl, rfl⟩

theorem samePositions_refInc (files : Vfs.Files) (o : ℕ) :
    SamePositions files (Vfs.refInc files o) := by
  apply SamePositions.update
  intro f' hf'
  obtain ⟨f, hf, rfl⟩ := Option.map_eq_some_iff.mp hf'
  exact ⟨f, hf, rfl, rfl⟩

theorem samePositions_refDec (files : Vfs.Files) (o : ℕ) :
    SamePositions files (Vfs.refDec files o) := by
  unfold Vfs.refDec
  split
  · exact .refl files
  · rename_i f hf
    apply SamePositions.update
    intro f' hf'
    split at hf'
    · cases hf'
    · cases hf'
      exact ⟨f, hf, rfl, rfl⟩

theorem samePositions_close (files : Vfs.Files) (fds : List Fd) :
    SamePositions files (Kernel.vfsCloseProcessFds files fds).1 := by
  induction fds generalizing files with
  | nil => exact .refl files
  | cons fd fds ih =>
    unfold Kernel.vfsCloseProcessFds
    split
    · cases fd.object with
      | none => exact ih files
      | some o => exact (samePositions_refDec files o).trans (ih _)
    · exact ih files

theorem samePositions_dup (files : Vfs.Files) (fds : List Fd) :
    SamePositions files (Kernel.dupFds files fds) := by
  induction fds generalizing files with
  | nil => exact .refl files
  | cons fd fds ih =>
    unfold Kernel.dupFds
    split
    · exact (samePositions_refInc files _).trans (ih _)
    · exact ih files

end Positions

section Quiet

variable {k k' k'' : Kernel} {i c : ℕ}

theorem Quiet.of_eq (hroot : k'.root = k.root) (hfiles : k'.files = k.files)
    (hprocs : k'.procs = k.procs) : Quiet k k' :=
  ⟨hroot, hfiles ▸ .refl k.files, fun i => Or.inl (by rw [hprocs])⟩

theorem Quiet.refl (k : Kernel) : Quiet k k := .of_eq rfl rfl rfl

theorem Quiet.trans (h : Quiet k k') (h' : Quiet k' k'') : Quiet k k'' := by
  refine ⟨h'.root.trans h.root, h.files.trans h'.files, fun i => ?_⟩
  rcases h'.cwd i with he | he
  · rw [he]
    exact h.cwd i
  · exact Or.inr he

theorem SameTable.quiet (h : SameTable k k') : Quiet k k' := .of_eq h.root h.files h.procs

theorem Quiet.ret (h : Quiet k k') (v : ℤ) : Quiet k (k'.ret v) := h.trans (.of_eq rfl rfl rfl)

theorem Quiet.of_slot {p : Process} (hroot : k'.root = k.root)
    (hfiles : SamePositions k.files k'.files) (hprocs : k'.procs = Function.update k.procs i p)
    (hp : p.cwd = (k.procs i).cwd ∨ p.cwd = [Vfs.slash]) : Quiet k k' := by
  refine ⟨hroot, hfiles, fun j => ?_⟩
  rw [hprocs]
  by_cases hj : j = i
  · rw [hj, Function.update_self]
    exact hp
  · rw [Function.update_of_ne hj]
    exact Or.inl rfl

theorem Quiet.setSpace (h : Quiet k k') (i : ℕ) (ph : Phys) (sp : Space) :
    Quiet k (k'.setSpace i ph sp) := h.trans (.of_slot rfl (.refl k'.files) rfl (Or.inl rfl))

theorem quiet_processDestroy (k : Kernel) (i : ℕ) : Quiet k (k.processDestroy i) := by
  unfold Kernel.processDestroy
  dsimp only
  split
  · exact .refl k
  · exact .of_slot rfl (samePositions_close _ _) rfl (Or.inl rfl)

theorem quiet_processAlloc {parent : ℤ} {oc : Option ℕ}
    (ha : k.processAlloc parent = (k', oc)) : Quiet k k' := by
  cases slotted ha with
  | full => exact .refl k
  | noSpace _ => exact .of_eq rfl rfl rfl
  | embryo _ _ _ _ => exact .of_slot rfl (.refl k.files) rfl (Or.inr rfl)

theorem Started.quiet {f : Sched.Frame} (h : Started k c f k') : Quiet k k' := by
  cases h with
  | failed => exact (allocKstack_same k).quiet.trans (quiet_processDestroy _ c)
  | started _ => exact .of_slot rfl (.refl k.files) rfl (Or.inl rfl)

theorem Spawns.quiet {parent : ℤ} (h : Spawns k parent k') : Quiet k k' := by
  cases h with
  | refused => exact .refl k
  | full ha => exact quiet_processAlloc ha
  | failed ph sp ha =>
    exact ((quiet_processAlloc ha).setSpace _ ph sp).trans (quiet_processDestroy _ _)
  | started ph sp f ha =>
    exact ((quiet_processAlloc ha).setSpace _ ph sp).trans (processStarted _ _ f).quiet

theorem Forked.quiet {grow : ℕ} {heap : Bool} (h : Forked k grow heap k') : Quiet k k' := by
  cases h with
  | refused _ => exact (Quiet.refl k).ret _
  | full _ ha => exact (quiet_processAlloc ha).ret _
  | noPages _ ha _ =>
    exact (((quiet_processAlloc ha).setSpace _ _ _).trans (quiet_processDestroy _ _)).ret _
  | noTable _ ha _ hh =>
    exact ((((quiet_processAlloc ha).setSpace _ _ _).trans (forkHandles_same hh).quiet).trans
      (quiet_processDestroy _ _)).ret _
  | @started i c k₁ k₂ k₃ ph sp handles b hf ha hp hh hst =>
    have h₂ := ((quiet_processAlloc ha).setSpace _ _ _).trans (forkHandles_same hh).quiet
    have hdup : Quiet k₂ (k₂.inherit c (k.procs i) handles) :=
      .of_slot rfl (samePositions_dup _ _) rfl (Or.inl rfl)
    have h₃ := processStarted (k₂.inherit c (k.procs i) handles) c (Function.update k₂.frame .rax 0)
    rw [hst] at h₃
    exact ((h₂.trans hdup).trans h₃.quiet).ret _

theorem Execed.quiet {upath : ℕ} (h : Execed k upath k') : Quiet k k' := by
  cases h with
  | @swapped i cr3 entry rsp ctx ph ph' sp _ _ _ _ =>
    have hswap := (Quiet.refl k).setSpace i (processDestroyUserSpace ph' (k.procs i).space).1 sp
    unfold Kernel.execSwap
    dsimp only
    split <;> exact hswap.trans (.of_eq rfl rfl rfl)
  | _ => exact .of_eq rfl rfl rfl

theorem Wakes.quiet (h : Wakes k k') : Quiet k k' := by
  cases h with
  | nothing => exact .refl k
  | woken _ _ => exact .of_slot rfl (.refl k.files) rfl (Or.inl rfl)

theorem quiet_exitProcess (k : Kernel) (i : ℕ) (status : ℤ) :
    Quiet k (k.exitProcess i status) := by
  have hmarked : Quiet k (k.marked i status) := by
    refine ⟨rfl, .refl k.files, fun j => Or.inl ?_⟩
    unfold Kernel.marked Kernel.reparent
    dsimp only
    by_cases hj : j = i
    · rw [hj, Function.update_self]
      split <;> rfl
    · rw [Function.update_of_ne hj]
      split <;> rfl
  have hreleased : Quiet (k.marked i status) ((k.marked i status).released i) :=
    .of_slot rfl (samePositions_close _ _) rfl (Or.inl rfl)
  rw [exitProcess_eq]
  exact (hmarked.trans hreleased).trans (wakes _ _).quiet

theorem Exited.quiet {status : ℤ} (he : Exited k status k') : Quiet k k' := by
  cases he with
  | refused => exact (Quiet.refl k).ret _
  | @exited i _ _ _ _ _ => exact (quiet_exitProcess k i status).trans (.of_eq rfl rfl rfl)

theorem quiet_tryReap (k : Kernel) (parent pid : ℤ) :
    Quiet k (k.processTryReap parent pid).1 := by
  unfold Kernel.processTryReap
  split
  · exact (quiet_processDestroy k _).trans (.of_eq rfl rfl rfl)
  · split <;> exact .refl k

theorem quiet_wait {pid : ℤ} {ustatus : ℕ}
    (hw : k.processWaitCurrent pid ustatus = some k') : Quiet k k' := by
  unfold Kernel.processWaitCurrent at hw
  split at hw
  · cases hw
    exact (Quiet.refl k).ret _
  rename_i i hi
  have hreap := quiet_tryReap k (k.procs i).pid pid
  dsimp only at hw
  generalize k.processTryReap (k.procs i).pid pid = r at hw hreap
  obtain ⟨k₁, n, status⟩ := r
  dsimp only at hw hreap
  split at hw
  · cases hw
    exact hreap.trans (.of_eq rfl rfl rfl)
  split at hw
  · cases hw
    exact hreap.ret _
  have hblock : Quiet k₁ (k₁.setProc i { k₁.procs i with state := .blocked, waitPid := pid }) :=
    .of_slot rfl (.refl k₁.files) rfl (Or.inl rfl)
  split at hw
  · cases hw
  all_goals
    rename_i ht
    cases hw
    obtain ⟨sc, -, rfl⟩ := tick_eq_some ht
    refine (hreap.trans hblock).trans ?_
  · exact .of_eq rfl rfl rfl
  · exact .of_slot rfl (.refl _) rfl (Or.inl rfl)

theorem quiet_onSpace (k : Kernel) (err : ℤ) (f : Phys → Space → Phys × Space × ℤ) :
    Quiet k (k.onSpace err f) := by
  unfold Kernel.onSpace
  split
  · exact (Quiet.refl k).ret _
  · exact ((Quiet.refl k).setSpace _ _ _).ret _

end Quiet

/-- The calls that open a file, move in one or change the directory. -/
def Op.OnFiles : Op → Prop
  | .vfsOpen .. => True
  | .vfsRead .. => True
  | .vfsLseek .. => True
  | .vfsChdir .. => True
  | _ => False

theorem Op.OnFiles.onProcess {op : Op} (h : op.OnFiles) : op.OnProcess := by
  cases op <;> first | exact trivial | exact h.elim

theorem FileCall.quiet {k k' : Kernel} {i : ℕ} {op : Op} (hop : ¬ op.OnFiles)
    (h : FileCall k i op k') : Quiet k k' := by
  cases h with
  | nothing => exact .refl k
  | closed _ => exact .of_slot rfl (samePositions_refDec _ _) rfl (Or.inl rfl)
  | told _ => exact .of_eq rfl rfl rfl
  | @handled _ grow _ =>
    have hgrow := heapGrow_same grow k
    refine hgrow.quiet.trans ?_
    exact .of_slot rfl (.refl _) rfl (Or.inl (by rw [hgrow.procs]))
  | _ => exact absurd trivial hop

theorem quiet_step {k k' : Kernel} {op : Op} (hop : ¬ op.OnFiles) (hstep : step k op = some k') :
    Quiet k k' := by
  by_cases haside : op.Aside
  · obtain ⟨hprocs, hfiles, hroot⟩ := step_aside haside hstep
    exact .of_eq hroot hfiles hprocs
  by_cases hcall : op.OnProcess
  · rcases fileCalled hcall hstep with rfl | ⟨i, k₁, r, -, hc, rfl⟩
    · exact (Quiet.refl k).ret _
    · exact (hc.quiet hop).ret r
  cases op with
  | spawnUser code parent =>
    cases hstep
    exact (spawnedUser k code parent).quiet
  | spawnElf image parent =>
    cases hstep
    exact (spawnedElf k image parent).quiet
  | fork grow heap =>
    cases hstep
    exact (forked k grow heap).quiet
  | execve upath =>
    cases hstep
    exact (execed k upath).quiet
  | brk addr =>
    cases hstep
    exact quiet_onSpace k _ _
  | mmap addr length prot flags fd offset =>
    cases hstep
    exact quiet_onSpace k _ _
  | munmap addr length =>
    cases hstep
    exact quiet_onSpace k _ _
  | exit status => exact (exited hstep).quiet
  | fault vector => exact (exited hstep).quiet
  | wait pid ustatus => exact quiet_wait hstep
  | reap pid =>
    cases hstep
    exact quiet_tryReap k 0 pid
  | _ => first | exact absurd trivial haside | exact absurd trivial hcall

end VoidOS.Proc
