import VoidOS.CwdPath
import VoidOS.FileStream

namespace VoidOS.Vfs

open ByteMem Mm

section Fetch

variable {m : Mem} {cr3 u n i : ℕ} {s : List UInt8}

theorem copyUserPathFrom_long (hf : UserFrames m cr3) (hs : PointsTo m cr3 u s)
    (hread : Readable m cr3 u s) (hlen : i + n ≤ s.length) :
    copyUserPathFrom m cr3 u n i = .error veNametoolong := by
  induction n generalizing i with
  | zero => rfl
  | succ n ih =>
    have hi : i < s.length := by omega
    have hpage := hread i hi.le
    have hchar : userByte m cr3 (u + i) ≠ 0 := by
      rw [hs.bytes i hi.le hpage, List.getD_eq_getElem _ _ hi]
      exact fun hc => hs.nonzero (hc ▸ List.getElem_mem hi)
    rw [copyUserPathFrom_read hf hpage, if_neg hchar, ih (by omega)]
    rfl

end Fetch

end VoidOS.Vfs

namespace VoidOS.Proc

open Transition Mm ByteMem Vfs

/-- The process in slot `i` is in the root directory. -/
def InRoot (i : ℕ) (k : Kernel) : Prop := TreeOk k.root ∧ (k.procs i).cwd = [slash]

/-- The directory of the process in slot `i` is recorded as the path of a directory. -/
structure CwdOk (i : ℕ) (k : Kernel) : Prop where
  tree : TreeOk k.root
  place : ∃ cur : Place, IsPlace k.root cur.1 cur.2 ∧ cur.1.kind = .dir ∧
    (k.procs i).cwd = pathOf cur

section Steps

variable {k k' : Kernel} {i j : ℕ}

theorem InRoot.cwdOk (h : InRoot i k) : CwdOk i k :=
  ⟨h.1, (k.root, []), .root, h.1.dir, h.2⟩

theorem CwdOk.of_eq (h : CwdOk i k) (hroot : k'.root = k.root)
    (hcwd : (k'.procs i).cwd = (k.procs i).cwd ∨ (k'.procs i).cwd = [slash]) : CwdOk i k' := by
  have htree : TreeOk k'.root := hroot ▸ h.tree
  rcases hcwd with hcwd | hcwd
  · refine ⟨htree, ?_⟩
    rw [hroot, hcwd]
    exact h.place
  · exact InRoot.cwdOk ⟨htree, hcwd⟩

/-- A call of `sys_vfs_chdir` fails and does nothing, or records the place that its path
leads to. -/
theorem sysVfsChdir_cases (k : Kernel) (i upath : ℕ) :
    (∃ e < 0, k.sysVfsChdir i upath = (k, e)) ∨
      ∃ cur : Place, lookup k.phys.ram (k.procs i).space.cr3 k.root (k.procs i).cwd upath = .ok cur ∧
        cur.1.kind = .dir ∧ cwdOf cur = .ok (pathOf cur) ∧
        k.sysVfsChdir i upath = (k.setProc i { k.procs i with cwd := pathOf cur }, 0) := by
  unfold Kernel.sysVfsChdir
  dsimp only
  cases hl : lookup k.phys.ram (k.procs i).space.cr3 k.root (k.procs i).cwd upath with
  | error e => exact .inl ⟨e, lookup_error hl, rfl⟩
  | ok cur =>
    dsimp only
    by_cases hdir : cur.1.kind = .dir
    · rw [if_neg (not_not_intro hdir)]
      cases hc : cwdOf cur with
      | error e => exact .inl ⟨e, cwdOf_error hc, rfl⟩
      | ok cwd =>
        obtain rfl := cwdOf_pathOf hc
        exact .inr ⟨cur, rfl, hdir, hc, rfl⟩
    · rw [if_pos hdir]
      exact .inl ⟨veNotdir, by decide, rfl⟩

theorem isPlace_lookup {m : Mem} {cr3 upath : ℕ} {root : Vfs.Node} {cwd : List UInt8} {cur : Place}
    (h : lookup m cr3 root cwd upath = .ok cur) : IsPlace root cur.1 cur.2 :=
  @lookup_keeps root cwd cur (fun cur => IsPlace root cur.1 cur.2) (fun _ _ _ => isPlace_step)
    m cr3 upath .root h

theorem CwdOk.setFd (h : CwdOk i k) (j fd : ℕ) (e : Fd) (files : Files) :
    CwdOk i { k.setFd j fd e with files := files } := by
  refine h.of_eq rfl (.inl ?_)
  show (Function.update k.procs j _ i).cwd = _
  by_cases hj : i = j
  · rw [hj, Function.update_self]
  · rw [Function.update_of_ne hj]

theorem CwdOk.step {op : Op} (h : CwdOk i k) (hstep : step k op = some k') : CwdOk i k' := by
  by_cases hop : op.OnFiles
  swap
  · have hq := quiet_step hop hstep
    exact h.of_eq hq.root (hq.cwd i)
  rcases fileCalled hop.onProcess hstep with rfl | ⟨j, k₁, r, -, hc, rfl⟩
  · exact h.of_eq rfl (.inl rfl)
  refine CwdOk.of_eq (k := k₁) ?_ rfl (.inl rfl)
  have hgrow : ∀ n, CwdOk i (k.heapGrow n) := fun n =>
    h.of_eq (heapGrow_same n k).root (.inl (by rw [(heapGrow_same n k).procs]))
  cases hc with
  | unopened => exact hgrow _
  | opened _ _ _ => exact (hgrow _).setFd j _ _ _
  | closed _ => exact hop.elim
  | @entered _ cur _ hl hdir hcwd =>
    by_cases hj : i = j
    · subst hj
      refine ⟨h.tree, cur, isPlace_lookup hl, hdir, ?_⟩
      show (Function.update k.procs i _ i).cwd = _
      rw [Function.update_self]
      exact cwdOf_pathOf hcwd
    · refine h.of_eq rfl (.inl ?_)
      show (Function.update k.procs j _ i).cwd = _
      rw [Function.update_of_ne hj]
  | handled => exact hop.elim
  | _ => exact h.of_eq rfl (.inl rfl)

end Steps

/-- A call of `sys_vfs_chdir` with what `sys_vfs_getcwd` has just stored at `ubuf` succeeds and
changes nothing. -/
def ReturnsTo (k : Kernel) (i ubuf size : ℕ) : Prop :=
  (((k.sysVfsGetcwd i ubuf size).1).sysVfsChdir i ubuf).2 = 0 ∧
    ((((k.sysVfsGetcwd i ubuf size).1).sysVfsChdir i ubuf).1.procs i).cwd = (k.procs i).cwd

section Return

variable {k : Kernel} {i ubuf size : ℕ} {cur : Place} {s : List UInt8}

theorem terminated_names {root n : Vfs.Node} {above : List Vfs.Node} (h : Terminated root)
    (hp : IsPlace root n above) : Terminated n ∧ ∀ name ∈ namesUp n above, 0 ∉ name := by
  induction hp with
  | root => exact ⟨h, fun name hname => by cases hname⟩
  | child _ hc ih =>
    cases ih.1 with
    | intro _ hsub =>
      have hc' := hsub _ hc
      refine ⟨hc', fun name hname => ?_⟩
      rcases List.mem_cons.mp hname with rfl | hname
      · cases hc' with
        | intro hzero _ => exact hzero
      · exact ih.2 name hname

theorem zero_notMem_intercalate {names : List (List UInt8)} (h : ∀ name ∈ names, 0 ∉ name) :
    0 ∉ [slash].intercalate names := by
  induction names with
  | nil => simp [List.intercalate]
  | cons nm rest ih =>
    obtain ⟨hnm, hrest⟩ := List.forall_mem_cons.mp h
    have hslash : (0 : UInt8) ≠ slash := by decide
    cases rest with
    | nil => simpa [List.intercalate] using hnm
    | cons nm' rest =>
      have := ih hrest
      simp only [List.intercalate, List.intersperse_cons_cons, List.flatten_cons, List.mem_append,
        List.mem_singleton, not_or] at this ⊢
      exact ⟨hnm, hslash, this⟩

theorem zero_notMem_pathOf {root : Vfs.Node} (h : Terminated root)
    (hp : IsPlace root cur.1 cur.2) : 0 ∉ pathOf cur := by
  rw [pathOf, List.mem_cons, not_or]
  refine ⟨by decide, zero_notMem_intercalate fun name hname => ?_⟩
  exact (terminated_names h hp).2 name (List.mem_reverse.mp hname)

/-- `sys_vfs_getcwd` leaves the string in the buffer, where the process can read it. -/
theorem sysVfsGetcwd_string (hsp : SpaceOk k.phys (k.procs i).space) (hnz : 0 ∉ (k.procs i).cwd)
    (hok : 0 ≤ (k.sysVfsGetcwd i ubuf size).2) :
    ∃ m, (k.sysVfsGetcwd i ubuf size).1 = { k with phys := { k.phys with ram := m } } ∧
      UserFrames m (k.procs i).space.cr3 ∧ ubuf < 2 ^ 64 ∧
      PointsTo m (k.procs i).space.cr3 ubuf (k.procs i).cwd ∧
      Readable m (k.procs i).space.cr3 ubuf (k.procs i).cwd := by
  unfold Kernel.sysVfsGetcwd at hok ⊢
  dsimp only at hok ⊢
  split_ifs at hok ⊢
  · exact absurd hok (show ¬0 ≤ veNametoolong by decide)
  have hbytes := @copyToUser_userBytes k.phys (k.procs i).space ubuf ((k.procs i).cwd ++ [0]) hsp
  obtain ⟨hiff, hdata⟩ := @copyToUser_data k.phys (k.procs i).space k.phys.ram ubuf hsp
    (fun _ _ => rfl) ((k.procs i).cwd ++ [0])
  generalize copyToUser k.phys.ram (k.procs i).space.cr3 ubuf ((k.procs i).cwd ++ [0]) = r at *
  obtain ⟨m, b⟩ := r
  cases b with
  | false => exact absurd hok (show ¬0 ≤ Mm.veFault by decide)
  | true =>
    have hrange := (hdata.userRange hsp).mpr (hiff.mp rfl)
    have hread : Readable m (k.procs i).space.cr3 ubuf (k.procs i).cwd := by
      intro j hj
      have hin : InBuffer ubuf ((k.procs i).cwd ++ [0]).length (ubuf + j) :=
        InBuffer.add ubuf (by rw [List.length_append, List.length_singleton]; omega)
      have hpage := hrange.2.2 _ hin
      have htop := hrange.2.1
      refine ⟨by unfold InBuffer at hin; omega, ?_⟩
      unfold pageOk at hpage ⊢
      simp only [Bool.and_eq_true, Bool.not_false, Bool.true_or, and_true] at hpage ⊢
      exact hpage.1
    refine ⟨m, rfl, (hsp.write hdata).ok.userFrames, ?_, ⟨hnz, fun j hj _ => ?_⟩, hread⟩
    · have htop := hrange.2.1
      unfold userLimit at htop
      omega
    · have hlen : j < ((k.procs i).cwd ++ [0]).length := by
        rw [List.length_append, List.length_singleton]
        omega
      have hbyte := congrArg (·.getD j 0) (hbytes rfl)
      simp only [userBytes] at hbyte
      rw [List.getD_eq_getElem _ _ (by simpa using hlen), List.getElem_map,
        List.getElem_range] at hbyte
      rw [hbyte]
      by_cases hlast : j < (k.procs i).cwd.length
      · rw [List.getD_append _ _ _ _ hlast]
      · obtain rfl : j = (k.procs i).cwd.length := by omega
        rw [List.getD_append_right _ _ _ _ le_rfl, Nat.sub_self, List.getD_eq_default _ _ le_rfl]
        rfl

/-- `sys_vfs_getcwd` succeeds on a buffer that is long enough and can be written. -/
theorem sysVfsGetcwd_nonneg (hsp : SpaceOk k.phys (k.procs i).space)
    (hsize : (k.procs i).cwd.length < size)
    (hr : UserRange k.phys.ram (k.procs i).space.cr3 ubuf ((k.procs i).cwd.length + 1) true) :
    0 ≤ (k.sysVfsGetcwd i ubuf size).2 := by
  have hlen : ((k.procs i).cwd ++ [0]).length = (k.procs i).cwd.length + 1 := by
    rw [List.length_append, List.length_singleton]
  have hiff := (@copyToUser_data k.phys (k.procs i).space k.phys.ram ubuf hsp
    (fun _ _ => rfl) ((k.procs i).cwd ++ [0])).1
  rw [hlen] at hiff
  have htrue := hiff.mpr hr
  unfold Kernel.sysVfsGetcwd
  dsimp only
  rw [if_neg (by omega)]
  generalize copyToUser k.phys.ram (k.procs i).space.cr3 ubuf ((k.procs i).cwd ++ [0]) = r at htrue ⊢
  obtain ⟨m, b⟩ := r
  obtain rfl : b = true := htrue
  exact Int.natCast_nonneg _

/-- The way back is open for the paths that `vfs_copy_user_path` can fetch. -/
theorem returnsTo_iff (htree : TreeOk k.root) (hp : IsPlace k.root cur.1 cur.2)
    (hdir : cur.1.kind = .dir) (hcur : cwdOf cur = .ok (pathOf cur))
    (hcwd : (k.procs i).cwd = pathOf cur) (hsp : SpaceOk k.phys (k.procs i).space)
    (hok : 0 ≤ (k.sysVfsGetcwd i ubuf size).2) :
    ReturnsTo k i ubuf size ↔ (pathOf cur).length < vfsPathMax - 1 := by
  have hnz : 0 ∉ (k.procs i).cwd := by
    rw [hcwd]
    exact zero_notMem_pathOf htree.terminated hp
  obtain ⟨m, hk, hf, hlt, hpoints, hread⟩ := sysVfsGetcwd_string hsp hnz hok
  rw [ReturnsTo, hk]
  rw [hcwd] at hpoints hread ⊢
  by_cases hlen : (pathOf cur).length < vfsPathMax - 1
  · have hfetch := (copyUserPath_string hf hpoints hlen hlt).1 hread
    have hhead : (pathOf cur).head? = some slash := rfl
    have habs : absolutize (pathOf cur) (pathOf cur) = some (pathOf cur) := by
      rw [absolutize, if_pos hhead, if_neg (by omega)]
    have hlook : lookup m (k.procs i).space.cr3 k.root (k.procs i).cwd ubuf = .ok cur := by
      rw [lookup, hfetch, hcwd]
      dsimp only
      rw [habs]
      exact resolveAbs_pathOf hp htree.wellFormed hdir
    simp only [Kernel.sysVfsChdir, hlook, hdir, ne_eq, not_true_eq_false, if_false, hcur, hlen,
      iff_true, true_and]
    show (Function.update k.procs i _ i).cwd = _
    rw [Function.update_self]
  · have hfetch : copyUserPath m (k.procs i).space.cr3 ubuf = .error veNametoolong :=
      copyUserPathFrom_long hf hpoints hread (by omega)
    have hlook : lookup m (k.procs i).space.cr3 k.root (k.procs i).cwd ubuf =
        .error veNametoolong := by
      rw [lookup, hfetch]
    simp only [Kernel.sysVfsChdir, hlook, hlen, iff_false, not_and]
    exact fun hc => absurd hc (by decide)

end Return

/-- The process in slot `i` has just gone to `cur`: its path resolves to `cur`, a relative path
goes on from `cur`, and a call with the string of `sys_vfs_getcwd` leads back exactly if the path
is short of the buffer by two. -/
structure Arrived (k : Kernel) (i : ℕ) (cur : Place) : Prop where
  resolves : resolveAbs k.root (k.procs i).cwd = .ok cur
  relative : ∀ path : List UInt8, path.head? ≠ some slash →
    (k.procs i).cwd.length + (if 1 < (k.procs i).cwd.length then 1 else 0) + path.length <
      vfsPathMax →
    ∃ abs, absolutize (k.procs i).cwd path = some abs ∧
      resolveAbs k.root abs = resolveFrom cur path
  returns : ∀ ubuf size, SpaceOk k.phys (k.procs i).space →
    0 ≤ (k.sysVfsGetcwd i ubuf size).2 →
    (ReturnsTo k i ubuf size ↔ (pathOf cur).length < vfsPathMax - 1)

theorem chdir_arrives {k : Kernel} {i upath : ℕ} (htree : TreeOk k.root)
    (hret : (k.sysVfsChdir i upath).2 = 0) :
    ∃ cur : Place, lookup k.phys.ram (k.procs i).space.cr3 k.root (k.procs i).cwd upath = .ok cur ∧
      Arrived (k.sysVfsChdir i upath).1 i cur := by
  rcases sysVfsChdir_cases k i upath with ⟨e, hneg, he⟩ | ⟨cur, hl, hdir, hcur, he⟩
  · rw [he] at hret
    omega
  have hp := isPlace_lookup hl
  rw [he]
  generalize hk : k.setProc i { k.procs i with cwd := pathOf cur } = k'
  have hcwd : (k'.procs i).cwd = pathOf cur := by
    rw [← hk]
    show (Function.update k.procs i _ i).cwd = _
    rw [Function.update_self]
  have hroot : k'.root = k.root := by
    rw [← hk]
    rfl
  refine ⟨cur, hl, ?_, fun path hrel hfits => ?_, fun ubuf size hsp hok => ?_⟩
  · rw [hcwd, hroot]
    exact resolveAbs_pathOf hp htree.wellFormed hdir
  · rw [hcwd] at hfits ⊢
    have habs : absolutize (pathOf cur) path = some _ :=
      (if_neg hrel).trans (if_neg (Nat.not_le.mpr hfits))
    exact ⟨_, habs, hroot ▸ resolveAbs_relative hp htree.wellFormed hdir hrel habs⟩
  · exact returnsTo_iff (hroot ▸ htree) (hroot ▸ hp) hdir hcur hcwd hsp hok

/-- In every state that a process reaches from the root directory its path is normalized and
resolves to a directory; a call of `sys_vfs_chdir` that fails changes nothing, and one that
succeeds arrives where its path leads. -/
theorem chdir_getcwd_round_trip {k : Kernel} {i : ℕ}
    (h : Reach step (fun _ _ => True) (InRoot i) k) :
    Normal (k.procs i).cwd ∧
    (∃ cur : Place, resolveAbs k.root (k.procs i).cwd = .ok cur ∧ cur.1.kind = .dir) ∧
    ∀ upath,
      ((k.sysVfsChdir i upath).2 ≠ 0 →
        ((k.sysVfsChdir i upath).1.procs i).cwd = (k.procs i).cwd) ∧
      ((k.sysVfsChdir i upath).2 = 0 →
        ∃ cur : Place,
          lookup k.phys.ram (k.procs i).space.cr3 k.root (k.procs i).cwd upath = .ok cur ∧
          Arrived (k.sysVfsChdir i upath).1 i cur) := by
  have hok : CwdOk i k := h.invariant (fun _ h => h.cwdOk) fun _ _ _ h _ hs => h.step hs
  obtain ⟨cur, hp, hdir, hcwd⟩ := hok.place
  refine ⟨hcwd ▸ pathOf_normal hp hok.tree.wellFormed, ⟨cur, ?_, hdir⟩, fun upath => ⟨?_, ?_⟩⟩
  · rw [hcwd]
    exact resolveAbs_pathOf hp hok.tree.wellFormed hdir
  · intro hne
    rcases sysVfsChdir_cases k i upath with ⟨e, -, he⟩ | ⟨cur, -, -, -, he⟩
    · rw [he]
    · rw [he] at hne
      exact absurd rfl hne
  · exact chdir_arrives hok.tree

/-- A process in the root directory of `root`, with the string `s` at the start of its second
page. -/
def rootKernel (root : Vfs.Node) (s : List UInt8) : Kernel :=
  { userKernel { twoPagePhys 0x5007 0x6007 7 64 with
      ram := blit (twoPageMem 0x5007 0x6007) (6 * pageSize + 0) (s ++ [0]) }
      (twoPageSpace 0x401000) with
    procs := fun _ => ⟨1, 0, .running, 0, some 0, twoPageSpace 0x401000, [], none, 0, [slash]⟩
    root := root }

section RootKernel

variable {root : Vfs.Node} {s : List UInt8} {j : ℕ}

theorem rootKernel_same (hs : s.length < pageSize) :
    SameOffData (twoPagePhys 0x5007 0x6007 7 64) (twoPageSpace 0x401000)
      (rootKernel root s).phys.ram := by
  have hf : 6 ∈ (twoPageSpace 0x401000).data := ⟨⟨0x5FF000, 0x6000⟩, by decide, by decide⟩
  intro x hx
  apply blit_page
  · rw [List.length_append, List.length_singleton]
    omega
  · exact fun hc => hx (hc ▸ hf)

theorem rootKernel_space (hs : s.length < pageSize) (i : ℕ) :
    SpaceOk (rootKernel root s).phys ((rootKernel root s).procs i).space :=
  ((twoPageSpace_ok 0x401000 (le_refl 7) (show 7 ≤ 64 by decide) (by decide)).write
    (@rootKernel_same root s hs)).ok

theorem rootKernel_page (hs : s.length < pageSize) (hj : j < pageSize) :
    vmmGetPte (rootKernel root s).phys.ram 0x1000 (0x5FF000 + j) = 0x6007 ∧
      vmmVirtToPhys (rootKernel root s).phys.ram 0x1000 (0x5FF000 + j) = 6 * pageSize + 0 + j := by
  have hok := twoPageSpace_ok 0x401000 (le_refl 7) (show 7 ≤ 64 by decide) (by decide)
  have hpte : vmmGetPte (twoPageMem 0x5007 0x6007) 0x1000 0x5FF000 = 0x6007 := by
    decide +kernel
  have hphys : vmmVirtToPhys (twoPageMem 0x5007 0x6007) 0x1000 0x5FF000 = 0x6000 := by
    decide +kernel
  have hlt : 0x5FF000 + j < userLimit := by
    unfold pageSize at hj
    unfold userLimit
    omega
  have hpage : (0x5FF000 + j) / pageSize = 0x5FF000 / pageSize := by
    unfold pageSize at hj ⊢
    omega
  obtain ⟨h₁, h₂⟩ := (@rootKernel_same root s hs).translation hok hlt
  refine ⟨h₁.trans ((vmmGetPte_congr hpage).trans hpte), h₂.trans ?_⟩
  have hadd := @vmmVirtToPhys_add (twoPageMem 0x5007 0x6007) 0x1000 0x5FF000 j
    (by rw [hphys]; decide) (by unfold pageSize at hj ⊢; omega)
  exact hadd.trans (by rw [hphys]; unfold pageSize; omega)

theorem rootKernel_readable (hs : s.length < pageSize) (hz : 0 ∉ s) :
    PointsTo (rootKernel root s).phys.ram 0x1000 0x5FF000 s ∧
      Readable (rootKernel root s).phys.ram 0x1000 0x5FF000 s := by
  refine ⟨⟨hz, fun j hj _ => ?_⟩, fun j hj => ?_⟩
  · have hlen : j < (s ++ [0]).length := by
      rw [List.length_append, List.length_singleton]
      omega
    rw [userByte, (rootKernel_page hs (hj.trans_lt hs)).2]
    refine (blit_add hlen).trans ?_
    by_cases hlast : j < s.length
    · rw [List.getD_append _ _ _ _ hlast]
    · obtain rfl : j = s.length := by omega
      rw [List.getD_append_right _ _ _ _ le_rfl, Nat.sub_self, List.getD_eq_default _ _ le_rfl]
      rfl
  · constructor
    · unfold userLimit
      unfold pageSize at hs
      omega
    · rw [(rootKernel_page hs (hj.trans_lt hs)).1]
      decide

/-- The process goes to a place whose path has 511 characters, from the root directory with the
510 characters after the first slash, and the string of `sys_vfs_getcwd` does not lead back. -/
theorem rootKernel_strands {cur : Place} (htree : TreeOk root) (hp : IsPlace root cur.1 cur.2)
    (hdir : cur.1.kind = .dir) (hcur : cwdOf cur = .ok (pathOf cur))
    (hpath : pathOf cur = slash :: s) (hlen : s.length = 510) (hrel : s.head? ≠ some slash) :
    ((rootKernel root s).sysVfsChdir 1 0x5FF000).2 = 0 ∧
      SpaceOk ((rootKernel root s).sysVfsChdir 1 0x5FF000).1.phys
        (((rootKernel root s).sysVfsChdir 1 0x5FF000).1.procs 1).space ∧
      0 ≤ (((rootKernel root s).sysVfsChdir 1 0x5FF000).1.sysVfsGetcwd 1 0x5FF400 512).2 ∧
      ¬ReturnsTo ((rootKernel root s).sysVfsChdir 1 0x5FF000).1 1 0x5FF400 512 := by
  have hpage : s.length < pageSize := by
    unfold pageSize
    omega
  have hzero : 0 ∉ s := by
    intro hc
    apply zero_notMem_pathOf htree.terminated hp
    rw [hpath]
    exact List.mem_cons_of_mem _ hc
  have hsp := @rootKernel_space root s hpage 1
  obtain ⟨hpoints, hread⟩ := @rootKernel_readable root s hpage hzero
  have hfetch : copyUserPath (rootKernel root s).phys.ram 0x1000 0x5FF000 = .ok s :=
    (copyUserPath_string hsp.userFrames hpoints (by rw [hlen]; decide) (by decide)).1 hread
  have habs : absolutize [slash] s = some (pathOf cur) := by
    rw [absolutize, if_neg hrel, hlen, if_neg (by decide), hpath]
    rfl
  have hlook : lookup (rootKernel root s).phys.ram ((rootKernel root s).procs 1).space.cr3
      (rootKernel root s).root ((rootKernel root s).procs 1).cwd 0x5FF000 = .ok cur := by
    change lookup (rootKernel root s).phys.ram 0x1000 root [slash] 0x5FF000 = .ok cur
    rw [lookup, hfetch]
    dsimp only
    rw [habs]
    exact resolveAbs_pathOf hp htree.wellFormed hdir
  have hchdir : (rootKernel root s).sysVfsChdir 1 0x5FF000 = ((rootKernel root s).setProc 1
      { (rootKernel root s).procs 1 with cwd := pathOf cur }, 0) := by
    unfold Kernel.sysVfsChdir
    dsimp only
    rw [hlook]
    dsimp only
    rw [if_neg (not_not_intro hdir), hcur]
  rw [hchdir]
  generalize hk : (rootKernel root s).setProc 1
    { (rootKernel root s).procs 1 with cwd := pathOf cur } = k
  have hproc : k.procs 1 = { (rootKernel root s).procs 1 with cwd := pathOf cur } := by
    rw [← hk]
    rfl
  have hphys : k.phys = (rootKernel root s).phys := by
    rw [← hk]
    rfl
  have hroot : k.root = root := by
    rw [← hk]
    rfl
  have hcwd : (k.procs 1).cwd = pathOf cur := by
    rw [hproc]
  have hspace : SpaceOk k.phys (k.procs 1).space := by
    rw [hproc, hphys]
    exact hsp
  have hsize : (k.procs 1).cwd.length = 511 := by
    rw [hcwd, hpath, List.length_cons, hlen]
  have hrange : UserRange k.phys.ram (k.procs 1).space.cr3 0x5FF400 ((k.procs 1).cwd.length + 1)
      true := by
    rw [hsize, hphys, hproc]
    refine ⟨by decide, by decide, fun v hv => ?_⟩
    have hv' : v = 0x5FF000 + (v - 0x5FF000) := by
      have := hv.1
      omega
    have hlt : v - 0x5FF000 < pageSize := by
      have := hv.2
      unfold pageSize
      omega
    rw [hv']
    exact (congrArg (pageOk · true) (@rootKernel_page root s _ hpage hlt).1).trans (by decide)
  have hok := sysVfsGetcwd_nonneg hspace (show _ < 512 by omega) hrange
  refine ⟨rfl, hspace, hok, fun hback => ?_⟩
  have hshort := (returnsTo_iff (hroot.symm ▸ htree) (hroot.symm ▸ hp) hdir hcur hcwd
    hspace hok).mp hback
  rw [hpath, List.length_cons, hlen] at hshort
  exact absurd hshort (by decide)

end RootKernel

def etcName : List UInt8 := [0x65, 0x74, 0x63]

theorem builtTree_ok : TreeOk builtTree := by
  have hfile (name data : List UInt8) (h : 0 ∉ name) : Terminated (.mk .reg name data []) :=
    .intro h fun c hc => by cases hc
  have hetc : Terminated etcNode := by
    refine .intro (by decide) fun c hc => ?_
    obtain rfl := List.mem_singleton.mp hc
    exact hfile _ _ (by decide)
  refine ⟨builtTree_wellFormed, rfl, .intro (by decide) fun c hc => ?_⟩
  simp only [builtTree, Node.children, List.mem_cons, List.not_mem_nil, or_false] at hc
  rcases hc with rfl | rfl | rfl
  · exact hfile _ _ (by decide)
  · exact hfile _ _ (by decide)
  · exact hetc

theorem chdir_getcwd_round_trip_etc :
    ∃ cur : Place, lookup (rootKernel builtTree etcName).phys.ram 0x1000 builtTree [slash] 0x5FF000 =
        .ok cur ∧
      Arrived ((rootKernel builtTree etcName).sysVfsChdir 1 0x5FF000).1 1 cur := by
  have hret : ((rootKernel builtTree etcName).sysVfsChdir 1 0x5FF000).2 = 0 := by
    decide +kernel
  exact ((chdir_getcwd_round_trip (k := rootKernel builtTree etcName) (i := 1)
    (.init ⟨builtTree_ok, rfl⟩)).2.2 0x5FF000).2 hret

/-- Directories with long names, each in the one before it. -/
def tower : ℕ → Vfs.Node
  | 0 => .mk .dir (List.replicate 85 0x61) [] []
  | n + 1 => .mk .dir (List.replicate 84 0x61) [] [tower n]

def longTree : Vfs.Node := .mk .dir [] [] [tower 5]

/-- The last of them, whose path has 511 characters. -/
def longPlace : Place := (tower 0, [tower 1, tower 2, tower 3, tower 4, tower 5, longTree])

def longPath : List UInt8 := (pathOf longPlace).tail

theorem tower_ok (n : ℕ) : WellFormed (tower n) ∧ Terminated (tower n) ∧
    IsName (tower n).name ∧ (tower n).name.length < vfsNameMax := by
  have hlong : ∀ len ∈ [84, 85], 0 ∉ List.replicate len (0x61 : UInt8) ∧
      IsName (List.replicate len 0x61) ∧ (List.replicate len (0x61 : UInt8)).length < vfsNameMax := by
    unfold IsName
    decide
  induction n with
  | zero =>
    obtain ⟨hzero, hname, hlen⟩ := hlong 85 (by decide)
    exact ⟨.mk nofun List.nodup_nil (by simp) (by simp), .intro hzero (by simp [tower,
      Node.children]), hname, hlen⟩
  | succ n ih =>
    obtain ⟨hwf, hterm, hname, hlen⟩ := ih
    obtain ⟨hzero, hname', hlen'⟩ := hlong 84 (by decide)
    refine ⟨.mk nofun (by simp) (fun c hc => ?_) (fun c hc => ?_), .intro hzero fun c hc => ?_,
      hname', hlen'⟩
    all_goals obtain rfl := List.mem_singleton.mp hc
    · exact ⟨hname.1, hlen, hname.2⟩
    · exact hwf
    · exact hterm

theorem longTree_ok : TreeOk longTree := by
  obtain ⟨hwf, hterm, hname, hlen⟩ := tower_ok 5
  refine ⟨.mk nofun (by simp) (fun c hc => ?_) (fun c hc => ?_), rfl, .intro (by decide)
    fun c hc => ?_⟩
  all_goals obtain rfl := List.mem_singleton.mp hc
  · exact ⟨hname.1, hlen, hname.2⟩
  · exact hwf
  · exact hterm

theorem longPlace_isPlace : IsPlace longTree longPlace.1 longPlace.2 := by
  have hmem : ∀ n : Vfs.Node, n ∈ [n] := List.mem_singleton_self
  exact .child (.child (.child (.child (.child (.child .root (hmem _)) (hmem _)) (hmem _)) (hmem _))
    (hmem _)) (hmem _)

/-- A path of 511 characters is reached by a call with 510, and the string of `sys_vfs_getcwd`
does not lead back: `vfs_copy_user_path` has room for 510 characters and the terminator. -/
theorem chdir_getcwd_long :
    InRoot 1 (rootKernel longTree longPath) ∧
      ((rootKernel longTree longPath).sysVfsChdir 1 0x5FF000).2 = 0 ∧
      SpaceOk ((rootKernel longTree longPath).sysVfsChdir 1 0x5FF000).1.phys
        (((rootKernel longTree longPath).sysVfsChdir 1 0x5FF000).1.procs 1).space ∧
      0 ≤ (((rootKernel longTree longPath).sysVfsChdir 1 0x5FF000).1.sysVfsGetcwd 1
        0x5FF400 512).2 ∧
      ¬ReturnsTo ((rootKernel longTree longPath).sysVfsChdir 1 0x5FF000).1 1 0x5FF400 512 := by
  have hlen : longPath.length = 510 := by
    decide +kernel
  have hcur : cwdOf longPlace = .ok (pathOf longPlace) := by
    decide +kernel
  have hrel : longPath.head? ≠ some slash := by
    decide +kernel
  exact ⟨⟨longTree_ok, rfl⟩,
    rootKernel_strands longTree_ok longPlace_isPlace rfl hcur rfl hlen hrel⟩

end VoidOS.Proc
