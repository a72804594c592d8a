import VoidOS.CopyLaws
import VoidOS.PageRelease
import VoidOS.ProcessCases
import VoidOS.SpaceLoad

namespace VoidOS.Mm

open ByteMem PageTree

/-- A byte that a process can read: user pages are in the lower half. -/
def OnUserPage (m : Mem) (cr3 v : ℕ) : Prop :=
  v < userLimit ∧ pageOk (vmmGetPte m cr3 v) false = true

def UserFrames (m : Mem) (cr3 : ℕ) : Prop :=
  ∀ v, OnUserPage m cr3 v → vmmVirtToPhys m cr3 v ≠ 0

/-- `u` points to the string `s` and its terminator, as far as the process can read them. -/
structure PointsTo (m : Mem) (cr3 u : ℕ) (s : List UInt8) : Prop where
  nonzero : 0 ∉ s
  bytes : ∀ i ≤ s.length, OnUserPage m cr3 (u + i) → userByte m cr3 (u + i) = s.getD i 0

def Readable (m : Mem) (cr3 u : ℕ) (s : List UInt8) : Prop :=
  ∀ i ≤ s.length, OnUserPage m cr3 (u + i)

section Strings

variable {m : Mem} {cr3 u v n i : ℕ} {s : List UInt8}

theorem SpaceOk.userFrames {ph : Phys} {sp : Space} (h : SpaceOk ph sp) :
    UserFrames ph.ram sp.cr3 := by
  intro v hv
  have hp : present (Mm.leaf ph.ram sp.cr3 v) = true := by
    have hok := hv.2
    unfold pageOk at hok
    rw [Bool.and_eq_true, Bool.and_eq_true, h.pte hv.1] at hok
    exact hok.1.1
  obtain ⟨f, -, -, -, hne⟩ := h.phys_of_present hv.1 hp
  exact hne

theorem userRangeOk_pages :
    userRangeOk m cr3 u n false = true ↔ 0 < n ∧ ∀ i < n, OnUserPage m cr3 (u + i) := by
  rw [userRangeOk_range]
  constructor
  · intro h
    refine ⟨h.1, fun i hi => ⟨?_, h.2.2 (u + i) ⟨by omega, by omega⟩⟩⟩
    have := h.2.1
    omega
  · intro h
    have hlast := (h.2 (n - 1) (by omega)).1
    refine ⟨h.1, by omega, fun v hv => ?_⟩
    have hv' : v = u + (v - u) := by
      have := hv.1
      omega
    rw [hv']
    exact (h.2 (v - u) (by have := hv.2; omega)).2

theorem copyFromUser_pages (hf : UserFrames m cr3) (h : 0 < n)
    (hpages : ∀ i < n, OnUserPage m cr3 (u + i)) :
    copyFromUser m cr3 u n = some (userBytes m cr3 u n) :=
  copyFromUser_eq (userRangeOk_pages.mpr ⟨h, hpages⟩) fun i hi => hf _ (hpages i hi)

theorem copyFromUser_none (h : ¬ ∀ i < n, OnUserPage m cr3 (u + i)) :
    copyFromUser m cr3 u n = none := by
  have hno : userRangeOk m cr3 u n false = false := by
    rw [Bool.eq_false_iff]
    exact fun hok => h (userRangeOk_pages.mp hok).2
  rw [copyFromUser, hno]
  rfl

end Strings

end VoidOS.Mm

namespace VoidOS.Vfs

open ByteMem Mm

section Paths

variable {m : Mem} {cr3 u n i : ℕ} {s : List UInt8}

theorem copyUserPathFrom_read (hf : UserFrames m cr3) (hu : OnUserPage m cr3 (u + i)) :
    copyUserPathFrom m cr3 u (n + 1) i =
      if userByte m cr3 (u + i) = 0 then .ok []
      else (copyUserPathFrom m cr3 u n (i + 1)).map (userByte m cr3 (u + i) :: ·) := by
  have hadd : add64 u i = u + i := by
    have hlt := hu.1
    unfold userLimit at hlt
    exact add64_of_lt (by omega)
  have hpages : ∀ j < 1, OnUserPage m cr3 (u + i + j) := by
    intro j hj
    rw [Nat.lt_one_iff.mp hj]
    exact hu
  have hcopy := copyFromUser_pages hf Nat.one_pos hpages
  have hbytes : userBytes m cr3 (u + i) 1 = [userByte m cr3 (u + i)] := rfl
  rw [hbytes] at hcopy
  rw [copyUserPathFrom, hadd, userRangeOk_pages.mpr ⟨Nat.one_pos, hpages⟩, hcopy]
  rfl

theorem copyUserPathFrom_fault (hlt : u + i < 2 ^ 64) (hu : ¬ OnUserPage m cr3 (u + i)) :
    copyUserPathFrom m cr3 u (n + 1) i = .error veFault := by
  have hno : userRangeOk m cr3 (u + i) 1 false = false := by
    rw [Bool.eq_false_iff]
    exact fun hok => hu ((userRangeOk_pages.mp hok).2 0 Nat.one_pos)
  rw [copyUserPathFrom, add64_of_lt hlt, hno]
  rfl

/-- From a byte of the string on, the copy ends at the terminator or at the first byte that
cannot be read. -/
theorem copyUserPathFrom_string (hf : UserFrames m cr3) (hs : PointsTo m cr3 u s)
    (hi : i ≤ s.length) (hroom : s.length < i + n) (hlt : u + i < 2 ^ 64) :
    ((∀ j, i ≤ j → j ≤ s.length → OnUserPage m cr3 (u + j)) →
        copyUserPathFrom m cr3 u n i = .ok (s.drop i)) ∧
      ((∃ j, i ≤ j ∧ j ≤ s.length ∧ ¬ OnUserPage m cr3 (u + j)) →
        copyUserPathFrom m cr3 u n i = .error veFault) := by
  induction n generalizing i with
  | zero => omega
  | succ n ih =>
    by_cases hu : OnUserPage m cr3 (u + i)
    · rw [copyUserPathFrom_read hf hu, hs.bytes i hi hu]
      have hnext : u + (i + 1) < 2 ^ 64 := by
        have := hu.1
        unfold userLimit at this
        omega
      by_cases hend : i = s.length
      · -- the terminator
        rw [hend, List.getD_eq_default _ _ le_rfl, if_pos rfl, List.drop_length]
        refine ⟨fun _ => rfl, fun hbad => ?_⟩
        obtain ⟨j, hij, hj, hno⟩ := hbad
        rw [show j = i by omega] at hno
        exact absurd hu hno
      · have hilt : i < s.length := by omega
        have hchar : s.getD i 0 ≠ 0 := by
          rw [List.getD_eq_getElem _ _ hilt]
          exact fun hc => hs.nonzero (hc ▸ List.getElem_mem hilt)
        rw [if_neg hchar]
        obtain ⟨hgood, hbad⟩ := @ih (i + 1) (by omega) (by omega) hnext
        constructor
        · intro hall
          rw [hgood fun j hij hj => hall j (by omega) hj, List.drop_eq_getElem_cons hilt,
            List.getD_eq_getElem _ _ hilt]
          rfl
        · intro hex
          obtain ⟨j, hij, hj, hno⟩ := hex
          have hne : j ≠ i := by
            intro hc
            rw [hc] at hno
            exact hno hu
          rw [hbad ⟨j, by omega, hj, hno⟩]
          rfl
    · rw [copyUserPathFrom_fault hlt hu]
      exact ⟨fun hall => absurd (hall i le_rfl hi) hu, fun _ => rfl⟩

/-- `vfs_copy_user_path` fetches a short string exactly when it can be read. -/
theorem copyUserPath_string (hf : UserFrames m cr3) (hs : PointsTo m cr3 u s)
    (hlen : s.length < vfsPathMax - 1) (hlt : u < 2 ^ 64) :
    (Readable m cr3 u s → copyUserPath m cr3 u = .ok s) ∧
      (¬ Readable m cr3 u s → copyUserPath m cr3 u = .error veFault) := by
  obtain ⟨hgood, hbad⟩ := @copyUserPathFrom_string m cr3 u (vfsPathMax - 1) 0 s hf hs
    (Nat.zero_le _) (by omega) hlt
  constructor
  · intro hread
    exact hgood fun j _ hj => hread j hj
  · intro hread
    obtain ⟨j, hno⟩ := not_forall.mp hread
    obtain ⟨hj, hno⟩ := Classical.not_imp.mp hno
    exact hbad ⟨j, Nat.zero_le _, hj, hno⟩

end Paths

end VoidOS.Vfs

namespace VoidOS.Elf

open ByteMem Mm

section Statuses

variable {nxOk : Bool} {ph ph' : Phys} {sp sp' : Space} {flags va n base fuel done : ℕ}
  {st e : ElfStatus} {seg : Phdr} {segs : List Phdr} {img : Image} {ctx : ElfLoader}
  {blobs : Blobs} {path : List UInt8}

theorem mapSegmentPage_status : (mapSegmentPage nxOk ph sp flags va).2.2 ≠ .errFault := by
  unfold mapSegmentPage
  dsimp only
  split
  · split <;> simp
  · split
    · simp
    · split <;> simp

theorem mapPagesFrom_status : (mapPagesFrom nxOk flags n va ph sp).2.2 ≠ .errFault := by
  induction n generalizing va ph sp with
  | zero => simp [mapPagesFrom]
  | succ n ih =>
    have hpage := @mapSegmentPage_status nxOk ph sp flags va
    rw [mapPagesFrom]
    split
    · exact ih
    · rename_i hs
      rw [hs] at hpage
      exact hpage

theorem copySegmentFrom_status {cr3 : ℕ} {m : Mem} :
    (copySegmentFrom img base seg cr3 fuel done m).2 ≠ .errFault := by
  induction fuel generalizing done m with
  | zero => simp [copySegmentFrom]
  | succ fuel ih =>
    rw [copySegmentFrom]
    dsimp only
    split
    · simp
    · split
      · simp
      · exact ih

theorem forSegments_status {f : Phdr → Phys → Space → Phys × Space × ElfStatus}
    (hf : ∀ seg ph sp, (f seg ph sp).2.2 ≠ .errFault) :
    (forSegments f segs ph sp).2.2 ≠ .errFault := by
  induction segs generalizing ph sp with
  | nil => simp [forSegments]
  | cons seg segs ih =>
    have hseg := hf seg ph sp
    rw [forSegments]
    split
    · exact ih
    · rename_i hs
      rw [hs] at hseg
      exact hseg

theorem elfLoadSegmentsOnly_status : (elfLoadSegmentsOnly nxOk ctx ph sp).2.2 ≠ .errFault := by
  have hmap := @forSegments_status ph sp ctx.image.loads (mapSegmentPages nxOk ctx.base)
    fun _ _ _ => mapPagesFrom_status
  unfold elfLoadSegmentsOnly
  split
  · exact forSegments_status fun _ _ _ => copySegmentFrom_status
  · rename_i hs
    rw [hs] at hmap
    exact hmap

theorem setupUserStack_status : (setupUserStack nxOk ctx ph sp).2.2 ≠ .error .errFault := by
  unfold setupUserStack
  dsimp only
  split
  · simp
  · split
    · simp
    · split <;> simp

theorem elfFindEmbedded_status : elfFindEmbedded blobs path ≠ .error .errFault := by
  unfold elfFindEmbedded
  split <;> simp

theorem elfValidate_status : elfValidate img ≠ .error .errFault := by
  unfold elfValidate
  dsimp only
  split
  · simp
  · split
    · simp
    · split
      · simp
      · split <;> simp

theorem elfLoadInterp_status :
    (elfLoadInterp nxOk blobs path ph sp).2.2 ≠ .error .errFault := by
  unfold elfLoadInterp
  split
  · rename_i he
    exact fun hc => elfFindEmbedded_status (by rw [he, Except.error.inj hc])
  · rename_i img _
    split
    · rename_i he
      exact fun hc => elfValidate_status (by rw [he, Except.error.inj hc])
    · rename_i ic _
      split
      · simp
      · have hseg := @elfLoadSegmentsOnly_status nxOk ph sp ic
        split
        · simp
        · rename_i hs
          rw [hs] at hseg
          exact fun hc => hseg (Except.error.inj hc)

theorem elfLoadIntoProcess_status :
    (elfLoadIntoProcess nxOk ctx ph sp).2.2 ≠ .error .errFault := by
  have hseg := @elfLoadSegmentsOnly_status nxOk ph sp ctx
  unfold elfLoadIntoProcess
  split
  · rename_i ph₁ sp₁ _
    have hstack := @setupUserStack_status nxOk ph₁ sp₁ ctx
    split
    · rename_i hs
      rw [hs] at hstack
      exact fun hc => hstack (congrArg Except.error (Except.error.inj hc))
    · simp
  · rename_i hs
    rw [hs] at hseg
    exact fun hc => hseg (Except.error.inj hc)

theorem elfLoadAll_status : (elfLoadAll nxOk blobs ctx ph sp).2.2 ≠ .error .errFault := by
  have hmain := @elfLoadIntoProcess_status nxOk ph sp ctx
  unfold elfLoadAll
  split
  · rename_i hs
    rw [hs] at hmain
    exact hmain
  · rename_i ph₁ sp₁ _ _ _
    split
    · simp
    · rename_i path _
      have hinterp := @elfLoadInterp_status nxOk ph₁ sp₁ blobs path
      split
      · rename_i hs
        rw [hs] at hinterp
        exact fun hc => hinterp (congrArg Except.error (Except.error.inj hc))
      · simp

end Statuses

end VoidOS.Elf

namespace VoidOS.Proc

open ByteMem PageTree Mm Elf

def Kernel.answer (k : Kernel) : ℕ := k.frame .rax

/-- `process_execve_current` fetches the string at `upath`, which the process can read or cannot,
as `vfs_copy_user_path` does. -/
structure FetchesReadable (k : Kernel) (upath : ℕ) (sp : Space) (s : List UInt8) : Prop where
  fetched : (k.processExecveCurrent upath).answer ≠ toU64 veFault ↔
    Readable k.phys.ram sp.cr3 upath s
  agrees : (k.processExecveCurrent upath).answer ≠ toU64 veFault ↔
    Vfs.copyUserPath k.phys.ram sp.cr3 upath ≠ .error Vfs.veFault

section Fetch

variable {k : Kernel} {i upath : ℕ} {s : List UInt8} {v : ℤ}

@[simp] theorem answer_setFrame (k : Kernel) (f : Sched.Frame) : (k.setFrame f).answer = f .rax := by
  simp [Kernel.answer, Kernel.frame, Kernel.setFrame, Sched.Scheduler.setThread]

@[simp] theorem answer_ret (k : Kernel) (v : ℤ) : (k.ret v).answer = toU64 v := by
  simp [Kernel.ret]

theorem answer_execSwap {ph : Phys} {sp : Space} {entry rsp : ℕ} :
    (k.execSwap i ph sp entry rsp).answer = 0 := by
  unfold Kernel.execSwap
  simp

theorem code_ne_fault {e : ElfStatus} (he : e ≠ .errFault) :
    toU64 e.code ≠ toU64 veFault := by
  cases e with
  | errFault => exact absurd rfl he
  | ok => decide
  | errNomem => decide
  | errNoexec => decide
  | errInval => decide

/-- The call answers a fault exactly when the 31 bytes could not be copied. -/
theorem processExecveCurrent_fault (hcur : k.processCurrent = some i) (hpid : (k.procs i).pid ≠ 0)
    (hz : (k.procs i).state ≠ .zombie) :
    (k.processExecveCurrent upath).answer = toU64 veFault ↔
      copyFromUser k.phys.ram (k.procs i).space.cr3 upath 31 = none := by
  unfold Kernel.processExecveCurrent
  rw [hcur]
  dsimp only
  rw [if_neg hpid, if_neg hz]
  cases copyFromUser k.phys.ram (k.procs i).space.cr3 upath 31 with
  | none => simp
  | some name =>
    refine iff_of_false ?_ (by simp)
    dsimp only
    -- past the copy the answers are those of the loader
    split
    · rename_i e he
      rw [answer_ret]
      exact code_ne_fault fun hc => elfFindEmbedded_status (hc ▸ he)
    · split
      · rename_i e he
        rw [answer_ret]
        exact code_ne_fault fun hc => elfValidate_status (hc ▸ he)
      · rename_i ctx _
        generalize addressSpaceCreate k.phys k.kernelPml4 = r
        split
        · rw [answer_ret]
          decide
        · have hload := @elfLoadAll_status k.nxOk r.1 ⟨r.2, [], 0, 0, 0⟩ ctx k.blobs
          split
          · rename_i e hs
            rw [hs] at hload
            rw [answer_ret]
            exact code_ne_fault fun hc => hload (congrArg Except.error hc)
          · rw [answer_execSwap]
            decide

/-- The call gets past the fetch exactly when the 31 bytes from the pointer on can be read. -/
theorem processExecveCurrent_window (hcur : k.processCurrent = some i)
    (hpid : (k.procs i).pid ≠ 0) (hz : (k.procs i).state ≠ .zombie)
    (hf : UserFrames k.phys.ram (k.procs i).space.cr3) :
    (k.processExecveCurrent upath).answer ≠ toU64 veFault ↔
      ∀ j < 31, OnUserPage k.phys.ram (k.procs i).space.cr3 (upath + j) := by
  rw [Ne, processExecveCurrent_fault hcur hpid hz]
  constructor
  · intro hsome
    by_contra hno
    exact hsome (copyFromUser_none hno)
  · intro hall
    rw [copyFromUser_pages hf (by decide) hall]
    simp

end Fetch

/-- `process_execve_current` fetches a path of at most 30 characters exactly when the process can
read it, if a path that it can read has 31 bytes that it can read; the call copies that many
bytes, however short the path is. -/
theorem processExecveCurrent_fetches {k : Kernel} {i upath : ℕ} {s : List UInt8}
    (hcur : k.processCurrent = some i) (hpid : (k.procs i).pid ≠ 0)
    (hz : (k.procs i).state ≠ .zombie) (hf : UserFrames k.phys.ram (k.procs i).space.cr3)
    (hs : PointsTo k.phys.ram (k.procs i).space.cr3 upath s) (hlen : s.length ≤ 30)
    (hupath : upath < 2 ^ 64) :
    FetchesReadable k upath (k.procs i).space s ↔
      (Readable k.phys.ram (k.procs i).space.cr3 upath s →
        ∀ j < 31, OnUserPage k.phys.ram (k.procs i).space.cr3 (upath + j)) := by
  have hwindow := @processExecveCurrent_window k i upath hcur hpid hz hf
  obtain ⟨hgood, hbad⟩ := Vfs.copyUserPath_string hf hs (by unfold Vfs.vfsPathMax; omega) hupath
  constructor
  · intro h hread
    exact hwindow.mp (h.fetched.mpr hread)
  · intro h
    have hfetched : (k.processExecveCurrent upath).answer ≠ toU64 veFault ↔
        Readable k.phys.ram (k.procs i).space.cr3 upath s := by
      rw [hwindow]
      exact ⟨fun hall j hj => hall j (by omega), h⟩
    refine ⟨hfetched, hfetched.trans ?_⟩
    constructor
    · intro hread
      rw [hgood hread]
      simp
    · intro hcopy
      by_contra hread
      exact hcopy (hbad hread)

def userKernel (ph : Phys) (sp : Space) : Kernel where
  phys := ph
  kernelPml4 := 0x1000
  nxOk := true
  blobs := []
  trampoline := 0
  nextStackVaddr := 0xFFFFFFFF90000000
  heapTop := 0xFFFFFFFFA0000000
  procs := Function.update
    (fun _ => ⟨-1, -1, .unused, 0, none, ⟨0, [], 0, 0, 0⟩, [], none, 0, []⟩)
    1 ⟨1, 0, .running, 0, some 0, sp, [], none, 0, []⟩
  nextPid := 2
  sched := { Sched.bootThreads sp.cr3 with
    threads := fun _ => ⟨Sched.emptyFrame, sp.cr3, .running, some 1, some 0⟩ }
  files := fun _ => none
  root := Vfs.builtTree
  heapFrames := []
  stackFrames := []
  exits := []
  reaps := []

def calcName : List UInt8 := [0x63, 0x61, 0x6C, 0x63]

/-- The memory of `twoPagePhys` with "calc" at byte `o` of the second page. -/
def calcPhys (o : ℕ) : Phys :=
  { twoPagePhys 0x5007 0x6007 7 64 with
    ram := blit (twoPageMem 0x5007 0x6007) (6 * pageSize + o) (calcName ++ [0]) }

theorem calcPhys_frames {o : ℕ} (ho : o + (calcName ++ [0]).length ≤ pageSize) :
    UserFrames (calcPhys o).ram (twoPageSpace 0x401000).cr3 := by
  have hok := twoPageSpace_ok 0x401000 (le_refl 7) (show 7 ≤ 64 by decide) (by decide)
  have hf : 6 ∈ (twoPageSpace 0x401000).data := ⟨⟨0x5FF000, 0x6000⟩, by decide, by decide⟩
  exact (hok.blit hf o (calcName ++ [0]) ho).ok.userFrames

theorem processExecveCurrent_fetches_calc :
    FetchesReadable (userKernel (calcPhys 0) (twoPageSpace 0x401000)) 0x5FF000
      (twoPageSpace 0x401000) calcName := by
  have hpages : ∀ j < 31, OnUserPage (calcPhys 0).ram 0x1000 (0x5FF000 + j) := by
    intro j hj
    refine ⟨by unfold userLimit; omega, ?_⟩
    revert j
    decide +kernel
  have hbytes : ∀ i ≤ calcName.length,
      userByte (calcPhys 0).ram 0x1000 (0x5FF000 + i) = calcName.getD i 0 := by decide +kernel
  exact (@processExecveCurrent_fetches (userKernel (calcPhys 0) (twoPageSpace 0x401000)) 1 0x5FF000
    calcName rfl (by decide) (by decide) (calcPhys_frames (by decide))
    ⟨by decide, fun i hi _ => hbytes i hi⟩ (by decide) (by decide)).mpr fun _ => hpages

/-- "calc" at the end of the last page that is mapped: the process can read it, and
`vfs_copy_user_path` does, but the call answers a fault. -/
theorem processExecveCurrent_page_end :
    PointsTo (calcPhys 0xFFB).ram 0x1000 0x5FFFFB calcName ∧
      Readable (calcPhys 0xFFB).ram 0x1000 0x5FFFFB calcName ∧
      ((userKernel (calcPhys 0xFFB) (twoPageSpace 0x401000)).processExecveCurrent
        0x5FFFFB).answer = toU64 veFault ∧
      Vfs.copyUserPath (calcPhys 0xFFB).ram 0x1000 0x5FFFFB = .ok calcName ∧
      ¬ FetchesReadable (userKernel (calcPhys 0xFFB) (twoPageSpace 0x401000)) 0x5FFFFB
        (twoPageSpace 0x401000) calcName := by
  have hread : Readable (calcPhys 0xFFB).ram 0x1000 0x5FFFFB calcName := by
    intro i hi
    rw [show calcName.length = 4 from rfl] at hi
    refine ⟨by unfold userLimit; omega, ?_⟩
    revert i
    decide +kernel
  have hbytes : ∀ i ≤ calcName.length,
      userByte (calcPhys 0xFFB).ram 0x1000 (0x5FFFFB + i) = calcName.getD i 0 := by decide +kernel
  have hs : PointsTo (calcPhys 0xFFB).ram 0x1000 0x5FFFFB calcName :=
    ⟨by decide, fun i hi _ => hbytes i hi⟩
  -- the page after it is not there
  have hno : ¬ ∀ j < 31, OnUserPage (calcPhys 0xFFB).ram 0x1000 (0x5FFFFB + j) := by
    intro hall
    have hpte : pageOk (vmmGetPte (calcPhys 0xFFB).ram 0x1000 0x600000) false = false := by
      decide +kernel
    exact absurd ((hall 5 (by decide)).2.symm.trans hpte) (by decide)
  have hfault : ((userKernel (calcPhys 0xFFB) (twoPageSpace 0x401000)).processExecveCurrent
      0x5FFFFB).answer = toU64 veFault :=
    (processExecveCurrent_fault (i := 1) rfl (by decide) (by decide)).mpr (copyFromUser_none hno)
  refine ⟨hs, hread, hfault, ?_, fun h => h.fetched.mpr hread hfault⟩
  exact (Vfs.copyUserPath_string (calcPhys_frames (by decide)) hs (by decide) (by decide)).1 hread

end VoidOS.Proc
