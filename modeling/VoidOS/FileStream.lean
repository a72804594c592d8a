import VoidOS.FileSteps
import VoidOS.PathFetch
import VoidOS.PathPlaces
import VoidOS.RecvLoss

namespace VoidOS.Vfs

def seekBase (f : VfsFile) (whence : ℤ) : Option ℤ :=
  if whence = 0 then some 0
  else if whence = 1 then some f.pos
  else if whence = 2 then some f.node.data.length
  else none

/-- A sum that passes the check is exact: one that does not fit comes out negative. -/
theorem toI64_of_nonneg {v : ℤ} (hlo : -2 ^ 63 ≤ v) (hhi : v < 2 ^ 64) (h : 0 ≤ toI64 v) :
    toI64 v = v := by
  unfold toI64 at h ⊢
  omega

theorem seek_eq {f : VfsFile} {offset : ℤ} (hlo : -2 ^ 63 ≤ offset) (hhi : offset < 2 ^ 63)
    (whence : ℤ) : seek f offset whence =
      match seekBase f whence with
      | none => .error veInval
      | some b =>
        if toI64 (b + offset) < 0 then .error veInval else .ok (toI64 (b + offset)).toNat := by
  have hset : toI64 (0 + offset) = offset := by
    unfold toI64
    omega
  unfold seek seekBase
  split
  · dsimp only
    rw [hset]
  split
  · rfl
  split <;> rfl

theorem seek_exact {f : VfsFile} {offset whence : ℤ} {n : ℕ} (hpos : f.pos < 2 ^ 63)
    (hsize : f.node.data.length < 2 ^ 63) (hlo : -2 ^ 63 ≤ offset) (hhi : offset < 2 ^ 63)
    (h : seek f offset whence = .ok n) :
    n < 2 ^ 63 ∧ ∃ b, seekBase f whence = some b ∧ (n : ℤ) = b + offset := by
  have hbase : ∀ b, seekBase f whence = some b → 0 ≤ b ∧ b < 2 ^ 63 := by
    intro b hb
    unfold seekBase at hb
    split_ifs at hb <;> cases hb <;> omega
  rw [seek_eq hlo hhi] at h
  cases hb : seekBase f whence with
  | none =>
    rw [hb] at h
    cases h
  | some b =>
    obtain ⟨hb0, hb1⟩ := hbase b hb
    rw [hb] at h
    dsimp only at h
    split at h
    · cases h
    · cases h
      have heq : toI64 (b + offset) = b + offset :=
        toI64_of_nonneg (by omega) (by omega) (by omega)
      have hlt : toI64 (b + offset) < 2 ^ 63 := by
        unfold toI64
        omega
      exact ⟨by omega, b, rfl, by omega⟩

end VoidOS.Vfs

namespace VoidOS.Proc

open Mm ByteMem Transition

def InRange (_ : Kernel) : Op → Prop
  | .vfsLseek _ offset _ => -2 ^ 63 ≤ offset ∧ offset < 2 ^ 63
  | _ => True

/-- The tree and the open files are small, and every position is an `int64_t`. -/
structure PositionsOk (k : Kernel) : Prop where
  root : Vfs.SmallTree k.root
  file : ∀ o f, k.files o = some f → f.pos < 2 ^ 63 ∧ f.node.data.length < 2 ^ 63

/-- The bytes of a file from `pos` on, at most `count` of them. -/
def chunk (f : Vfs.VfsFile) (count : ℕ) : List UInt8 := (f.node.data.take (f.pos + count)).drop f.pos

section Calls

variable {k k' : Kernel} {i o ubuf count : ℕ} {fd : ℤ} {f : Vfs.VfsFile}

theorem chunk_eq (f : Vfs.VfsFile) (count : ℕ) : chunk f count = Vfs.readBytes f count := by
  rw [chunk, Vfs.readBytes, List.drop_take, Nat.add_sub_cancel_left]

/-- A read of a file: at its end nothing, otherwise the bytes if there is room for them. -/
theorem sysVfsRead_eq (hfd : k.vfsFd i fd = some (o, f)) (hreg : f.node.kind = .reg)
    (hcount : 0 < count) :
    k.sysVfsRead i fd ubuf count =
      let c := copyToUser k.phys.ram (k.procs i).space.cr3 ubuf (chunk f count)
      let k₁ : Kernel := { k with phys := { k.phys with ram := c.1 } }
      if chunk f count = [] then (k, 0)
      else if c.2 then ({ k₁ with
        files := Function.update k.files o (some { f with pos := f.pos + (chunk f count).length }) },
        ((chunk f count).length : ℤ))
      else (k₁, veFault) := by
  have hempty : f.node.data.length ≤ f.pos ↔ chunk f count = [] := by
    rw [chunk_eq, Vfs.readBytes, List.take_eq_nil_iff, List.drop_eq_nil_iff]
    omega
  rw [Kernel.sysVfsRead, if_neg (by omega), hfd]
  dsimp only
  rw [if_neg (by rw [hreg]; simp), ← chunk_eq]
  by_cases hend : f.node.data.length ≤ f.pos
  · rw [if_pos hend, if_pos (hempty.mp hend)]
  · rw [if_neg hend, if_neg (mt hempty.mpr hend)]
    rcases copyToUser k.phys.ram (k.procs i).space.cr3 ubuf (chunk f count) with ⟨ram, _ | _⟩ <;> rfl

/-- What a read through a descriptor of object `o` does: it delivers the bytes and moves the
position past them, or it fails and moves nothing. -/
structure ReadsChunk (k : Kernel) (i o : ℕ) (f : Vfs.VfsFile) (ubuf count : ℕ) (r : Kernel × ℤ) :
    Prop where
  done : 0 ≤ r.2 → r.2 = (chunk f count).length ∧
    r.1.files = Function.update k.files o (some { f with pos := f.pos + r.2.toNat }) ∧
    (SpaceOk k.phys (k.procs i).space →
      userBytes r.1.phys.ram (k.procs i).space.cr3 ubuf (chunk f count).length = chunk f count)
  failed : r.2 < 0 → r.1.files = k.files

/-- What a seek does: the position becomes the sum, or stays. -/
structure SeeksTo (k : Kernel) (o : ℕ) (f : Vfs.VfsFile) (offset whence : ℤ) (r : Kernel × ℤ) :
    Prop where
  done : 0 ≤ r.2 → r.2 < 2 ^ 63 ∧ ∃ b, Vfs.seekBase f whence = some b ∧ r.2 = b + offset ∧
    r.1.files = Function.update k.files o (some { f with pos := r.2.toNat })
  failed : r.2 < 0 → r.1.files = k.files

theorem sysVfsRead_chunk (hfd : k.vfsFd i fd = some (o, f)) (hreg : f.node.kind = .reg)
    (hcount : 0 < count) : ReadsChunk k i o f ubuf count (k.sysVfsRead i fd ubuf count) := by
  have hf : k.files o = some f := (vfsFd_eq_some hfd).2.1
  rw [sysVfsRead_eq hfd hreg hcount]
  dsimp only
  split
  · rename_i hnil
    refine ⟨fun _ => ⟨by rw [hnil]; rfl, ?_, fun _ => by rw [hnil]; rfl⟩, fun hc => ?_⟩
    · exact (Function.update_eq_self_iff.mpr hf.symm).symm
    · exact absurd hc (lt_irrefl 0)
  split
  · rename_i hok
    refine ⟨fun _ => ⟨rfl, rfl, fun hsp => copyToUser_userBytes hsp hok⟩, fun hc => ?_⟩
    dsimp only at hc
    omega
  · exact ⟨fun hc => absurd hc (show ¬ 0 ≤ veFault by decide), fun _ => rfl⟩

theorem sysVfsLseek_to {offset : ℤ} (hfd : k.vfsFd i fd = some (o, f))
    (hreg : f.node.kind = .reg) (hpos : f.pos < 2 ^ 63) (hsize : f.node.data.length < 2 ^ 63)
    (hlo : -2 ^ 63 ≤ offset) (hhi : offset < 2 ^ 63) (whence : ℤ) :
    SeeksTo k o f offset whence (k.sysVfsLseek i fd offset whence) := by
  have herr : Vfs.veInval < 0 := by decide
  rw [Kernel.sysVfsLseek, hfd]
  dsimp only
  rw [if_neg (by rw [hreg]; simp)]
  cases hs : Vfs.seek f offset whence with
  | error e =>
    have he : e < 0 := by
      rw [Vfs.seek_eq hlo hhi] at hs
      split at hs
      · cases hs
        exact herr
      · split at hs <;> cases hs
        exact herr
    exact ⟨fun hc => absurd he (not_lt.mpr hc), fun _ => rfl⟩
  | ok n =>
    obtain ⟨hlt, b, hb, hsum⟩ := Vfs.seek_exact hpos hsize hlo hhi hs
    refine ⟨fun _ => ⟨show (n : ℤ) < 2 ^ 63 by omega, b, hb, hsum, rfl⟩, fun hc => ?_⟩
    dsimp only at hc
    omega

end Calls

section Steps

variable {k k' : Kernel} {o : ℕ} {f : Vfs.VfsFile}

theorem PositionsOk.of_files (h : PositionsOk k) (hroot : k'.root = k.root)
    (hfiles : k'.files = k.files) : PositionsOk k' :=
  ⟨hroot ▸ h.root, hfiles ▸ h.file⟩

theorem PositionsOk.update {r : Vfs.VfsFile} (h : PositionsOk k) (hroot : k'.root = k.root)
    (hfiles : k'.files = Function.update k.files o (some r))
    (hr : r.pos < 2 ^ 63 ∧ r.node.data.length < 2 ^ 63) : PositionsOk k' := by
  refine ⟨hroot ▸ h.root, fun o' f' hf' => ?_⟩
  rw [hfiles] at hf'
  by_cases ho : o' = o
  · rw [ho, Function.update_self] at hf'
    cases hf'
    exact hr
  · rw [Function.update_of_ne ho] at hf'
    exact h.file o' f' hf'

theorem Quiet.positionsOk (hq : Quiet k k') (h : PositionsOk k) : PositionsOk k' := by
  refine ⟨hq.root ▸ h.root, fun o f' hf' => ?_⟩
  obtain ⟨f, hf, hnode, hpos⟩ := hq.files o f' hf'
  rw [hnode, hpos]
  exact h.file o f hf

theorem PositionsOk.step {op : Op} (h : PositionsOk k) (hok : InRange k op)
    (hstep : Proc.step k op = some k') : PositionsOk k' := by
  by_cases hop : op.OnFiles
  swap
  · exact (quiet_step hop hstep).positionsOk h
  rcases fileCalled hop.onProcess hstep with rfl | ⟨i, k₁, r, -, hc, rfl⟩
  · exact h.of_files rfl rfl
  cases hc with
  | @unopened _ _ grow _ =>
    exact h.of_files (heapGrow_same grow k).root (heapGrow_same grow k).files
  | @opened _ _ grow o fd cur _ hl _ =>
    have hgrow := heapGrow_same grow k
    exact h.update hgrow.root (congrArg (Function.update · o _) hgrow.files)
      ⟨show 0 < 2 ^ 63 by decide, (h.root.lookup hl).data⟩
  | @read _ _ count o f _ hf _ =>
    obtain ⟨hpos, hsize⟩ := h.file o f (vfsFd_eq_some hf).2.1
    refine h.update rfl rfl ⟨?_, hsize⟩
    rw [Vfs.readBytes, List.length_take, List.length_drop]
    dsimp only
    omega
  | @sought _ _ _ o _ f hf hs =>
    obtain ⟨hpos, hsize⟩ := h.file o f (vfsFd_eq_some hf).2.1
    exact h.update rfl rfl ⟨(Vfs.seek_exact hpos hsize hok.1 hok.2 hs).1, hsize⟩
  | closed _ => exact hop.elim
  | handled => exact hop.elim
  | _ => exact h.of_files rfl rfl

end Steps

/-- The bytes that a step puts into the buffer of the process that reads from object `o`. -/
def delivered (o : ℕ) (k : Kernel) : Op → List UInt8
  | .vfsRead fd ubuf count =>
    match k.processCurrent with
    | none => []
    | some i =>
      let r := k.sysVfsRead i fd ubuf count
      if (k.vfsFd i fd).map Prod.fst = some o ∧ 0 ≤ r.2 then
        userBytes r.1.phys.ram (k.procs i).space.cr3 ubuf r.2.toNat
      else []
  | _ => []

/-- A step that moves the position of `o` by a seek. -/
def Seeks (o : ℕ) (k : Kernel) : Op → Prop
  | .vfsLseek fd offset whence => ∃ i, k.processCurrent = some i ∧
      (k.vfsFd i fd).map Prod.fst = some o ∧ 0 ≤ (k.sysVfsLseek i fd offset whence).2
  | _ => False

/-- A process that reads has its address space in order. -/
def ReaderOk (k : Kernel) : Op → Prop
  | .vfsRead _ _ _ => ∀ i, k.processCurrent = some i → SpaceOk k.phys (k.procs i).space
  | _ => True

/-- A run in which object `o` stays open and nobody seeks in it, with the bytes that all
processes together have read from it. -/
inductive Shares (o : ℕ) (k : Kernel) : List UInt8 → Kernel → Prop
  | refl : Shares o k [] k
  | step {bytes : List UInt8} {k₁ k₂ : Kernel} {op : Op} : Shares o k bytes k₁ → ReaderOk k₁ op →
      ¬ Seeks o k₁ op → step k₁ op = some k₂ → k₂.files o ≠ none →
      Shares o k (bytes ++ delivered o k₁ op) k₂

section Streams

variable {k k' : Kernel} {o : ℕ} {f : Vfs.VfsFile} {op : Op}

structure Continues (f f' : Vfs.VfsFile) (bytes : List UInt8) : Prop where
  node : f'.node = f.node
  pos : f'.pos = f.pos + bytes.length
  bytes : bytes = (f.node.data.drop f.pos).take bytes.length

theorem Continues.nil (f : Vfs.VfsFile) : Continues f f [] := ⟨rfl, rfl, rfl⟩

theorem Continues.append {f' f'' : Vfs.VfsFile} {bytes bytes' : List UInt8}
    (h : Continues f f' bytes) (h' : Continues f' f'' bytes') :
    Continues f f'' (bytes ++ bytes') := by
  refine ⟨h'.node.trans h.node, ?_, ?_⟩
  · rw [h'.pos, h.pos, List.length_append, Nat.add_assoc]
  · rw [List.length_append, List.take_add, ← h.bytes, List.drop_drop, ← h.pos, ← h.node, ← h'.bytes]

theorem Continues.chunk (f : Vfs.VfsFile) (count : ℕ) :
    Continues f { f with pos := f.pos + (chunk f count).length } (Proc.chunk f count) := by
  refine ⟨rfl, rfl, ?_⟩
  rw [chunk_eq, Vfs.readBytes, List.length_take, List.take_eq_take_iff]
  omega

theorem sysVfsRead_other {i ubuf count : ℕ} {fd : ℤ} (hno : (k.vfsFd i fd).map Prod.fst ≠ some o) :
    (k.sysVfsRead i fd ubuf count).1.files o = k.files o := by
  have hc := readCall k i fd ubuf count
  generalize (k.sysVfsRead i fd ubuf count).1 = k₁ at hc ⊢
  cases hc with
  | read hf _ =>
    apply Function.update_of_ne
    rintro rfl
    exact hno (by rw [hf]; rfl)
  | _ => rfl

theorem sysVfsRead_continues {i : ℕ} (hf : k.files o = some f) (hreg : f.node.kind = .reg)
    (hc : k.processCurrent = some i) (hsp : SpaceOk k.phys (k.procs i).space) (fd : ℤ)
    (ubuf count : ℕ) : ∃ f', (k.sysVfsRead i fd ubuf count).1.files o = some f' ∧
      Continues f f' (delivered o k (.vfsRead fd ubuf count)) := by
  simp only [delivered, hc]
  by_cases hfd : (k.vfsFd i fd).map Prod.fst = some o
  swap
  · rw [if_neg fun h => hfd h.1]
    exact ⟨f, (sysVfsRead_other hfd).trans hf, .nil f⟩
  obtain ⟨⟨o', f₁⟩, hv, rfl⟩ := Option.map_eq_some_iff.mp hfd
  obtain rfl : f = f₁ := Option.some.inj (hf.symm.trans (vfsFd_eq_some hv).2.1)
  rcases Nat.eq_zero_or_pos count with rfl | hcount
  · have hzero : k.sysVfsRead i fd ubuf 0 = (k, 0) := by
      rw [Kernel.sysVfsRead, if_pos rfl, if_neg]
      intro hbad
      rw [Kernel.vfsFd, if_pos hbad] at hv
      cases hv
    rw [hzero, if_pos ⟨hfd, le_refl 0⟩]
    exact ⟨f, hf, .nil f⟩
  have hr := @sysVfsRead_chunk k i o' ubuf count fd f hv hreg hcount
  rcases lt_or_ge (k.sysVfsRead i fd ubuf count).2 0 with hneg | hnn
  · rw [if_neg fun h => absurd h.2 (not_le.mpr hneg), hr.failed hneg]
    exact ⟨f, hf, .nil f⟩
  · obtain ⟨hret, hfiles, hbytes⟩ := hr.done hnn
    rw [if_pos ⟨hfd, hnn⟩, hfiles, hret, Int.toNat_natCast, hbytes hsp, Function.update_self]
    exact ⟨_, rfl, .chunk f count⟩

theorem sysVfsLseek_other {i : ℕ} {fd offset whence : ℤ}
    (hno : ¬ ((k.vfsFd i fd).map Prod.fst = some o ∧
      0 ≤ (k.sysVfsLseek i fd offset whence).2)) :
    (k.sysVfsLseek i fd offset whence).1.files o = k.files o := by
  unfold Kernel.sysVfsLseek at hno ⊢
  split
  · rfl
  rename_i o' f' hfd
  rw [hfd] at hno
  dsimp only at hno ⊢
  split
  · rfl
  rename_i hreg
  rw [if_neg hreg] at hno
  cases hs : Vfs.seek f' offset whence with
  | error e => rfl
  | ok n =>
    rw [hs] at hno
    have ho : o ≠ o' := by
      rintro rfl
      exact hno ⟨rfl, Int.natCast_nonneg n⟩
    exact Function.update_of_ne ho _ _

theorem step_continues (hf : k.files o = some f) (hreg : f.node.kind = .reg)
    (hreader : ReaderOk k op) (hseek : ¬ Seeks o k op) (hstep : step k op = some k')
    (hopen : k'.files o ≠ none) :
    ∃ f', k'.files o = some f' ∧ Continues f f' (delivered o k op) := by
  have hsame : k'.files o = k.files o → delivered o k op = [] →
      ∃ f', k'.files o = some f' ∧ Continues f f' (delivered o k op) := by
    intro hfiles hnil
    rw [hnil]
    exact ⟨f, hfiles.trans hf, .nil f⟩
  by_cases hop : op.OnFiles
  swap
  · obtain ⟨f', hf'⟩ := Option.ne_none_iff_exists'.mp hopen
    obtain ⟨f₀, hf₀, hnode, hpos⟩ := (quiet_step hop hstep).files o f' hf'
    obtain rfl := Option.some.inj (hf₀.symm.trans hf)
    have hnil : delivered o k op = [] := by
      cases op <;> first | rfl | exact absurd trivial hop
    rw [hnil]
    exact ⟨f', hf', hnode, hpos, rfl⟩
  cases op with
  | vfsOpen upath flags grow object =>
    apply hsame _ rfl
    rcases fileCalled hop.onProcess hstep with rfl | ⟨i, k₁, r, -, hc, rfl⟩
    · rfl
    cases hc with
    | nothing => rfl
    | unopened => exact congrFun (heapGrow_same grow k).files o
    | opened hnew _ _ =>
      refine (Function.update_of_ne ?_ _ _).trans (congrFun (heapGrow_same grow k).files o)
      rintro rfl
      rw [hf] at hnew
      cases hnew
  | vfsRead fd ubuf count =>
    cases hstep
    rcases onProcess_cases k fun i => k.sysVfsRead i fd ubuf count with ⟨hc, he⟩ | ⟨i, hc, he⟩
    · exact hsame (by rw [he]; rfl) (by simp only [delivered, hc])
    · rw [he]
      exact sysVfsRead_continues hf hreg hc (hreader i hc) fd ubuf count
  | vfsLseek fd offset whence =>
    apply hsame _ rfl
    cases hstep
    rcases onProcess_cases k fun i => k.sysVfsLseek i fd offset whence with
      ⟨-, he⟩ | ⟨i, hc, he⟩
    · rw [he]
      rfl
    · rw [he]
      exact sysVfsLseek_other fun h => hseek ⟨i, hc, h⟩
  | vfsChdir upath =>
    apply hsame _ rfl
    rcases fileCalled hop.onProcess hstep with rfl | ⟨i, k₁, r, -, hc, rfl⟩
    · rfl
    cases hc with
    | nothing => rfl
    | entered _ _ _ => rfl
  | _ => exact absurd hop not_false

theorem Shares.continues {bytes : List UInt8} (h : Shares o k bytes k') (hf : k.files o = some f)
    (hreg : f.node.kind = .reg) : ∃ f', k'.files o = some f' ∧ Continues f f' bytes := by
  induction h with
  | refl => exact ⟨f, hf, .nil f⟩
  | step _ hreader hseek hstep hopen ih =>
    obtain ⟨f₁, hf₁, hc₁⟩ := ih
    have hreg₁ : f₁.node.kind = .reg := by rw [hc₁.node, hreg]
    obtain ⟨f₂, hf₂, hc₂⟩ := step_continues hf₁ hreg₁ hreader hseek hstep hopen
    exact ⟨f₂, hf₂, hc₁.append hc₂⟩

end Streams

/-- Reads through one open-file object form a stream, whoever makes them: in every state
reached the position is in range, a call moves it exactly or not at all, and the bytes read in
a row are consecutive bytes of the file. -/
theorem file_reads_stream {k : Kernel} (h : Reach step InRange PositionsOk k) {o : ℕ}
    {f : Vfs.VfsFile} (hf : k.files o = some f) (hreg : f.node.kind = .reg) :
    f.pos < 2 ^ 63 ∧
    (∀ i fd, k.vfsFd i fd = some (o, f) →
      (∀ ubuf count, 0 < count → ReadsChunk k i o f ubuf count (k.sysVfsRead i fd ubuf count)) ∧
      ∀ offset whence, -2 ^ 63 ≤ offset → offset < 2 ^ 63 →
        SeeksTo k o f offset whence (k.sysVfsLseek i fd offset whence)) ∧
    ∀ bytes k', Shares o k bytes k' → ∃ f', k'.files o = some f' ∧ Continues f f' bytes := by
  have hok : PositionsOk k := h.invariant (fun _ h => h) fun _ _ _ h hok hs => h.step hok hs
  obtain ⟨hpos, hsize⟩ := hok.file o f hf
  refine ⟨hpos, fun i fd hfd => ⟨fun ubuf count => sysVfsRead_chunk hfd hreg, ?_⟩, ?_⟩
  · intro offset whence hlo hhi
    exact sysVfsLseek_to hfd hreg hpos hsize hlo hhi whence
  · intro bytes k' hshares
    exact hshares.continues hf hreg

/-- A process with "/hello.txt" open at descriptor 3. -/
def readerKernel : Kernel :=
  { userKernel (twoPagePhys 0x5007 0x6007 7 64) (twoPageSpace 0x401000) with
    procs := fun _ => ⟨1, 0, .running, 0, some 0, twoPageSpace 0x401000,
      Kernel.initialFds.set 3 ⟨.vfs, some 0, 0⟩, none, 0, [Vfs.slash]⟩
    files := fun o => if o = 0 then some ⟨Vfs.helloNode, 0, 1⟩ else none }

theorem builtTree_small : Vfs.SmallTree Vfs.builtTree := by
  have hfile (name data : List UInt8) (h : data.length < 2 ^ 63) :
      Vfs.SmallTree (.mk .reg name data []) := .intro h (by simp [Vfs.Node.children])
  have hetc : Vfs.SmallTree Vfs.etcNode := by
    refine .intro (by decide) fun c hc => ?_
    obtain rfl := List.mem_singleton.mp hc
    exact hfile _ _ (by decide)
  refine .intro (by decide) fun c hc => ?_
  simp only [Vfs.builtTree, Vfs.Node.children, List.mem_cons, List.not_mem_nil, or_false] at hc
  rcases hc with rfl | rfl | rfl
  · exact hfile _ _ (by decide)
  · exact hfile _ _ (by decide)
  · exact hetc

theorem file_reads_stream_hello : ReadsChunk readerKernel 1 0 ⟨Vfs.helloNode, 0, 1⟩ 0x5FF000 5
    (readerKernel.sysVfsRead 1 3 0x5FF000 5) := by
  have hok : PositionsOk readerKernel := by
    refine ⟨builtTree_small, fun o f hf => ?_⟩
    have hcase : (if o = 0 then some (⟨Vfs.helloNode, 0, 1⟩ : Vfs.VfsFile) else none) = some f := hf
    split at hcase
    · cases hcase
      decide
    · cases hcase
  exact ((file_reads_stream (.init hok) (o := 0) (f := ⟨Vfs.helloNode, 0, 1⟩) rfl rfl).2.1 1 3
    rfl).1 0x5FF000 5 (by decide)

end VoidOS.Proc
