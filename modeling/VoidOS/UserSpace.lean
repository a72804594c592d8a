import VoidOS.ElfValidate
import VoidOS.UserCopy

namespace VoidOS.Mm

open ByteMem PageTree
open Elf (userStackTop userStackSize)

def userCodeBase : ℕ := 0x400000
def userMmapTop : ℕ := userStackTop - userStackSize
def maxUmap : ℕ := 256

def vePerm : ℤ := -1
def veChild : ℤ := -10
def veNomem : ℤ := -12
def veFault : ℤ := -14
def veInval : ℤ := -22

structure Mapping where
  virt : ℕ
  phys : ℕ
deriving DecidableEq, Inhabited, Repr

/-- The part of a `process_t` that describes its memory. -/
structure Space where
  cr3 : ℕ
  umap : List Mapping
  heapStart : ℕ
  brkCurrent : ℕ
  brkPerm : ℕ
deriving DecidableEq, Repr

/-- The loop of `address_space_create` that empties the lower half. -/
def clearLower (m : Mem) (pml4 : ℕ) : Mem :=
  (List.range 256).foldl (fun m i => setEntry m pml4 i 0) m

/-- The loop of `address_space_create` that shares the upper half with the kernel. -/
def shareUpper (m : Mem) (pml4 kernelPml4 : ℕ) : Mem :=
  (List.range 256).foldl
    (fun m i => setEntry m pml4 (256 + i) (entry m kernelPml4 (256 + i))) m

def addressSpaceCreate (ph : Phys) (kernelPml4 : ℕ) : Phys × ℕ :=
  let (ph, pml4) := pmmAllocFrame ph
  if pml4 = 0 then (ph, 0)
  else ({ ph with ram := shareUpper (clearLower ph.ram pml4) pml4 kernelPml4 }, pml4)

/-- `process_map_user` for a process that is not `NULL`. -/
def processMapUser (ph : Phys) (sp : Space) (virt phys flags : ℕ) : Phys × Space × Bool :=
  if userLimit ≤ virt then (ph, sp, false)
  else if maxUmap ≤ sp.umap.length then (ph, sp, false)
  else
    match vmmMapPage ph sp.cr3 virt phys (flags ||| vmmPresent ||| vmmUser) with
    | (ph, false) => (ph, sp, false)
    | (ph, true) => (ph, { sp with umap := sp.umap ++ [⟨virt, phys⟩] }, true)

def processAllocUserPage (ph : Phys) (sp : Space) (virt flags : ℕ) : Phys × Space × Bool :=
  let (ph, frame) := pmmAllocFrame ph
  if frame = 0 then (ph, sp, false)
  else
    match processMapUser { ph with ram := zeros ph.ram frame pageSize } sp virt frame flags with
    | (ph, sp, true) => (ph, sp, true)
    | (ph, sp, false) => (pmmFreeFrame ph frame, sp, false)

def releasePage (ph : Phys) (cr3 : ℕ) (e : Mapping) : Phys :=
  pmmFreeFrame (vmmUnmapPage ph cr3 e.virt).1 e.phys

/-- The loop of `process_exit_current` and of `process_destroy_user_space` over the record. -/
def releasePages (ph : Phys) (cr3 : ℕ) (umap : List Mapping) : Phys :=
  umap.foldl (fun ph e => releasePage ph cr3 e) ph

def freePd (ph : Phys) (pd : ℕ) : Phys :=
  (List.range 512).foldl
    (fun ph k =>
      if present (entry ph.ram pd k) then pmmFreeFrame ph (addr (entry ph.ram pd k)) else ph) ph

/-- Frees the directories under a page-directory-pointer table. -/
def freePdpt (ph : Phys) (pdpt : ℕ) : Phys :=
  (List.range 512).foldl
    (fun ph j =>
      if present (entry ph.ram pdpt j) then
        pmmFreeFrame (freePd ph (addr (entry ph.ram pdpt j))) (addr (entry ph.ram pdpt j))
      else ph) ph

/-- Frees the tables of the lower half and empties it. -/
def freeTables (ph : Phys) (pml4 : ℕ) : Phys :=
  (List.range 256).foldl
    (fun ph i =>
      if present (entry ph.ram pml4 i) then
        let pdpt := addr (entry ph.ram pml4 i)
        let ph := pmmFreeFrame (freePdpt ph pdpt) pdpt
        { ph with ram := setEntry ph.ram pml4 i 0 }
      else ph) ph

def processDestroyUserSpace (ph : Phys) (sp : Space) : Phys × Space :=
  let ph := releasePages ph sp.cr3 sp.umap
  let ph := freeTables ph sp.cr3
  (pmmFreeFrame ph sp.cr3, { sp with cr3 := 0, umap := [] })

def umapRemove (umap : List Mapping) (i : ℕ) : List Mapping :=
  (umap.set i (umap.getLastD default)).dropLast

/-- The loop of `um_release_from`; a round either passes an entry or drops the last one. -/
def umReleaseLoop (start : ℕ) : ℕ → ℕ → Phys → Space → Phys × Space
  | 0, _, ph, sp => (ph, sp)
  | fuel + 1, i, ph, sp =>
    match sp.umap[i]? with
    | none => (ph, sp)
    | some e =>
      if start ≤ e.virt ∧ e.virt < userMmapTop then
        umReleaseLoop start fuel i (releasePage ph sp.cr3 e)
          { sp with umap := umapRemove sp.umap i }
      else umReleaseLoop start fuel (i + 1) ph sp

def umReleaseFrom (ph : Phys) (sp : Space) (start : ℕ) : Phys × Space :=
  umReleaseLoop start sp.umap.length 0 ph sp

/-- Zeroed pages with the same flags at `n` addresses a page apart, up to the first failure.
The loops of `um_brk_grow`, `setup_user_stack` and the user stack of `process_spawn_user`. -/
def allocPages (flags : ℕ) : ℕ → ℕ → Phys → Space → Phys × Space × Bool
  | 0, _, ph, sp => (ph, sp, true)
  | n + 1, va, ph, sp =>
    match processAllocUserPage ph sp va flags with
    | (ph, sp, false) => (ph, sp, false)
    | (ph, sp, true) => allocPages flags n (va + pageSize) ph sp

/-- How many steps of a page from `va` stay below `stop`. -/
def pagesTo (va stop : ℕ) : ℕ := (stop - va + (pageSize - 1)) / pageSize

/-- `um_brk_grow`. The address cannot wrap, since a page beyond the user half fails. -/
def umBrkGrow (ph : Phys) (sp : Space) (newBrk : ℕ) : Phys × Space × Bool :=
  allocPages sp.brkPerm (pagesTo sp.brkCurrent newBrk) sp.brkCurrent ph sp

def umBrkSet (ph : Phys) (sp : Space) (newBrk : ℕ) : Phys × Space × ℤ :=
  if sp.heapStart = 0 then (ph, sp, veInval)
  else if newBrk < sp.heapStart then (ph, sp, veInval)
  else if sp.brkCurrent < newBrk then
    match umBrkGrow ph sp newBrk with
    | (ph, sp, false) => (ph, sp, veNomem)
    | (ph, sp, true) => (ph, { sp with brkCurrent := newBrk }, 0)
  else if newBrk < sp.brkCurrent then
    let (ph, sp) := umReleaseFrom ph sp (pageDown (add64 newBrk (pageSize - 1)))
    (ph, { sp with brkCurrent := newBrk }, 0)
  else (ph, sp, 0)

def sysBrk (ph : Phys) (sp : Space) (addr : ℕ) : Phys × Space × ℤ :=
  if sp.heapStart = 0 then (ph, sp, veInval)
  else if addr = 0 then (ph, sp, sp.brkCurrent)
  else if addr < sp.heapStart then (ph, sp, sp.brkCurrent)
  else
    match umBrkSet ph sp addr with
    | (ph, sp, 0) => (ph, sp, sp.brkCurrent)
    | (ph, sp, r) => (ph, sp, r)

def brkInit (nxOk : Bool) (sp : Space) (imageEnd : ℕ) : Space :=
  let start := pageDown (add64 imageEnd (pageSize - 1))
  { sp with
    heapStart := start
    brkCurrent := add64 start pageSize
    brkPerm := vmmWrite ||| if nxOk then vmmNx else 0 }

def umRangeClear (m : Mem) (cr3 start stop : ℕ) : Bool :=
  if stop ≤ start then true
  else (List.range (pagesTo (pageDown start) stop)).all fun k =>
    !present (vmmGetPte m cr3 (pageDown start + k * pageSize))

/-- The highest page of the window that is present, or its base. -/
def highestPresent (m : Mem) (cr3 base stop : ℕ) : ℕ :=
  (List.range (pagesTo base stop)).foldl
    (fun occ k =>
      if present (vmmGetPte m cr3 (base + k * pageSize)) then base + k * pageSize else occ) base

/-- The search loop of `um_mmap_reserve`. The base sinks in each round until it is below the
floor or wraps, and a window that wraps passes for clear. -/
def umMmapReserveLoop (m : Mem) (cr3 size floor : ℕ) : ℕ → ℕ → Option ℕ
  | 0, _ => none
  | fuel + 1, base =>
    if umRangeClear m cr3 base (add64 base size) then some base
    else
      let occ := highestPresent m cr3 base (add64 base size)
      let base := pageDown (sub64 occ size)
      if base < floor then none else umMmapReserveLoop m cr3 size floor fuel base

/-- `um_mmap_reserve` for a length that `sys_mmap` has rounded up to pages; `none` is
`-VE_NOMEM`. -/
def umMmapReserve (m : Mem) (sp : Space) (length : ℕ) : Option ℕ :=
  let size := length / pageSize * pageSize
  let floor := max (pageDown (add64 sp.brkCurrent (pageSize - 1))) userCodeBase
  if userMmapTop < size then none
  else if userMmapTop - size < floor then none
  else umMmapReserveLoop m sp.cr3 size floor (userMmapTop / pageSize + 2)
    (pageDown (userMmapTop - size))

def mmapProtFlags (nxOk : Bool) (prot : ℕ) : ℕ :=
  (if prot.testBit 1 then vmmWrite else 0) ||| if !prot.testBit 2 && nxOk then vmmNx else 0

/-- The rollback of `sys_mmap`: the first `k` pages are unmapped, and stay recorded. -/
def unmapPages (ph : Phys) (cr3 base k : ℕ) : Phys :=
  (List.range k).foldl (fun ph i => (vmmUnmapPage ph cr3 (base + i * pageSize)).1) ph

/-- The allocation loop of `sys_mmap`, which has mapped `k` pages from `base` on. -/
def mmapLoop (flags base : ℕ) : ℕ → ℕ → Phys → Space → Phys × Space × Bool
  | 0, _, ph, sp => (ph, sp, true)
  | n + 1, k, ph, sp =>
    match processAllocUserPage ph sp (base + k * pageSize) flags with
    | (ph, sp, false) => (unmapPages ph sp.cr3 base k, sp, false)
    | (ph, sp, true) => mmapLoop flags base n (k + 1) ph sp

def mmapBase (m : Mem) (sp : Space) (addr size : ℕ) : Except ℤ ℕ :=
  if addr = 0 then
    match umMmapReserve m sp size with
    | none => .error veNomem
    | some base => .ok base
  else if addr % pageSize ≠ 0 then .error veInval
  else if userMmapTop ≤ addr then .error veInval
  else if add64 addr size < addr then .error veNomem
  else if !umRangeClear m sp.cr3 addr (add64 addr size) then .error veInval
  else .ok addr

def sysMmap (nxOk : Bool) (ph : Phys) (sp : Space) (addr length prot flags : ℕ) (fd : ℤ)
    (offset : ℕ) : Phys × Space × ℤ :=
  if length = 0 then (ph, sp, veInval)
  else if userMmapTop ≤ length then (ph, sp, veNomem)
  else if fd ≠ -1 ∨ offset ≠ 0 then (ph, sp, veInval)
  else if flags ≠ 0x22 then (ph, sp, veInval)
  else if prot = 0 then (ph, sp, veInval)
  else
    let size := pageDown (add64 length (pageSize - 1))
    match mmapBase ph.ram sp addr size with
    | .error e => (ph, sp, e)
    | .ok base =>
      -- a window that wraps has no page
      let n := if base < add64 base size then size / pageSize else 0
      match mmapLoop (mmapProtFlags nxOk prot) base n 0 ph sp with
      | (ph, sp, false) => (ph, sp, veNomem)
      -- a base that has wrapped around is a negative `long`
      | (ph, sp, true) => (ph, sp, (base : ℤ).bmod (2 ^ 64))

def sysMunmap (ph : Phys) (sp : Space) (addr length : ℕ) : Phys × Space × ℤ :=
  if length = 0 then (ph, sp, veInval)
  else if addr % pageSize ≠ 0 then (ph, sp, veInval)
  else
    let size := pageDown (add64 length (pageSize - 1))
    if add64 addr size < addr ∨ userMmapTop < add64 addr size then (ph, sp, veInval)
    else
      let (ph, sp) := umReleaseFrom ph sp addr
      (ph, sp, 0)

/-- Copies the page at `src` to the page at `dst`. -/
def copyPage (m : Mem) (dst src : ℕ) : Mem :=
  fun x => if dst ≤ x ∧ x < dst + pageSize then m (src + (x - dst)) else m x

/-- The flags `process_fork_current` takes over from an entry of the parent. -/
def forkFlags (pte : ℕ) : ℕ :=
  (if writable pte then vmmWrite else 0) ||| if noExec pte then vmmNx else 0

def forkPages (parentCr3 : ℕ) : List Mapping → Phys → Space → Phys × Space × Bool
  | [], ph, sp => (ph, sp, true)
  | e :: es, ph, sp =>
    let flags := forkFlags (vmmGetPte ph.ram parentCr3 e.virt)
    let (ph, cphys) := pmmAllocFrame ph
    if cphys = 0 then (ph, sp, false)
    else
      match processMapUser { ph with ram := copyPage ph.ram cphys e.phys } sp e.virt cphys flags with
      | (ph, sp, false) => (pmmFreeFrame ph cphys, sp, false)
      | (ph, sp, true) => forkPages parentCr3 es ph sp

/-- The code loop of `process_spawn_user`; `i` pages are loaded. -/
def loadCode (code : List UInt8) : ℕ → ℕ → Phys → Space → Phys × Space × Bool
  | 0, _, ph, sp => (ph, sp, true)
  | n + 1, i, ph, sp =>
    let va := userCodeBase + i * pageSize
    match processAllocUserPage ph sp va 0 with
    | (ph, sp, false) => (ph, sp, false)
    | (ph, sp, true) =>
      let phys := vmmVirtToPhys ph.ram sp.cr3 va
      let chunk := (code.drop (i * pageSize)).take pageSize
      loadCode code n (i + 1) { ph with ram := blit ph.ram phys chunk } sp

end VoidOS.Mm
