import VoidOS.UserSpace

namespace VoidOS.Elf

open ByteMem PageTree Mm

abbrev Blobs := List (List UInt8 × Image)

/-- The comparison of `elf_find_embedded`, on the characters before the terminators. It stops
as soon as one name ends, so a name matches each of its beginnings. -/
def sameName : List UInt8 → List UInt8 → Bool
  | [], [] => true
  | [], _ :: _ => false
  | _ :: _, [] => false
  | a :: as, b :: bs =>
    if a ≠ b then false else if as = [] ∨ bs = [] then true else sameName as bs

def elfFindEmbedded (blobs : Blobs) (name : List UInt8) : Except ElfStatus Image :=
  match blobs.find? fun b => sameName name b.1 with
  | none => .error .errNoexec
  | some b => .ok b.2

/-- The characters of a buffer before its terminator. -/
def cString (bytes : List UInt8) : List UInt8 := bytes.takeWhile (· ≠ 0)

def basename (path : List UInt8) : List UInt8 := (path.reverse.takeWhile (· ≠ 0x2F)).reverse

def elfLoadEnd (ctx : ElfLoader) : ℕ :=
  ctx.image.loads.foldl (fun stop ph => max stop (ph.vend ctx.base)) 0

def segPageFlags (nxOk : Bool) (ph : Phdr) : ℕ :=
  (if ph.write then vmmWrite else 0) ||| if !ph.exec && nxOk then vmmNx else 0

def mergedFlags (pte flags : ℕ) : ℕ :=
  (pte &&& 0x7FFFFFFFFFFFFFFD) ||| (if writable pte || writable flags then vmmWrite else 0) |||
    if noExec pte && noExec flags then vmmNx else 0

def mapSegmentPage (nxOk : Bool) (ph : Phys) (sp : Space) (flags va : ℕ) :
    Phys × Space × ElfStatus :=
  let pte := vmmGetPte ph.ram sp.cr3 va
  if !present pte then
    match processAllocUserPage ph sp va flags with
    | (ph, sp, true) => (ph, sp, .ok)
    | (ph, sp, false) => (ph, sp, .errNomem)
  else
    let merged := mergedFlags pte flags
    if nxOk && writable merged && !noExec merged then (ph, sp, .errNoexec)
    else
      match vmmMapPage ph sp.cr3 va (addr pte) (merged ||| vmmPresent ||| vmmUser) with
      | (ph, true) => (ph, sp, .ok)
      | (ph, false) => (ph, sp, .errNomem)

/-- The loop of `map_segment_pages` over `n` pages. -/
def mapPagesFrom (nxOk : Bool) (flags : ℕ) : ℕ → ℕ → Phys → Space → Phys × Space × ElfStatus
  | 0, _, ph, sp => (ph, sp, .ok)
  | n + 1, va, ph, sp =>
    match mapSegmentPage nxOk ph sp flags va with
    | (ph, sp, .ok) => mapPagesFrom nxOk flags n (add64 va pageSize) ph sp
    | (ph, sp, e) => (ph, sp, e)

/-- `map_segment_pages`. A page beyond the user half that is not present fails, so a loop up
to the last page of the address space ends before it wraps. -/
def mapSegmentPages (nxOk : Bool) (base : ℕ) (seg : Phdr) (ph : Phys) (sp : Space) :
    Phys × Space × ElfStatus :=
  let first := pageDown (seg.vaddr base)
  let last := pageDown (sub64 (seg.vend base) 1)
  let n := if first ≤ last then (last - first) / pageSize + 1 else 0
  mapPagesFrom nxOk (segPageFlags nxOk seg) n first ph sp

/-- The loop of `copy_segment_data`; every round copies a byte, so `p_filesz` rounds are
enough. -/
def copySegmentFrom (img : Image) (base : ℕ) (seg : Phdr) (cr3 : ℕ) :
    ℕ → ℕ → Mem → Mem × ElfStatus
  | 0, _, m => (m, .ok)
  | fuel + 1, done, m =>
    if seg.pFilesz ≤ done then (m, .ok)
    else
      let va := add64 (seg.vaddr base) done
      let chunk := min (pageSize - va % pageSize) (seg.pFilesz - done)
      let phys := vmmVirtToPhys m cr3 va
      if phys = 0 then (m, .errNomem)
      else
        let bytes := (img.bytes.drop (seg.pOffset + done)).take chunk
        copySegmentFrom img base seg cr3 fuel (done + chunk) (blit m phys bytes)

def copySegmentData (img : Image) (base : ℕ) (seg : Phdr) (ph : Phys) (sp : Space) :
    Phys × Space × ElfStatus :=
  let (ram, st) := copySegmentFrom img base seg sp.cr3 seg.pFilesz 0 ph.ram
  ({ ph with ram := ram }, sp, st)

/-- One pass of `elf_load_segments_only` over the segments, up to the first failure. -/
def forSegments (f : Phdr → Phys → Space → Phys × Space × ElfStatus) :
    List Phdr → Phys → Space → Phys × Space × ElfStatus
  | [], ph, sp => (ph, sp, .ok)
  | seg :: segs, ph, sp =>
    match f seg ph sp with
    | (ph, sp, .ok) => forSegments f segs ph sp
    | (ph, sp, e) => (ph, sp, e)

def elfLoadSegmentsOnly (nxOk : Bool) (ctx : ElfLoader) (ph : Phys) (sp : Space) :
    Phys × Space × ElfStatus :=
  match forSegments (mapSegmentPages nxOk ctx.base) ctx.image.loads ph sp with
  | (ph, sp, .ok) => forSegments (copySegmentData ctx.image ctx.base) ctx.image.loads ph sp
  | (ph, sp, e) => (ph, sp, e)

def storeWords (m : Mem) (a : ℕ) : List ℕ → Mem
  | [] => m
  | w :: ws => storeWords (setWord m a w) (a + 8) ws

/-- The characters of `argv[0]` with the terminator. -/
def argv0 : List UInt8 := [0x70, 0x72, 0x6F, 0x67, 0x72, 0x61, 0x6D, 0]

def initialRsp : ℕ := (userStackTop - 18 * 8) / 16 * 16

def argv0Addr : ℕ := (initialRsp - 8) / 16 * 16

/-- `argc`, `argv`, `envp` and the auxiliary vector. -/
def initialFrame (ctx : ElfLoader) : List ℕ :=
  [1, argv0Addr, 0, 0, 3, ctx.phdr, 4, phdrSize, 5, ctx.image.ehdr.ePhnum,
    9, add64 ctx.entry ctx.base, 7, ctx.base, 6, pageSize, 0, 0]

def setupUserStack (nxOk : Bool) (ctx : ElfLoader) (ph : Phys) (sp : Space) :
    Phys × Space × Except ElfStatus ℕ :=
  let flags := vmmWrite ||| if nxOk then vmmNx else 0
  match allocPages flags (userStackSize / pageSize) (userStackTop - userStackSize) ph sp with
  | (ph, sp, false) => (ph, sp, .error .errNomem)
  | (ph, sp, true) =>
    let strPhys := vmmVirtToPhys ph.ram sp.cr3 argv0Addr
    if strPhys = 0 then (ph, sp, .error .errNomem)
    else
      let ram := blit ph.ram strPhys argv0
      let phys := vmmVirtToPhys ram sp.cr3 initialRsp
      if phys = 0 then ({ ph with ram := ram }, sp, .error .errNomem)
      else ({ ph with ram := storeWords ram phys (initialFrame ctx) }, sp, .ok initialRsp)

/-- `elf_load_interp`; the entry point of the interpreter. -/
def elfLoadInterp (nxOk : Bool) (blobs : Blobs) (path : List UInt8) (ph : Phys) (sp : Space) :
    Phys × Space × Except ElfStatus ℕ :=
  match elfFindEmbedded blobs (basename (cString path)) with
  | .error e => (ph, sp, .error e)
  | .ok img =>
    match elfValidate img with
    | .error e => (ph, sp, .error e)
    | .ok ic =>
      if ic.interp.isSome then (ph, sp, .error .errNoexec)
      else
        match elfLoadSegmentsOnly nxOk ic ph sp with
        | (ph, sp, .ok) => (ph, sp, .ok (add64 ic.entry ic.base))
        | (ph, sp, e) => (ph, sp, .error e)

/-- `elf_load_into_process`; the entry point and the stack pointer. -/
def elfLoadIntoProcess (nxOk : Bool) (ctx : ElfLoader) (ph : Phys) (sp : Space) :
    Phys × Space × Except ElfStatus (ℕ × ℕ) :=
  match elfLoadSegmentsOnly nxOk ctx ph sp with
  | (ph, sp, .ok) =>
    match setupUserStack nxOk ctx ph sp with
    | (ph, sp, .error e) => (ph, sp, .error e)
    | (ph, sp, .ok rsp) => (ph, sp, .ok (add64 ctx.entry ctx.base, rsp))
  | (ph, sp, e) => (ph, sp, .error e)

/-- The steps `process_spawn_elf` and `process_execve_current` share: the image, its
interpreter and the break. The result is the first instruction and the stack pointer. -/
def elfLoadAll (nxOk : Bool) (blobs : Blobs) (ctx : ElfLoader) (ph : Phys) (sp : Space) :
    Phys × Space × Except ElfStatus (ℕ × ℕ) :=
  match elfLoadIntoProcess nxOk ctx ph sp with
  | (ph, sp, .error e) => (ph, sp, .error e)
  | (ph, sp, .ok (entry, rsp)) =>
    match ctx.interp with
    | none => (ph, brkInit nxOk sp (elfLoadEnd ctx), .ok (entry, rsp))
    | some path =>
      match elfLoadInterp nxOk blobs path ph sp with
      | (ph, sp, .error e) => (ph, sp, .error e)
      | (ph, sp, .ok entry) => (ph, brkInit nxOk sp (elfLoadEnd ctx), .ok (entry, rsp))

end VoidOS.Elf
