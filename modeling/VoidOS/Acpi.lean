import VoidOS.ReadProg

namespace VoidOS.Acpi

open ReadProg

/-! ## The map window

Console messages and the self test are left out. The operands of the `|` chains in
`acpi_rd32` and `acpi_rd64` are evaluated from left to right. -/

def acpiMaxTables : ℕ := 64
def acpiMapWin : ℕ := 0xffffffffe0000000
def acpiMapPages : ℕ := 16

/-- Why a call does not return: `cpu_halt` in `acpi_rdb`, a load from a virtual page
that is not mapped, or a loop that is still at work. -/
inductive Fault
  | halted
  | pageFault
  | running
deriving DecidableEq

/-- Physical memory, and whether `vmm_map_page` succeeds for a slot of the window. -/
structure Platform where
  mem : ℕ → UInt8
  canMap : ℕ → Bool

/-- A load: the physical address that is asked for, and the one the window leads to. -/
structure Load where
  asked : ℕ
  got : ℕ
deriving DecidableEq

/-- `win_phys`, the page table entries of the slots and, newest first, the loads made
through the window so far. -/
structure Window where
  phys : List ℕ
  pte : List (Option ℕ)
  loads : List Load
deriving DecidableEq

/-- A pointer into the window with the physical address that it stands for. -/
structure Ptr where
  addr : ℕ
  phys : ℕ
deriving DecidableEq

def pageOf (addr : ℕ) : ℕ := addr - addr % 4096

/-- The page `vmm_map_page` enters (`PHYS_MASK` keeps the low 52 bits). -/
def frameOf (page : ℕ) : ℕ := page % 2 ^ 52

def addrOf (phys off : ℕ) : ℕ := (phys + off) % 2 ^ 64

def acpiEnsure (pl : Platform) (w : Window) (addr : ℕ) : Bool × Window :=
  if pageOf addr ∈ w.phys then (true, w)
  else
    -- a slot is free if its page is 0
    match w.phys.idxOf? 0 with
    | none => (false, w)
    | some i =>
      if pl.canMap i then
        (true, { w with
          phys := w.phys.set i (pageOf addr)
          pte := w.pte.set i (some (frameOf (pageOf addr))) })
      else (false, w)

def acpiMapField (pl : Platform) (w : Window) (addr : ℕ) : Option Ptr × Window :=
  match acpiEnsure pl w addr with
  | (false, w) => (none, w)
  | (true, w) =>
    ((w.phys.idxOf? (pageOf addr)).map fun i => ⟨acpiMapWin + i * 4096 + addr % 4096, addr⟩, w)

def load (pl : Platform) (w : Window) (p : Ptr) (k : ℕ) : Except Fault (UInt8 × Window) :=
  match (w.pte[(p.addr + k - acpiMapWin) / 4096]?).join with
  | none => .error .pageFault
  | some frame =>
    let got := frame + (p.addr + k) % 4096
    .ok (pl.mem got, { w with loads := ⟨addrOf p.phys k, got⟩ :: w.loads })

def acpiRdb (pl : Platform) (w : Window) (addr : ℕ) : Except Fault (UInt8 × Window) :=
  match acpiMapField pl w addr with
  | (none, _) => .error .halted
  | (some p, w) => load pl w p 0

def acpiTablePtr (pl : Platform) (w : Window) (phys : ℕ) : Option Ptr × Window :=
  acpiMapField pl w phys

/-! ## Reading tables

What is read byte by byte is a program whose questions are physical addresses;
`acpiRdb` answers them. -/

abbrev Reader := Prog ℕ UInt8

def rdb (phys off : ℕ) : Reader UInt8 := .ask (addrOf phys off) .done

def le32 (b₀ b₁ b₂ b₃ : UInt8) : ℕ :=
  b₀.toNat + b₁.toNat * 2 ^ 8 + b₂.toNat * 2 ^ 16 + b₃.toNat * 2 ^ 24

def acpiRd32 (phys off : ℕ) : Reader ℕ := do
  let b₀ ← rdb phys off
  let b₁ ← rdb phys (off + 1)
  let b₂ ← rdb phys (off + 2)
  let b₃ ← rdb phys (off + 3)
  return le32 b₀ b₁ b₂ b₃

def acpiRd64 (phys off : ℕ) : Reader ℕ := do
  let lo ← acpiRd32 phys off
  let hi ← acpiRd32 phys (off + 4)
  return lo + hi * 2 ^ 32

/-- The loop of `acpi_checksum_at`, with `n` bytes left from offset `i` on. -/
def checksumFrom (phys : ℕ) : ℕ → ℕ → UInt8 → Reader UInt8
  | 0, _, sum => return sum
  | n + 1, i, sum => do
    let b ← rdb phys i
    checksumFrom phys n (i + 1) (sum + b)

def acpiChecksumAt (phys len : ℕ) : Reader Bool := do
  let sum ← checksumFrom phys len 0 0
  return sum == 0

structure SdtHeader where
  signature : List UInt8
  length : ℕ
  revision : UInt8
  checksum : UInt8
  oem : List UInt8
  oemTable : List UInt8
  oemRevision : ℕ
  creatorId : ℕ
  creatorRevision : ℕ

/-- A loop that reads `n` bytes from offset `off` on. -/
def readBytes (phys : ℕ) : ℕ → ℕ → Reader (List UInt8)
  | _, 0 => return []
  | off, n + 1 => do
    let b ← rdb phys off
    let bs ← readBytes phys (off + 1) n
    return b :: bs

def acpiReadSdt (phys : ℕ) : Reader SdtHeader := do
  let oemRevision ← acpiRd32 phys 24
  let creatorId ← acpiRd32 phys 28
  let creatorRevision ← acpiRd32 phys 32
  let signature ← readBytes phys 0 4
  let length ← acpiRd32 phys 4
  let revision ← rdb phys 8
  let checksum ← rdb phys 9
  let oem ← readBytes phys 10 6
  let oemTable ← readBytes phys 16 8
  return {
    signature := signature
    length := length
    revision := revision
    checksum := checksum
    oem := oem
    oemTable := oemTable
    oemRevision := oemRevision
    creatorId := creatorId
    creatorRevision := creatorRevision }

/-- The table list that is used, with the size of its entries. -/
def tableList (rev : UInt8) (rsdt xsdt : ℕ) : Option (ℕ × ℕ) :=
  if 2 ≤ rev ∧ xsdt ≠ 0 then some (xsdt, 8)
  else if rsdt ≠ 0 then some (rsdt, 4)
  else none

/-- `(hdr.length - 36) / entry_sz` in 32 bits, at most `ACPI_MAX_TABLES`. -/
def entryCount (length entrySz : ℕ) : ℕ :=
  min acpiMaxTables ((length + 2 ^ 32 - 36) % 2 ^ 32 / entrySz)

def readEntry (list entrySz i : ℕ) : Reader ℕ :=
  if entrySz = 8 then acpiRd64 list (36 + i * 8) else acpiRd32 list (36 + i * 4)

/-- The loop over the table list, with `n` entries left from entry `i` on. -/
def registerFrom (list entrySz : ℕ) : ℕ → ℕ → Reader (List ℕ)
  | 0, _ => return []
  | n + 1, i => do
    let tphys ← readEntry list entrySz i
    if tphys = 0 then registerFrom list entrySz n (i + 1)
    else
      let hdr ← acpiReadSdt tphys
      if hdr.length < 36 then registerFrom list entrySz n (i + 1)
      else
        let ok ← acpiChecksumAt tphys hdr.length
        if ok then
          let rest ← registerFrom list entrySz n (i + 1)
          return tphys :: rest
        else registerFrom list entrySz n (i + 1)

/-- The part of `acpi_init` that reads the RSDP and the table list: the size of the
entries and the tables it registers. -/
def readTables (rsdp : ℕ) : Reader (Option (ℕ × List ℕ)) := do
  let rev ← rdb rsdp 15
  let rsdt ← acpiRd32 rsdp 16
  let _len ← acpiRd32 rsdp 20
  let xsdt ← acpiRd64 rsdp 24
  let rsdpOk ← acpiChecksumAt rsdp (if 2 ≤ rev then 36 else 20)
  if rsdpOk then
    match tableList rev rsdt xsdt with
    | none => return none
    | some (list, entrySz) =>
      let hdr ← acpiReadSdt list
      let listOk ← acpiChecksumAt list hdr.length
      if listOk then
        let tables ← registerFrom list entrySz (entryCount hdr.length entrySz) 0
        return some (entrySz, tables)
      else return none
  else return none

attribute [irreducible] readTables

def sigMatches (pl : Platform) (p : Ptr) :
    List UInt8 → ℕ → Window → Except Fault (Bool × Window)
  | [], _, w => .ok (true, w)
  | c :: cs, k, w =>
    match load pl w p k with
    | .error e => .error e
    | .ok (b, w) => if b = c then sigMatches pl p cs (k + 1) w else .ok (false, w)

/-- The loop of `acpi_find_table` over the tables that are left, `c` matches so far. -/
def acpiFindTable (pl : Platform) (sig : List UInt8) (index : ℕ) :
    List ℕ → ℕ → Window → Except Fault (Option Ptr × Window)
  | [], _, w => .ok (none, w)
  | t :: ts, c, w =>
    match acpiTablePtr pl w t with
    | (none, w) => acpiFindTable pl sig index ts c w
    | (some s, w) =>
      match sigMatches pl s sig 0 w with
      | .error e => .error e
      | .ok (false, w) => acpiFindTable pl sig index ts c w
      | .ok (true, w) =>
        if c = index then .ok (some s, w) else acpiFindTable pl sig index ts (c + 1) w

structure State where
  rsdpPhys : ℕ
  tables : List ℕ
  version : ℕ
  win : Window
deriving DecidableEq

/-- The variables at boot; `busy` is what the page tables already map in the window. -/
def boot (busy : ℕ → Option ℕ) : State :=
  ⟨0, [], 0, ⟨List.replicate acpiMapPages 0, (List.range acpiMapPages).map busy, []⟩⟩

def facp : List UInt8 := [70, 65, 67, 80]

def apic : List UInt8 := [65, 80, 73, 67]

/-- `fadt ? fadt->revision : (entry_sz == 8 ? 2 : 1)`. -/
def readVersion (pl : Platform) (fadt : Option Ptr) (entrySz : ℕ) (w : Window) :
    Except Fault (ℕ × Window) :=
  match fadt with
  | none => .ok (if entrySz = 8 then 2 else 1, w)
  | some p =>
    match load pl w p 8 with
    | .error e => .error e
    | .ok (b, w) => .ok (b.toNat, w)

def acpiInit (pl : Platform) (s : State) (rsdp : ℕ) : Except Fault (ℤ × State) :=
  let s := { s with rsdpPhys := rsdp, tables := [], version := 0 }
  if s.win.pte.any Option.isSome then .ok (-1, s)
  else if rsdp = 0 then .ok (-1, s)
  else
    match (readTables rsdp).exec (acpiRdb pl) s.win with
    | .error e => .error e
    | .ok (none, w) => .ok (-1, { s with win := w })
    | .ok (some (entrySz, tables), w) =>
      match acpiFindTable pl facp 0 tables 0 w with
      | .error e => .error e
      | .ok (fadt, w) =>
        match readVersion pl fadt entrySz w with
        | .error e => .error e
        | .ok (version, w) => .ok (0, ⟨rsdp, tables, version, w⟩)

def acpiMadtLapic : UInt8 := 0
def acpiMadtIoapic : UInt8 := 1
def acpiMadtIntOverride : UInt8 := 2

structure MadtEntry where
  type : UInt8
  length : UInt8
  data : Option Ptr
deriving DecidableEq

/-- The calls of the callback, the overrides counted and the window after a walk. -/
structure Walk where
  calls : List MadtEntry
  overrides : ℕ
  win : Window
deriving DecidableEq

def reported (type : UInt8) : Bool :=
  type == acpiMadtLapic || type == acpiMadtIoapic || type == acpiMadtIntOverride

/-- The loop of `acpi_walk_madt` from offset `off` on, `n` overrides so far. -/
def walkFrom (pl : Platform) (madt len : ℕ) : ℕ → ℕ → ℕ → Window → Except Fault Walk
  | 0, _, _, _ => .error .running
  | fuel + 1, off, n, w =>
    if len < (off + 2) % 2 ^ 32 then .ok ⟨[], n, w⟩
    else
      match acpiRdb pl w (addrOf madt off) with
      | .error e => .error e
      | .ok (type, w) =>
        match acpiRdb pl w (addrOf madt ((off + 1) % 2 ^ 32)) with
        | .error e => .error e
        | .ok (elen, w) =>
          let next := (off + elen.toNat) % 2 ^ 32
          if elen < 2 ∨ len < next then .ok ⟨[], n, w⟩
          else if reported type then
            let (data, w) := acpiTablePtr pl w (addrOf madt off)
            let n := if type = acpiMadtIntOverride then n + 1 else n
            match walkFrom pl madt len fuel next n w with
            | .error e => .error e
            | .ok r => .ok { r with calls := ⟨type, elen, data⟩ :: r.calls }
          else walkFrom pl madt len fuel next n w

def acpiWalkMadt (pl : Platform) (madt len : ℕ) (w : Window) : Except Fault Walk :=
  walkFrom pl madt len (len + 1) 8 0 w

/-- The result of `acpi_get_madt`: the return value, the calls of the callback, what is
stored through `override_count`, and the window. -/
structure Madt where
  ret : ℤ
  calls : List MadtEntry
  overrides : Option ℕ
  win : Window
deriving DecidableEq

/-- The search is the loop of `acpi_find_table` at index 0. -/
def acpiGetMadt (pl : Platform) (s : State) : Except Fault Madt :=
  match acpiFindTable pl apic 0 s.tables 0 s.win with
  | .error e => .error e
  | .ok (none, w) => .ok ⟨-1, [], none, w⟩
  | .ok (some p, w) =>
    match (acpiRd32 p.phys 4).exec (acpiRdb pl) w with
    | .error e => .error e
    | .ok (len, w) =>
      if len < 44 then .ok ⟨-1, [], none, w⟩
      else
        match acpiWalkMadt pl p.phys len w with
        | .error e => .error e
        | .ok r => .ok ⟨0, r.calls, some r.overrides, r.win⟩

end VoidOS.Acpi
