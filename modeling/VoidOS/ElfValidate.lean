import VoidOS.ElfImage

namespace VoidOS.Elf

inductive ElfStatus
  | ok
  | errNomem
  | errFault
  | errNoexec
  | errInval
deriving DecidableEq, Repr

def ElfStatus.code : ElfStatus → ℤ
  | .ok => 0
  | .errNomem => -12
  | .errFault => -14
  | .errNoexec => -8
  | .errInval => -22

def userMinVaddr : ℕ := 0x10000
def userMaxVaddr : ℕ := 0x800000000000
def userStackTop : ℕ := 0x700000000000
def userStackSize : ℕ := 16 * 4096
def elfDynBase : ℕ := 0x40000000
def elfMaxPhnum : ℕ := 64
def elfMaxLoads : ℕ := 16
def interpPathSize : ℕ := 64

def etExec : ℕ := 2
def etDyn : ℕ := 3

/-- `elf_loader_t`. `phdr` is the run-time address of the program-header table. -/
structure ElfLoader where
  image : Image
  entry : ℕ
  base : ℕ
  interp : Option (List UInt8)
  phdr : ℕ

def loadBase (eh : Ehdr) : ℕ := if eh.eType = etDyn then elfDynBase else 0

/-- Identity, header self-consistency and the bounds of the program-header table. -/
def HeaderOk (img : Image) : Prop :=
  let eh := img.ehdr
  ehdrSize ≤ img.size ∧
  eh.eIdent.take 4 = [0x7F, 0x45, 0x4C, 0x46] ∧
  eh.eIdent.getD 4 0 = 2 ∧ eh.eIdent.getD 5 0 = 1 ∧ eh.eIdent.getD 6 0 = 1 ∧
  (eh.eType = etExec ∨ eh.eType = etDyn) ∧
  eh.eMachine = 62 ∧ eh.eVersion = 1 ∧ eh.eEhsize = ehdrSize ∧ eh.ePhentsize = phdrSize ∧
  eh.ePhnum ≠ 0 ∧ eh.ePhnum ≤ elfMaxPhnum ∧
  eh.ePhoff ≤ img.size ∧ eh.ePhnum * phdrSize ≤ img.size - eh.ePhoff

instance (img : Image) : Decidable (HeaderOk img) := by delta HeaderOk; infer_instance

/-- The biased start of a segment, as the 64-bit sum the code computes. -/
def Phdr.vaddr (base : ℕ) (ph : Phdr) : ℕ := (ph.pVaddr + base) % 2 ^ 64

/-- The biased end of a segment, as the 64-bit sum the code computes. -/
def Phdr.vend (base : ℕ) (ph : Phdr) : ℕ := (ph.vaddr base + ph.pMemsz) % 2 ^ 64

/-- The checks on one `PT_LOAD` that do not look at the other segments. The
second wrap check adds `p_memsz` to the unbiased address. -/
def LoadOk (size base : ℕ) (ph : Phdr) : Prop :=
  ph.pFilesz ≤ ph.pMemsz ∧ ph.pOffset ≤ size ∧ ph.pFilesz ≤ size - ph.pOffset ∧
  ph.pVaddr ≤ ph.vaddr base ∧ ph.pVaddr ≤ (ph.pVaddr + ph.pMemsz) % 2 ^ 64 ∧
  userMinVaddr ≤ ph.vaddr base ∧ ph.vend base ≤ userMaxVaddr ∧
  ph.read ∧ ¬ (ph.write ∧ ph.exec) ∧
  (1 < ph.pAlign → ph.pAlign &&& (ph.pAlign - 1) = 0 ∧
    ph.pVaddr &&& (ph.pAlign - 1) = ph.pOffset &&& (ph.pAlign - 1)) ∧
  ¬ (ph.vaddr base < userStackTop ∧ userStackTop - userStackSize < ph.vend base)

instance (size base : ℕ) (ph : Phdr) : Decidable (LoadOk size base ph) := by
  delta LoadOk; infer_instance

/-- The overlap test between a new segment and one already `seen`. -/
def Collides (r s : ℕ × ℕ) : Prop := r.1 < s.2 ∧ s.1 < r.2

instance (r s : ℕ × ℕ) : Decidable (Collides r s) := by delta Collides; infer_instance

structure Scan where
  seen : List (ℕ × ℕ)
  entryOk : Bool
  interpOff : ℕ
  interpLen : ℕ

/-- One iteration of the program-header loop; `none` is the early return. -/
def scanPhdr (size base entry : ℕ) (st : Scan) (ph : Phdr) : Option Scan :=
  if ph.pType = ptInterp then
    if ph.pFilesz = 0 ∨ size ≤ ph.pOffset ∨ interpPathSize ≤ ph.pFilesz ∨
        size < (ph.pOffset + ph.pFilesz) % 2 ^ 64 then none
    else some { st with interpOff := ph.pOffset, interpLen := ph.pFilesz }
  else if ph.pType = ptDynamic then some st
  else if ph.pType ≠ ptLoad then some st
  else if ph.pMemsz = 0 then some st
  else if elfMaxLoads ≤ st.seen.length then none
  else if ¬ LoadOk size base ph then none
  else if ∃ s ∈ st.seen, Collides (ph.vaddr base, ph.vend base) s then none
  else some
    { st with
      seen := st.seen ++ [(ph.vaddr base, ph.vend base)]
      entryOk := st.entryOk ||
        (ph.exec && ph.pVaddr ≤ entry && entry < (ph.pVaddr + ph.pMemsz) % 2 ^ 64) }

def scanPhdrs (size base entry : ℕ) (st : Scan) : List Phdr → Option Scan
  | [] => some st
  | ph :: phs =>
    match scanPhdr size base entry st ph with
    | none => none
    | some st' => scanPhdrs size base entry st' phs

/-- The copy of the interpreter path; a zero length means that none was asked for. -/
def Scan.interp (img : Image) (st : Scan) : Option (List UInt8) :=
  if st.interpLen = 0 then none else some ((img.bytes.drop st.interpOff).take st.interpLen)

def elfValidate (img : Image) : Except ElfStatus ElfLoader :=
  let eh := img.ehdr
  let base := loadBase eh
  if ¬ HeaderOk img then .error .errNoexec
  else match scanPhdrs img.size base eh.eEntry ⟨[], false, 0, 0⟩ img.phdrs with
    | none => .error .errNoexec
    | some st =>
      if st.seen.length = 0 then .error .errNoexec
      else if !st.entryOk then .error .errNoexec
      else .ok
        { image := img
          entry := eh.eEntry
          base := base
          interp := st.interp img
          phdr := (eh.ePhoff + base) % 2 ^ 64 }

end VoidOS.Elf
