import Mathlib

namespace VoidOS.Elf

/-- A kernel-resident buffer. Its size is a `uint64_t`. -/
structure Image where
  bytes : List UInt8
  size_lt : bytes.length < 2 ^ 64

namespace Image

def size (img : Image) : ℕ := img.bytes.length

def byteAt (img : Image) (i : ℕ) : ℕ := (img.bytes.getD i 0).toNat

/-- The little-endian unsigned field of `n` bytes at offset `off`. -/
def leAt (img : Image) (off : ℕ) : ℕ → ℕ
  | 0 => 0
  | n + 1 => img.byteAt off + 256 * img.leAt (off + 1) n

end Image

def ehdrSize : ℕ := 64
def phdrSize : ℕ := 56

/-- `Elf64_Ehdr`, less the section-header fields, which the loader ignores. -/
structure Ehdr where
  eIdent : List ℕ
  eType : ℕ
  eMachine : ℕ
  eVersion : ℕ
  eEntry : ℕ
  ePhoff : ℕ
  eEhsize : ℕ
  ePhentsize : ℕ
  ePhnum : ℕ
deriving DecidableEq, Repr

/-- `Elf64_Phdr`, less `p_paddr`, which a user image ignores. -/
structure Phdr where
  pType : ℕ
  pFlags : ℕ
  pOffset : ℕ
  pVaddr : ℕ
  pFilesz : ℕ
  pMemsz : ℕ
  pAlign : ℕ
deriving DecidableEq, Repr

def Image.ehdr (img : Image) : Ehdr where
  eIdent := (List.range 16).map img.byteAt
  eType := img.leAt 16 2
  eMachine := img.leAt 18 2
  eVersion := img.leAt 20 4
  eEntry := img.leAt 24 8
  ePhoff := img.leAt 32 8
  eEhsize := img.leAt 52 2
  ePhentsize := img.leAt 54 2
  ePhnum := img.leAt 56 2

/-- Program header `i`; the table starts at `e_phoff` with a stride of 56 bytes. -/
def Image.phdrAt (img : Image) (i : ℕ) : Phdr :=
  let o := img.ehdr.ePhoff + i * phdrSize
  { pType := img.leAt o 4
    pFlags := img.leAt (o + 4) 4
    pOffset := img.leAt (o + 8) 8
    pVaddr := img.leAt (o + 16) 8
    pFilesz := img.leAt (o + 32) 8
    pMemsz := img.leAt (o + 40) 8
    pAlign := img.leAt (o + 48) 8 }

def Image.phdrs (img : Image) : List Phdr := (List.range img.ehdr.ePhnum).map img.phdrAt

def ptLoad : ℕ := 1
def ptDynamic : ℕ := 2
def ptInterp : ℕ := 3

def Phdr.exec (ph : Phdr) : Bool := ph.pFlags.testBit 0
def Phdr.write (ph : Phdr) : Bool := ph.pFlags.testBit 1
def Phdr.read (ph : Phdr) : Bool := ph.pFlags.testBit 2

/-- The loader maps exactly the `PT_LOAD` headers with a nonzero memory size. -/
def Phdr.isLoad (ph : Phdr) : Bool := ph.pType = ptLoad && ph.pMemsz ≠ 0

def Image.loads (img : Image) : List Phdr := img.phdrs.filter Phdr.isLoad

end VoidOS.Elf
