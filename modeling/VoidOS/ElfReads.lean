import VoidOS.ElfLayout
import VoidOS.ElfLoad

namespace VoidOS.Elf

open ByteMem PageTree Mm

/-! ## Reads that stop at the end of the image

The functions of the parser once more, over reads that fail outside the image. -/

namespace Image

/-- The byte at an offset; `none` is a read outside the image. -/
def byte? (img : Image) (i : ℕ) : Option UInt8 := img.bytes[i]?

/-- The little-endian field of `n` bytes at offset `off`. -/
def le? (img : Image) (off : ℕ) : ℕ → Option ℕ
  | 0 => some 0
  | n + 1 => do
    let b ← img.byte? off
    let rest ← img.le? (off + 1) n
    some (b.toNat + 256 * rest)

def ehdr? (img : Image) : Option Ehdr := do
  let eIdent ← (List.range 16).mapM (img.le? · 1)
  let eType ← img.le? 16 2
  let eMachine ← img.le? 18 2
  let eVersion ← img.le? 20 4
  let eEntry ← img.le? 24 8
  let ePhoff ← img.le? 32 8
  let eEhsize ← img.le? 52 2
  let ePhentsize ← img.le? 54 2
  let ePhnum ← img.le? 56 2
  some { eIdent, eType, eMachine, eVersion, eEntry, ePhoff, eEhsize, ePhentsize, ePhnum }

def phdrAt? (img : Image) (eh : Ehdr) (i : ℕ) : Option Phdr := do
  let o := eh.ePhoff + i * phdrSize
  let pType ← img.le? o 4
  let pFlags ← img.le? (o + 4) 4
  let pOffset ← img.le? (o + 8) 8
  let pVaddr ← img.le? (o + 16) 8
  let pFilesz ← img.le? (o + 32) 8
  let pMemsz ← img.le? (o + 40) 8
  let pAlign ← img.le? (o + 48) 8
  some { pType, pFlags, pOffset, pVaddr, pFilesz, pMemsz, pAlign }

theorem byte?_eq {img : Image} {i : ℕ} (h : i < img.size) :
    img.byte? i = some (img.bytes.getD i 0) := by
  rw [byte?, List.getD_eq_getElem _ _ h, List.getElem?_eq_getElem h]

theorem le?_eq {img : Image} {off n : ℕ} (h : off + n ≤ img.size) :
    img.le? off n = some (img.leAt off n) := by
  induction n generalizing off with
  | zero => rfl
  | succ n ih =>
    have hb : img.byte? off = some (img.bytes.getD off 0) := byte?_eq (by omega)
    have hr : img.le? (off + 1) n = some (img.leAt (off + 1) n) := ih (by omega)
    simp [le?, hb, hr, leAt, byteAt]

theorem ehdr?_eq {img : Image} (h : ehdrSize ≤ img.size) : img.ehdr? = some img.ehdr := by
  have hle : ∀ off n, off + n ≤ 64 → img.le? off n = some (img.leAt off n) := by
    intro off n hn
    exact le?_eq (hn.trans h)
  have hid : (List.range 16).mapM (img.le? · 1) = some ((List.range 16).map img.byteAt) := by
    have hb : ∀ i < 16, img.le? i 1 = some (img.byteAt i) := by
      intro i hi
      simp [hle i 1 (by omega), leAt]
    simp [List.range, List.range.loop, hb]
  simp [ehdr?, hid, hle, ehdr]

theorem phdrAt?_eq {img : Image} {i : ℕ}
    (h : img.ehdr.ePhoff + (i + 1) * phdrSize ≤ img.size) :
    img.phdrAt? img.ehdr i = some (img.phdrAt i) := by
  have hle : ∀ off n, off + n ≤ 56 →
      img.le? (img.ehdr.ePhoff + i * phdrSize + off) n =
        some (img.leAt (img.ehdr.ePhoff + i * phdrSize + off) n) := by
    intro off n hn
    apply le?_eq
    have : (i + 1) * phdrSize = i * phdrSize + 56 := by rw [Nat.succ_mul]; rfl
    omega
  have h0 := hle 0 4 (by omega)
  rw [Nat.add_zero] at h0
  simp [phdrAt?, phdrAt, h0, hle]

end Image

section

variable (img : Image)

end

section

variable {img : Image}

theorem HeaderOk.phdrAt? (h : HeaderOk img) {i : ℕ} (hi : i ∈ List.range img.ehdr.ePhnum) :
    img.phdrAt? img.ehdr i = some (img.phdrAt i) := by
  obtain ⟨-, -, -, -, -, -, -, -, -, -, -, -, hoff, htable⟩ := h
  apply Image.phdrAt?_eq
  have hlt : i + 1 ≤ img.ehdr.ePhnum := List.mem_range.mp hi
  have hle : (i + 1) * phdrSize ≤ img.ehdr.ePhnum * phdrSize := Nat.mul_le_mul_right _ hlt
  omega

theorem HeaderOk.ehdr? (h : HeaderOk img) : img.ehdr? = some img.ehdr := Image.ehdr?_eq h.1

variable {is : List ℕ} (hin : ∀ i ∈ is, img.phdrAt? img.ehdr i = some (img.phdrAt i))

include hin

end

section

variable {img : Image}

end

end VoidOS.Elf
