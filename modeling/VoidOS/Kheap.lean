import VoidOS.Transition

namespace VoidOS.Kheap

def kheapStart : ℕ := 0xFFFFFFFF90000000
def kheapMax : ℕ := 0xFFFFFFFFA0000000
def pageSize : ℕ := 4096

def headerSize : ℕ := 32

def alignUp (x a : ℕ) : ℕ := (x + (a - 1)) % 2 ^ 64 / a * a

def sub64 (x y : ℕ) : ℕ := (x + 2 ^ 64 - y) % 2 ^ 64

/-- The statics of the allocator and the words of kernel memory, by byte address.
A header holds `size` at +0, `free` at +8 and `next` at +16; 0 is `NULL`.
`written` is ghost: the headers the allocator has stored to. -/
structure Heap where
  mem : ℕ → ℕ
  head : ℕ
  heapTop : ℕ
  heapMapped : ℕ
  bytesUsed : ℕ
  written : List ℕ

/-- A `block_t **`: the static `head` or the `next` field of a block. -/
inductive Link
  | head
  | next (b : ℕ)
deriving DecidableEq

namespace Heap

def size (h : Heap) (b : ℕ) : ℕ := h.mem b
def free (h : Heap) (b : ℕ) : Bool := h.mem (b + 8) ≠ 0
def next (h : Heap) (b : ℕ) : ℕ := h.mem (b + 16)

def setSize (h : Heap) (b v : ℕ) : Heap :=
  { h with mem := Function.update h.mem b v, written := b :: h.written }

def setFree (h : Heap) (b : ℕ) (v : Bool) : Heap :=
  { h with mem := Function.update h.mem (b + 8) v.toNat, written := b :: h.written }

def setNext (h : Heap) (b v : ℕ) : Heap :=
  { h with mem := Function.update h.mem (b + 16) v, written := b :: h.written }

def link (h : Heap) : Link → ℕ
  | .head => h.head
  | .next b => h.next b

def setLink (h : Heap) (l : Link) (v : ℕ) : Heap :=
  match l with
  | .head => { h with head := v }
  | .next b => h.setNext b v

/-- Bounds the free list: headers are 16-byte aligned and the heap is at most 256 MiB. -/
def fuel (h : Heap) : ℕ := (h.heapTop - kheapStart) / 16 + 1

end Heap

/-- The behaviour of the frame allocator and of the mapper during one call: which
pages of the request can be mapped, and what the words of the new frames hold. -/
structure Frames where
  maps : ℕ → Bool
  word : ℕ → ℕ

/-- One pass of the growth loop maps the page at `heap_top`. -/
def mapPage (h : Heap) (f : Frames) : Heap :=
  { h with
    mem := fun a => if h.heapTop ≤ a ∧ a < h.heapTop + pageSize then f.word a else h.mem a
    heapTop := h.heapTop + pageSize
    heapMapped := h.heapMapped + pageSize }

def growLoop (f : Frames) : ℕ → ℕ → Heap → Heap × Bool
  | _, 0, h => (h, true)
  | i, n + 1, h => if f.maps i then growLoop f (i + 1) n (mapPage h f) else (h, false)

def heapGrow (h : Heap) (f : Frames) (need : ℕ) : Heap × Bool :=
  let target := alignUp ((h.heapTop + need) % 2 ^ 64) pageSize
  if kheapMax < target then (h, false)
  else growLoop f 0 ((target - h.heapTop + (pageSize - 1)) / pageSize) h

def kheapInit (mem : ℕ → ℕ) (f : Frames) : Option Heap :=
  match heapGrow ⟨mem, 0, kheapStart, 0, 0, []⟩ f pageSize with
  | (_, false) => none
  | (h, true) =>
    let h := { h with head := kheapStart }
    let h := h.setSize kheapStart (pageSize - headerSize)
    let h := h.setFree kheapStart true
    some (h.setNext kheapStart 0)

/-- The first-fit scan: the link to the winner, or nothing; `none` when it does not end. -/
def firstFit (h : Heap) (size : ℕ) : ℕ → Link → Option (Option Link)
  | 0, _ => none
  | n + 1, scan =>
    let cur := h.link scan
    if cur = 0 then some none
    else if h.free cur ∧ size ≤ h.size cur then some (some scan)
    else firstFit h size n (.next cur)

/-- Splits or pops the winner `cur` at `scan` and hands it out. -/
def takeFit (h : Heap) (scan : Link) (size : ℕ) : Heap × ℕ :=
  let cur := h.link scan
  let remaining := sub64 (sub64 (h.size cur) size) headerSize
  let h :=
    if 16 ≤ remaining then
      let rem := (cur + headerSize + size) % 2 ^ 64
      let h := h.setSize rem remaining
      let h := h.setFree rem true
      let h := h.setNext rem (h.next cur)
      let h := h.setSize cur size
      let h := h.setNext cur 0
      h.setLink scan rem
    else
      let h := h.setLink scan (h.next cur)
      h.setNext cur 0
  let h := h.setFree cur false
  ({ h with bytesUsed := (h.bytesUsed + h.size cur) % 2 ^ 64 }, cur + headerSize)

def tailLink (h : Heap) : ℕ → Link → Option Link
  | 0, _ => none
  | n + 1, slot =>
    if h.next (h.link slot) = 0 then some slot else tailLink h n (.next (h.link slot))

/-- Merges the fresh block at `old_top` into a free tail that ends there, or appends it. -/
def placeFresh (h : Heap) (slot : Link) (b bsz : ℕ) : Heap × Link × ℕ × ℕ :=
  let tail := h.link slot
  if h.free tail ∧ (tail + headerSize + h.size tail) % 2 ^ 64 = b then
    let h := h.setSize tail ((h.size tail + (headerSize + bsz)) % 2 ^ 64)
    (h, slot, tail, h.size tail)
  else (h.setNext tail b, .next tail, b, bsz)

/-- Splits the block `b` at the end of the list and hands it out. -/
def takeFresh (h : Heap) (slot : Link) (b bsz size : ℕ) : Heap × ℕ :=
  let remaining := sub64 (sub64 bsz size) headerSize
  let h :=
    if 16 ≤ remaining then
      let rem := (b + headerSize + size) % 2 ^ 64
      let h := h.setSize rem remaining
      let h := h.setFree rem true
      let h := h.setNext rem 0
      let h := h.setSize b size
      let h := h.setNext b 0
      h.setLink slot rem
    else
      let h := h.setLink slot (h.next b)
      h.setNext b 0
  let h := h.setFree b false
  ({ h with bytesUsed := (h.bytesUsed + h.size b) % 2 ^ 64 }, b + headerSize)

/-- The growth path of `kmalloc`; pointer 0 is a failed allocation. -/
def growAlloc (h : Heap) (f : Frames) (size : ℕ) : Option (Heap × ℕ) :=
  let oldTop := h.heapTop
  match heapGrow h f ((headerSize + size) % 2 ^ 64) with
  | (h, false) => some (h, 0)
  | (h, true) =>
    let bsz := sub64 (sub64 h.heapTop oldTop) headerSize
    if h.head = 0 then some (takeFresh h .head oldTop bsz size)
    else match tailLink h h.fuel .head with
      | none => none
      | some slot =>
        let (h, slot, b, bsz) := placeFresh h slot oldTop bsz
        some (takeFresh h slot b bsz size)

/-- `kmalloc`; `none` when a list walk does not end. -/
def kmalloc (h : Heap) (f : Frames) (size : ℕ) : Option (Heap × ℕ) :=
  if size = 0 then some (h, 0)
  else
    let size := alignUp size 16
    match firstFit h size h.fuel .head with
    | none => none
    | some (some scan) => some (takeFit h scan size)
    | some none => growAlloc h f size

/-- The merge loop; the count is what is left of the guard, and `none` is the panic. -/
def coalesceFrom : ℕ → Heap → ℕ → Option Heap
  | 0, h, cur => if cur ≠ 0 ∧ h.next cur ≠ 0 then none else some h
  | n + 1, h, cur =>
    if cur ≠ 0 ∧ h.next cur ≠ 0 then
      if h.free cur ∧ h.free (h.next cur) then
        let h := h.setSize cur ((h.size cur + (headerSize + h.size (h.next cur))) % 2 ^ 64)
        coalesceFrom n (h.setNext cur (h.next (h.next cur))) cur
      else coalesceFrom n h (h.next cur)
    else some h

def coalesce (h : Heap) : Option Heap := coalesceFrom 1000000 h h.head

def kfree (h : Heap) (ptr : ℕ) : Option Heap :=
  if ptr = 0 then some h
  else
    let b := sub64 ptr headerSize
    if h.free b then some h
    else
      let h := h.setFree b true
      coalesce { h with bytesUsed := sub64 h.bytesUsed (h.size b) }

end VoidOS.Kheap
