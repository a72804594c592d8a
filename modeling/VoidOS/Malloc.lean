import VoidOS.ByteMem
import VoidOS.LinkedList
import VoidOS.Transition

namespace VoidOS.Malloc

open ByteMem

/-- `memcpy`; the argument counts the bytes the loop has copied. -/
def memcpy (m : Mem) (dst src : ℕ) : ℕ → Mem
  | 0 => m
  | n + 1 => Function.update (memcpy m dst src n) (dst + n) (memcpy m dst src n (src + n))

def memset (m : Mem) (s : ℕ) (c : UInt8) : ℕ → Mem
  | 0 => m
  | n + 1 => Function.update (memset m s c n) (s + n) c

def bAlloc : ℕ := 1
def bPrev : ℕ := 2
def bMmap : ℕ := 4

def headerSz : ℕ := 16
def minBlock : ℕ := 48
def pageSz : ℕ := 4096
def mallocMmapThreshold : ℕ := 128 * 1024

/-- `USER_STACK_TOP - USER_STACK_SIZE`, the upper end of the mmap area. -/
def userMmapTop : ℕ := 0x700000000000 - 16 * 4096
def userCodeBase : ℕ := 0x400000

/-- The kernel records at most this many user pages of one process. -/
def processMaxUmap : ℕ := 256

def clear (f b : ℕ) : ℕ := f &&& (2 ^ 64 - 1 - b)

/-- One process: its bytes, which of its pages are mapped (by page number), the break as the
kernel has it, and the statics of `sys_sbrk` and of the allocator. -/
structure Heap where
  mem : Mem
  present : ℕ → Bool
  heapStart : ℕ
  brkCurrent : ℕ
  brkCache : ℕ
  aStart : ℕ
  aEnd : ℕ
  freeHead : ℕ

namespace Heap

variable (h : Heap)

def setMem (m : Mem) : Heap := { h with mem := m }

def size (b : ℕ) : ℕ := word h.mem b
def flags (b : ℕ) : ℕ := word h.mem (b + 8)
def prev (n : ℕ) : ℕ := word h.mem n
def next (n : ℕ) : ℕ := word h.mem (n + 8)

def setSize (b v : ℕ) : Heap := h.setMem (setWord h.mem b v)
def setFlags (b v : ℕ) : Heap := h.setMem (setWord h.mem (b + 8) v)
def setPrev (n v : ℕ) : Heap := h.setMem (setWord h.mem n v)
def setNext (n v : ℕ) : Heap := h.setMem (setWord h.mem (n + 8) v)

def foot (b : ℕ) : ℕ := sub64 (add64 b (h.size b)) headerSz

/-- Whether the kernel has mapped the page of an address. -/
def mapped (a : ℕ) : Bool := h.present (a / pageSz)

end Heap

/-- What the kernel answers during one call: how many pages it finds frames and records for
when the break grows, and the return value of `mmap`. -/
structure Answer where
  pages : ℕ
  map : ℤ

def Heap.mapPage (h : Heap) (va : ℕ) : Heap :=
  { h with
    mem := zeros h.mem (va / pageSz * pageSz) pageSz
    present := Function.update h.present (va / pageSz) true }

def Heap.mapPages (h : Heap) (va : ℕ) : ℕ → Heap
  | 0 => h
  | n + 1 => Heap.mapPages (h.mapPage va) (va + pageSz) n

/-- `um_release_from`: every page at or above `start` and below the stack goes. -/
def Heap.umReleaseFrom (h : Heap) (start : ℕ) : Heap :=
  { h with present := fun p => if start ≤ p * pageSz ∧ p * pageSz < userMmapTop then false
                               else h.present p }

def roundUp (x : ℕ) : ℕ := (x + (pageSz - 1)) / pageSz * pageSz

/-- `um_brk_set`; a growth that fails leaves the pages it has mapped. -/
def umBrkSet (h : Heap) (ans : Answer) (newBrk : ℕ) : Heap × Bool :=
  if newBrk < h.heapStart then (h, false)
  else if h.brkCurrent < newBrk then
    let need := (newBrk - h.brkCurrent + (pageSz - 1)) / pageSz
    if need ≤ ans.pages then ({ h.mapPages h.brkCurrent need with brkCurrent := newBrk }, true)
    else (h.mapPages h.brkCurrent ans.pages, false)
  else if newBrk < h.brkCurrent then
    ({ h.umReleaseFrom (roundUp newBrk) with brkCurrent := newBrk }, true)
  else (h, true)

/-- `sys_brk`; the `Option` is the new break or an error. -/
def sysBrk (h : Heap) (ans : Answer) (addr : ℕ) : Heap × Option ℕ :=
  if addr = 0 then (h, some h.brkCurrent)
  else if addr < h.heapStart then (h, some h.brkCurrent)
  else
    match umBrkSet h ans addr with
    | (h, true) => (h, some h.brkCurrent)
    | (h, false) => (h, none)

/-- `sys_sbrk` for a positive increment: the old break, or `none` for -1. -/
def sysSbrk (h : Heap) (ans : Answer) (inc : ℕ) : Heap × Option ℕ :=
  if h.brkCache = 0 ∧ (h.brkCurrent = 0 ∨ 2 ^ 63 ≤ h.brkCurrent) then (h, none)
  else
    let h := if h.brkCache = 0 then { h with brkCache := h.brkCurrent } else h
    let old := h.brkCache
    let nb := add64 old inc
    if 2 ^ 63 ≤ nb then (h, none)
    else
      match sysBrk h ans nb with
      | (h, r) => if r = some nb then ({ h with brkCache := nb }, some old) else (h, none)

/-- `sys_mmap`, as `mmap_alloc` calls it: the pointer it returns, errors included. -/
def sysMmap (h : Heap) (ans : Answer) (length : ℕ) : Heap × ℕ :=
  if ans.map < 0 then (h, (2 ^ 64 + ans.map).toNat)
  else (h.mapPages ans.map.toNat (length / pageSz), ans.map.toNat)

def sysMunmap (h : Heap) (addr length : ℕ) : Heap :=
  if length = 0 ∨ addr % pageSz ≠ 0 then h
  else
    let n := add64 length (pageSz - 1) / pageSz * pageSz
    if 2 ^ 64 ≤ addr + n ∨ userMmapTop < addr + n then h
    else h.umReleaseFrom addr

def flUnlink (h : Heap) (n : ℕ) : Heap :=
  let h := if h.prev n ≠ 0 then h.setNext (h.prev n) (h.next n) else { h with freeHead := h.next n }
  let h := if h.next n ≠ 0 then h.setPrev (h.next n) (h.prev n) else h
  (h.setNext n 0).setPrev n 0

def flLink (h : Heap) (n : ℕ) : Heap :=
  let h := (h.setPrev n 0).setNext n h.freeHead
  let h := if h.freeHead ≠ 0 then h.setPrev h.freeHead n else h
  { h with freeHead := n }

def writeFoot (h : Heap) (blk : ℕ) : Heap :=
  let f := h.foot blk
  let h := h.setSize f (h.size blk)
  h.setFlags f (h.flags blk)

def flInsert (h : Heap) (blk : ℕ) : Heap :=
  let h := writeFoot (flLink h (blk + headerSz)) blk
  let nx := add64 blk (h.size blk)
  if nx < h.aEnd then h.setFlags nx (h.flags nx ||| bPrev) else h

def absorbNext (h : Heap) (blk : ℕ) : Heap :=
  let nx := add64 blk (h.size blk)
  if nx < h.aEnd ∧ ¬ (h.flags nx).testBit 0 then
    flUnlink (h.setSize blk (add64 (h.size blk) (h.size nx))) (nx + headerSz)
  else h

def insertFree (h : Heap) (blk : ℕ) : Heap := flInsert (absorbNext h blk) blk

/-- Bounds the walks: free blocks are 16-byte aligned. -/
def Heap.fuel (h : Heap) : ℕ := (h.aEnd - h.aStart) / 16 + 1

/-- The first block on the free list that satisfies `f`, 0 if there is none. -/
def Heap.findFree (h : Heap) (f : ℕ → Bool) : Option ℕ :=
  (LinkedList.find h.next (fun n => f (n - headerSz)) h.fuel h.freeHead).map (· - headerSz)

def topFreeBlock (h : Heap) : Option ℕ :=
  h.findFree fun blk => add64 blk (h.size blk) = h.aEnd

def arenaInit (h : Heap) : Heap :=
  if h.aStart = 0 then { h with aStart := h.brkCurrent, aEnd := h.brkCurrent } else h

def chunkOf (need : ℕ) : ℕ := max pageSz (add64 need (pageSz - 1) / pageSz * pageSz)

/-- A free block of `chunk` bytes at `b`, which ends the arena. -/
def freshBlock (h : Heap) (b chunk : ℕ) : Heap :=
  let h := (h.setSize b chunk).setFlags b 0
  let h := { h with aEnd := add64 b chunk }
  let f := h.foot b
  flInsert ((h.setSize f chunk).setFlags f 0) b

/-- Extends the free block `tb` at the top of the arena in place. -/
def extendTop (h : Heap) (tb chunk : ℕ) : Heap :=
  let h := writeFoot (h.setSize tb (add64 (h.size tb) chunk)) tb
  { h with aEnd := add64 h.aEnd chunk }

/-- The part of `arena_grow` after the break has moved; `none` when the walk does not end. -/
def placeChunk (h : Heap) (old chunk : ℕ) : Option Heap :=
  if old ≠ h.aEnd then some (freshBlock h old chunk)
  else (topFreeBlock h).map fun tb =>
    if tb ≠ 0 then extendTop h tb chunk else freshBlock h h.aEnd chunk

/-- `arena_grow`; the `Bool` tells whether the arena grew. -/
def arenaGrow (h : Heap) (ans : Answer) (need : ℕ) : Option (Heap × Bool) :=
  match sysSbrk h ans (chunkOf need) with
  | (h, none) => some (h, false)
  | (h, some old) => (placeChunk h old (chunkOf need)).map fun h => (h, true)

def align16 (n : ℕ) : ℕ := add64 n 15 / 16 * 16

def sizeToNeed (size : ℕ) : ℕ :=
  if 2 ^ 64 - 1 - (headerSz + 15) < size then 0
  else max minBlock (add64 headerSz (align16 size))

/-- The body of `cut_first_fit` for the block it stops at. -/
def cutBlock (h : Heap) (blk need : ℕ) : Heap :=
  if minBlock ≤ sub64 (h.size blk) need then
    let old := h.size blk
    let h := flUnlink h (blk + headerSz)
    let h := h.setSize blk need
    let h := h.setFlags blk (h.flags blk &&& (bPrev ||| bMmap) ||| bAlloc)
    let r := add64 blk (need / 16 * 16)
    let h := (h.setSize r (sub64 old need)).setFlags r 0
    insertFree h r
  else
    let h := h.setFlags blk (h.flags blk ||| bAlloc)
    let nx := add64 blk (h.size blk)
    let h := if nx < h.aEnd then h.setFlags nx (clear (h.flags nx) bPrev) else h
    flUnlink h (blk + headerSz)

/-- `cut_first_fit`; pointer 0 when no block fits. -/
def cutFirstFit (h : Heap) (need : ℕ) : Option (Heap × ℕ) :=
  (h.findFree fun blk => need ≤ h.size blk).map fun blk =>
    if blk = 0 then (h, 0) else (cutBlock h blk need, blk + headerSz)

inductive Stop
  | doubleFree
  | fault
  | hang
deriving DecidableEq

/-- A list walk that does not end hangs the process. -/
def orHang {α : Type} : Option α → Except Stop α
  | some x => .ok x
  | none => .error .hang

def roundedOf (size : ℕ) : ℕ := add64 (sizeToNeed size) (pageSz - 1) / pageSz * pageSz

def mmapAlloc (h : Heap) (ans : Answer) (size : ℕ) : Except Stop (Heap × ℕ) :=
  if sizeToNeed size = 0 then .ok (h, 0)
  else
    match sysMmap h ans (roundedOf size) with
    | (h, base) =>
      if base = 2 ^ 64 - 1 then .ok (h, 0)
      -- an error other than -1 is not `MAP_FAILED`: the header goes to that address
      else if ¬ h.mapped base then .error .fault
      else .ok ((h.setSize base (roundedOf size)).setFlags base (bAlloc ||| bMmap), base + headerSz)

def heapAlloc (h : Heap) (ans : Answer) (size : ℕ) : Except Stop (Heap × ℕ) :=
  if sizeToNeed size = 0 then .ok (h, 0)
  else do
    let (h, p) ← orHang (cutFirstFit (arenaInit h) (sizeToNeed size))
    if p ≠ 0 then return (h, p)
    let (h, grown) ← orHang (arenaGrow h ans (sizeToNeed size))
    if grown then orHang (cutFirstFit h (sizeToNeed size)) else return (h, 0)

/-- Absorbs `blk` into a free block before it; the block that results. -/
def absorbPrev (h : Heap) (blk : ℕ) : Heap × ℕ :=
  if (h.flags blk).testBit 1 then
    let pb := sub64 blk (word h.mem (sub64 blk headerSz))
    (flUnlink (h.setSize pb (add64 (h.size pb) (h.size blk))) (pb + headerSz), pb)
  else (h, blk)

/-- `heap_free`. A store to a page that is not mapped is not seen as a fault here: as long as the
blocks tile the arena there is none. -/
def heapFree (h : Heap) (v : ℕ) : Except Stop Heap :=
  let blk := sub64 v headerSz
  if ¬ (h.flags blk).testBit 0 then .error .doubleFree
  else
    match absorbPrev (absorbNext h blk) blk with
    | (h, blk) => .ok (flInsert (h.setFlags blk (clear (h.flags blk) bAlloc)) blk)

def malloc (h : Heap) (ans : Answer) (size : ℕ) : Except Stop (Heap × ℕ) :=
  if mallocMmapThreshold ≤ size then mmapAlloc h ans size else heapAlloc h ans size

def free (h : Heap) (ptr : ℕ) : Except Stop Heap :=
  if ptr = 0 then .ok h
  else
    let blk := sub64 ptr headerSz
    if ¬ h.mapped blk then .error .fault
    else if (h.flags blk).testBit 2 then .ok (sysMunmap h blk (h.size blk))
    else heapFree h ptr

def calloc (h : Heap) (ans : Answer) (nmemb size : ℕ) : Except Stop (Heap × ℕ) :=
  if 2 ^ 64 ≤ nmemb * size then .ok (h, 0)
  else do
    let (h, p) ← malloc h ans (nmemb * size)
    return (if p ≠ 0 then h.setMem (memset h.mem p 0 (nmemb * size)) else h, p)

/-- Splits the tail off an allocated block that shrinks to `newNeed` bytes. -/
def shrinkBlock (h : Heap) (blk newNeed : ℕ) : Heap :=
  let tail := sub64 (h.size blk) newNeed
  if minBlock ≤ tail ∧ ¬ (h.flags blk).testBit 2 then
    let r := add64 blk (newNeed / 16 * 16)
    let h := insertFree ((h.setSize r tail).setFlags r 0) r
    writeFoot (h.setSize blk newNeed) blk
  else h

def realloc (h : Heap) (ans : Answer) (ptr size : ℕ) : Except Stop (Heap × ℕ) :=
  if ptr = 0 then malloc h ans size
  else if size = 0 then do
    let h ← free h ptr
    return (h, 0)
  else
    let blk := sub64 ptr headerSz
    if ¬ h.mapped blk then .error .fault
    else
      let oldSize := sub64 (h.size blk) headerSz
      let newNeed := sizeToNeed size
      if newNeed = 0 then .ok (h, 0)
      else if newNeed ≤ h.size blk then .ok (shrinkBlock h blk newNeed, ptr)
      else do
        let (h, nv) ← malloc h ans size
        if nv = 0 then return (h, 0)
        let h ← free (h.setMem (memcpy h.mem nv ptr oldSize)) ptr
        return (h, nv)

/-- What the self-check returns for a node of the list, 0 to go on. -/
def checkNode (h : Heap) (f : ℕ) : ℤ :=
  let blk := sub64 f headerSz
  let nx := add64 blk (h.size blk)
  let pb := sub64 blk (word h.mem (sub64 blk headerSz))
  if (h.flags blk).testBit 0 then -2
  else if h.size blk < minBlock then -3
  else if h.size blk % 16 ≠ 0 then -4
  else if blk < h.aStart ∨ h.aEnd < nx then -5
  else if h.size (h.foot blk) ≠ h.size blk ∨ h.flags (h.foot blk) ≠ h.flags blk then -6
  else if (h.flags blk).testBit 1 ∧ h.aStart ≤ pb ∧ ¬ (h.flags pb).testBit 0 then -7
  else if nx < h.aEnd ∧ ¬ (h.flags nx).testBit 0 then -8
  else 0

/-- The walk of the self-check; the count is what is left of the cycle guard. -/
def selfcheckFrom (h : Heap) : ℕ → ℕ → ℤ
  | 0, f => if f = 0 then 0 else -1
  | k + 1, f =>
    if f = 0 then 0
    else if checkNode h f ≠ 0 then checkNode h f
    else selfcheckFrom h k (h.next f)

def mallocSelfcheck (h : Heap) : ℤ := selfcheckFrom h 1000000 h.freeHead

end VoidOS.Malloc
