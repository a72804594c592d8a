import VoidOS.MallocInv

namespace VoidOS.Malloc

open ByteMem LinkedList Transition

/-- A live pointer, the size the caller asked for, and whether it came from `mmap`. -/
structure Allocation where
  ptr : ℕ
  req : ℕ
  mapped : Bool
deriving DecidableEq

/-- A process and, as ghost data, its live pointers. -/
structure State where
  heap : Heap
  live : List Allocation

/-- The caller gets `p` for a request of `size` bytes; 0 is a refusal. -/
def grant (h : Heap) (live : List Allocation) (p size : ℕ) : State :=
  if p = 0 then ⟨h, live⟩ else ⟨h, ⟨p, size, mallocMmapThreshold ≤ size⟩ :: live⟩

def without (live : List Allocation) (ptr : ℕ) : List Allocation :=
  live.filter fun x => x.ptr ≠ ptr

def resized (live : List Allocation) (ptr size : ℕ) : List Allocation :=
  live.map fun x => if x.ptr = ptr then { x with req := size } else x

inductive Op
  | malloc (ans : Answer) (size : ℕ)
  | calloc (ans : Answer) (nmemb size : ℕ)
  | realloc (ans : Answer) (ptr size : ℕ)
  | free (ptr : ℕ)
  | store (a : ℕ) (v : UInt8)

/-- One call, or one store of the program; `none` when it does not return. -/
def step (s : State) : Op → Option State
  | .malloc ans size =>
    (malloc s.heap ans size).toOption.map fun r => grant r.1 s.live r.2 size
  | .calloc ans nmemb size =>
    (calloc s.heap ans nmemb size).toOption.map fun r => grant r.1 s.live r.2 (nmemb * size)
  | .realloc ans ptr size =>
    (realloc s.heap ans ptr size).toOption.map fun r =>
      if ptr = 0 then grant r.1 s.live r.2 size
      else if size = 0 then ⟨r.1, without s.live ptr⟩
      else if r.2 = 0 then ⟨r.1, s.live⟩
      else if r.2 = ptr then ⟨r.1, resized s.live ptr size⟩
      else grant r.1 (without s.live ptr) r.2 size
  | .free ptr => (free s.heap ptr).toOption.map fun h => ⟨h, without s.live ptr⟩
  | .store a v =>
    if s.heap.mapped a then some ⟨s.heap.setMem (Function.update s.heap.mem a v), s.live⟩ else none

/-- What the kernel can answer to an `mmap` of `length` bytes: an error, or clear pages between
the break and the stack. -/
def MapAnswerOk (h : Heap) (ans : Answer) (length : ℕ) : Prop :=
  -2 ^ 63 ≤ ans.map ∧ (0 ≤ ans.map →
    pageSz ∣ ans.map.toNat ∧ 0 < length ∧ h.brkCurrent ≤ ans.map.toNat ∧
      userCodeBase ≤ ans.map.toNat ∧ ans.map.toNat + length ≤ userMmapTop ∧
      ∀ i < length / pageSz, h.present (ans.map.toNat / pageSz + i) = false)

/-- A call for `size` bytes that the kernel answers within its limits. -/
def CallOk (h : Heap) (ans : Answer) (size : ℕ) : Prop :=
  AnswerOk h ans ∧ MapAnswerOk h ans (roundedOf size)

def Live (s : State) (ptr : ℕ) : Prop := ∃ x ∈ s.live, x.ptr = ptr

/-- Calls are made on live pointers, and stores stay inside the requested sizes. -/
def Legal (s : State) : Op → Prop
  | .malloc ans size => size < 2 ^ 64 ∧ CallOk s.heap ans size
  | .calloc ans nmemb size => nmemb < 2 ^ 64 ∧ size < 2 ^ 64 ∧ CallOk s.heap ans (nmemb * size)
  | .realloc ans ptr size =>
    (ptr = 0 ∨ Live s ptr) ∧ size < 2 ^ 64 ∧ CallOk s.heap ans size
  | .free ptr => ptr = 0 ∨ Live s ptr
  | .store a _ => ∃ x ∈ s.live, x.ptr ≤ a ∧ a < x.ptr + x.req

/-- The break, grown for a request of `size` bytes, stays below every live mapping. -/
def Room (s : State) (size : ℕ) : Prop :=
  size < mallocMmapThreshold → ∀ x ∈ s.live, x.mapped →
    s.heap.brkCurrent + chunkOf (sizeToNeed size) + headerSz ≤ x.ptr

/-- No live mapping lies above `ptr`, if `ptr` is one. -/
def TopMapping (live : List Allocation) (ptr : ℕ) : Prop :=
  ∀ x ∈ live, x.ptr = ptr → x.mapped → ∀ y ∈ live, y.mapped → y.ptr ≤ ptr

/-- The condition under which the allocator keeps its invariant on this kernel, whose `munmap`
releases everything above its argument and whose `brk` grows over mapped pages. -/
def Tame (s : State) : Op → Prop
  | .malloc _ size => Room s size
  | .calloc _ nmemb size => Room s (nmemb * size)
  | .realloc ans ptr size =>
    Room s size ∧
      (size = 0 ∨ s.heap.size (ptr - headerSz) < sizeToNeed size →
        TopMapping s.live ptr ∧ ∀ x ∈ s.live, x.ptr = ptr → x.mapped → ans.map < ptr)
  | .free ptr => TopMapping s.live ptr
  | .store _ _ => True

instance (h : Heap) (ans : Answer) (size : ℕ) : Decidable (CallOk h ans size) := by
  unfold CallOk AnswerOk MapAnswerOk
  infer_instance

instance (s : State) (ptr : ℕ) : Decidable (Live s ptr) := by
  unfold Live
  infer_instance

instance (s : State) (op : Op) : Decidable (Legal s op) := by
  cases op <;> unfold Legal <;> infer_instance

instance (s : State) (size : ℕ) : Decidable (Room s size) := by
  unfold Room
  infer_instance

instance (live : List Allocation) (ptr : ℕ) : Decidable (TopMapping live ptr) := by
  unfold TopMapping
  infer_instance

instance (s : State) (op : Op) : Decidable (Tame s op) := by
  cases op <;> unfold Tame <;> infer_instance

/-- A process before its first allocation: the statics are zero, the break is page-aligned, and
only user pages are mapped. -/
structure Init (s : State) : Prop where
  live : s.live = []
  statics : s.heap.aStart = 0 ∧ s.heap.aEnd = 0 ∧ s.heap.freeHead = 0 ∧ s.heap.brkCache = 0
  page : pageSz ∣ s.heap.brkCurrent
  pos : 0 < s.heap.brkCurrent
  start : s.heap.heapStart ≤ s.heap.brkCurrent
  top : s.heap.brkCurrent ≤ 2 ^ 47
  user : ∀ p, s.heap.present p = true → p * pageSz < 2 ^ 47

end VoidOS.Malloc
