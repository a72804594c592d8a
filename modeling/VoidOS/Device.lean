import VoidOS.Transition

namespace VoidOS.Dev

open Transition

def devMaxDevices : ℕ := 32
def devNameMax : ℕ := 63
def devInstanceMagic : ℕ := 0x0871

def veNoent : ℤ := -2
def veBadf : ℤ := -9
def veNomem : ℤ := -12
def veBusy : ℤ := -16
def veExist : ℤ := -17
def veInval : ℤ := -22
def veNametoolong : ℤ := -36

/-- A function of a driver, or the stub for devices that cannot be read. -/
inductive Fn
  | devNoread
  | driver (f : ℕ)
deriving DecidableEq

/-- `void_device_ops_t`; `none` is a null pointer. -/
structure Ops where
  «open» : Option Fn
  close : Option Fn
  read : Option Fn
  write : Option Fn
  ioctl : Option Fn
deriving DecidableEq

structure Device where
  name : Option (List UInt8)
  data : ℕ
  ops : Ops
deriving DecidableEq

structure Slot extends Device where
  magic : ℕ
  ref : ℕ
  inuse : Bool
deriving DecidableEq

structure Instance where
  magic : ℕ
  idx : ℕ
  birth : ℕ
  priv : ℕ
deriving DecidableEq

/-- An instance that has been opened and not closed. -/
structure Opened where
  ptr : ℕ
  slot : ℕ
  priv : ℕ
deriving DecidableEq

/-- The registry, and the kernel heap as the instances read it. The lists of the instances that are
open and of the pointers that `dev_open` has returned are ghost. -/
structure Devices where
  devices : ℕ → Slot
  heap : ℕ → Instance
  opened : List Opened
  minted : List ℕ

def devEntryLive (d : Slot) : Bool := d.inuse && d.name.isSome && d.ops.open.isSome

namespace Devices

def setSlot (s : Devices) (k : ℕ) (d : Slot) : Devices :=
  { s with devices := Function.update s.devices k d }

def devInstValid (s : Devices) (inst : ℕ) : Bool :=
  let i := s.heap inst
  if inst = 0 ∨ i.magic ≠ devInstanceMagic then false
  else if devMaxDevices ≤ i.idx then false
  else
    let d := s.devices i.idx
    devEntryLive d && d.ref ≠ 0 && i.birth = d.magic

def devInit (heap : ℕ → Instance) : Devices where
  devices := fun i => ⟨⟨none, 0, ⟨none, none, none, none, none⟩⟩,
    if i < devMaxDevices then i + 0x100 else 0, 0, false⟩
  heap := heap
  opened := []
  minted := []

def findName (s : Devices) (name : List UInt8) : Option ℕ :=
  (List.range devMaxDevices).find? fun k => (s.devices k).inuse && (s.devices k).name = some name

def devRegister (s : Devices) : Option Device → Devices × ℤ
  | none => (s, veInval)
  | some dev =>
    match dev.name with
    | none => (s, veInval)
    | some name =>
      if dev.ops.open.isNone then (s, veInval)
      else if devNameMax ≤ name.length then (s, veNametoolong)
      else if name.length = 0 then (s, veInval)
      else if (s.findName name).isSome then (s, veExist)
      else
        match (List.range devMaxDevices).find? fun k => !(s.devices k).inuse with
        | none => (s, veNomem)
        | some k =>
          (s.setSlot k { s.devices k with
            name := some name
            data := dev.data
            ops := { dev.ops with read := some (dev.ops.read.getD .devNoread) }
            inuse := true
            ref := 0 }, 0)

def devLookup (s : Devices) : Option (List UInt8) → Option ℕ
  | none => none
  | some name => if name = [] then none else s.findName name

def devUnregister (s : Devices) (name : Option (List UInt8)) : Devices × ℤ :=
  match name with
  | none => (s, veInval)
  | some [] => (s, veInval)
  | some name =>
    match s.findName name with
    | none => (s, veNoent)
    | some k =>
      if (s.devices k).ref ≠ 0 then (s, veBusy)
      else (s.setSlot k { s.devices k with name := none, data := 0, inuse := false, ref := 0 }, 0)

/-- `dev_open`; `priv` is what the open hook of the driver returns, and `inst` what `kmalloc`
returns. -/
def devOpen (s : Devices) (name : Option (List UInt8)) (priv inst : ℕ) : Devices × ℕ :=
  match s.devLookup name with
  | none => (s, 0)
  | some k =>
    let slot := s.devices k
    if !devEntryLive slot then (s, 0)
    else if priv = 0 then (s, 0)
    else if inst = 0 then (s, 0)
    else
      ({ s.setSlot k { slot with ref := (slot.ref + 1) % 2 ^ 8 } with
        heap := Function.update s.heap inst ⟨devInstanceMagic, k, slot.magic, priv⟩
        opened := ⟨inst, k, priv⟩ :: s.opened
        minted := inst :: s.minted }, inst)

/-- `dev_close`. The memory of the instance keeps its bytes when it is freed. -/
def devClose (s : Devices) (inst : ℕ) : Devices × ℤ :=
  let i := s.heap inst
  if inst = 0 ∨ i.magic ≠ devInstanceMagic then (s, veInval)
  else if devMaxDevices ≤ i.idx then (s, veBadf)
  else
    let slot := s.devices i.idx
    if !devEntryLive slot ∨ i.birth ≠ slot.magic ∨ slot.ref = 0 then (s, veBadf)
    else
      ({ s.setSlot i.idx { slot with ref := slot.ref - 1 } with
        opened := s.opened.filter fun o => o.ptr ≠ inst }, 0)

def devInstSlot (s : Devices) (inst : ℕ) : Option ℕ :=
  let i := s.heap inst
  if inst = 0 ∨ i.magic ≠ devInstanceMagic then none
  else if devMaxDevices ≤ i.idx then none
  else if !s.devInstValid inst then none
  else some i.idx

/-- The common body of `dev_read`, `dev_write` and `dev_ioctl`: an error, or the function that is
called and the handle of the driver that it gets. -/
def dispatch (op : Ops → Option Fn) (s : Devices) (inst : ℕ) : Except ℤ (Fn × ℕ) :=
  match s.devInstSlot inst with
  | none => .error veBadf
  | some k =>
    match op (s.devices k).ops with
    | none => .error veBadf
    | some f => .ok (f, (s.heap inst).priv)

def devRead : Devices → ℕ → Except ℤ (Fn × ℕ) := dispatch Ops.read

def devWrite : Devices → ℕ → Except ℤ (Fn × ℕ) := dispatch Ops.write

def devIoctl : Devices → ℕ → Except ℤ (Fn × ℕ) := dispatch Ops.ioctl

def openCount (s : Devices) (k : ℕ) : ℕ := s.opened.countP fun o => o.slot = k

def IsOpen (s : Devices) (inst : ℕ) : Prop := ∃ o ∈ s.opened, o.ptr = inst

instance (s : Devices) (inst : ℕ) : Decidable (s.IsOpen inst) := by
  delta IsOpen
  infer_instance

end Devices

inductive Op
  | register (dev : Option Device)
  | unregister (name : Option (List UInt8))
  | open (name : Option (List UInt8)) (priv inst : ℕ)
  | close (inst : ℕ)
  | heap (m : ℕ → Instance)

def step (s : Devices) : Op → Option Devices
  | .register dev => some (s.devRegister dev).1
  | .unregister name => some (s.devUnregister name).1
  | .open name priv inst => some (s.devOpen name priv inst).1
  | .close inst => some (s.devClose inst).1
  | .heap m => some { s with heap := m }

/-- `kmalloc` does not return memory that is in use, `dev_close` gets a pointer that `dev_open` has
returned, and nobody else writes to an open instance. -/
def Legal (s : Devices) : Op → Prop
  | .open _ _ inst => ¬ s.IsOpen inst
  | .close inst => inst = 0 ∨ inst ∈ s.minted
  | .heap m => ∀ o ∈ s.opened, m o.ptr = s.heap o.ptr
  | _ => True

instance (s : Devices) : (op : Op) → Decidable (Legal s op)
  | .register _ => .isTrue trivial
  | .unregister _ => .isTrue trivial
  | .open _ _ inst => inferInstanceAs (Decidable (¬ s.IsOpen inst))
  | .close inst => inferInstanceAs (Decidable (inst = 0 ∨ inst ∈ s.minted))
  | .heap m => inferInstanceAs (Decidable (∀ o ∈ s.opened, m o.ptr = s.heap o.ptr))

def Init (s : Devices) : Prop := ∃ heap, s = Devices.devInit heap

/-- The reference counts are right, and exactly the open instances can be closed and used. -/
structure Safe (s : Devices) : Prop where
  counts : ∀ k < devMaxDevices, (s.devices k).inuse = true → (s.devices k).ref = s.openCount k
  unregister : ∀ name, (s.devUnregister name).2 = 0 →
    ∃ k, s.devLookup name = some k ∧ s.openCount k = 0
  close : ∀ p ∈ s.minted, (s.devClose p).2 = 0 ↔ s.IsOpen p
  closed : ∀ p ∈ s.minted, (s.devClose p).2 = 0 → ¬ (s.devClose p).1.IsOpen p
  read : ∀ p ∈ s.minted, ∀ f priv, s.devRead p = .ok (f, priv) ↔
    ∃ o ∈ s.opened, o.ptr = p ∧ o.priv = priv ∧ (s.devices o.slot).ops.read = some f
  write : ∀ p ∈ s.minted, ∀ f priv, s.devWrite p = .ok (f, priv) ↔
    ∃ o ∈ s.opened, o.ptr = p ∧ o.priv = priv ∧ (s.devices o.slot).ops.write = some f
  ioctl : ∀ p ∈ s.minted, ∀ f priv, s.devIoctl p = .ok (f, priv) ↔
    ∃ o ∈ s.opened, o.ptr = p ∧ o.priv = priv ∧ (s.devices o.slot).ops.ioctl = some f
  reads : ∀ o ∈ s.opened, (s.devices o.slot).ops.read.isSome = true

/-- The memory at a pointer reads as an instance of the slot. -/
def Names (s : Devices) (heap : ℕ → Instance) (p k : ℕ) : Prop :=
  (heap p).magic = devInstanceMagic ∧ (heap p).idx = k ∧ (heap p).birth = (s.devices k).magic

instance (s : Devices) (heap : ℕ → Instance) (p k : ℕ) : Decidable (Names s heap p k) := by
  delta Names
  infer_instance

/-- No slot gets an open instance while the memory of a closed one still names it, and no count
passes the range of its byte. -/
def Careful (s : Devices) : Op → Prop
  | .open name priv inst => priv ≠ 0 → inst ≠ 0 → ∀ k ∈ s.devLookup name,
      s.openCount k < 255 ∧ ∀ p ∈ s.minted, p ≠ inst → ¬ s.IsOpen p → ¬ Names s s.heap p k
  | .close inst => ∀ o ∈ s.opened, o.ptr = inst → s.openCount o.slot = 1
  | .heap m => ∀ p ∈ s.minted, ¬ s.IsOpen p → ∀ o ∈ s.opened, ¬ Names s m p o.slot
  | _ => True

instance (s : Devices) : (op : Op) → Decidable (Careful s op)
  | .register _ => .isTrue trivial
  | .unregister _ => .isTrue trivial
  | .open name priv inst => inferInstanceAs (Decidable (priv ≠ 0 → inst ≠ 0 →
      ∀ k ∈ s.devLookup name, s.openCount k < 255 ∧
        ∀ p ∈ s.minted, p ≠ inst → ¬ s.IsOpen p → ¬ Names s s.heap p k))
  | .close inst => inferInstanceAs (Decidable (∀ o ∈ s.opened, o.ptr = inst →
      s.openCount o.slot = 1))
  | .heap m => inferInstanceAs (Decidable (∀ p ∈ s.minted, ¬ s.IsOpen p →
      ∀ o ∈ s.opened, ¬ Names s m p o.slot))

structure Inv (s : Devices) : Prop where
  magic : ∀ k < devMaxDevices, (s.devices k).magic = k + 0x100
  counts : ∀ k < devMaxDevices, (s.devices k).ref = s.openCount k
  reads : ∀ k, (s.devices k).inuse = true → (s.devices k).ops.read.isSome = true
  live : ∀ o ∈ s.opened, o.slot < devMaxDevices ∧ devEntryLive (s.devices o.slot) = true
  memory : ∀ o ∈ s.opened, o.ptr ≠ 0 ∧ o.ptr ∈ s.minted ∧
    s.heap o.ptr = ⟨devInstanceMagic, o.slot, (s.devices o.slot).magic, o.priv⟩
  nodup : (s.opened.map Opened.ptr).Nodup
  stale : ∀ p ∈ s.minted, ¬ s.IsOpen p → ∀ o ∈ s.opened, ¬ Names s s.heap p o.slot

section Invariant

variable {s s' : Devices} {p k : ℕ} {o : Opened}

theorem inuse_of_live {d : Slot} (h : devEntryLive d = true) : d.inuse = true := by
  unfold devEntryLive at h
  simp only [Bool.and_eq_true] at h
  exact h.1.1

theorem openCount_pos : 0 < s.openCount k ↔ ∃ o ∈ s.opened, o.slot = k := by
  unfold Devices.openCount
  simp [List.countP_pos_iff]

theorem openCount_zero : s.openCount k = 0 ↔ ∀ o ∈ s.opened, o.slot ≠ k := by
  unfold Devices.openCount
  simp [List.countP_eq_zero]

/-- What `dev_inst_valid` and `dev_close` ask of a pointer. -/
def Accepts (s : Devices) (p : ℕ) : Prop :=
  p ≠ 0 ∧ Names s s.heap p (s.heap p).idx ∧ (s.heap p).idx < devMaxDevices ∧
    devEntryLive (s.devices (s.heap p).idx) = true ∧ (s.devices (s.heap p).idx).ref ≠ 0

theorem devInstValid_iff : s.devInstValid p = true ↔ Accepts s p := by
  unfold Devices.devInstValid Accepts Names
  dsimp only
  split_ifs with h₁ h₂
  · simp only [false_iff]
    tauto
  · simp only [false_iff]
    omega
  · rw [not_le] at h₂
    simp only [Bool.and_eq_true, decide_eq_true_eq]
    tauto

theorem devInstSlot_eq : s.devInstSlot p = if s.devInstValid p then some (s.heap p).idx else none := by
  unfold Devices.devInstSlot Devices.devInstValid
  dsimp only
  split_ifs <;> simp_all

theorem devClose_cases (s : Devices) (p : ℕ) :
    (Accepts s p ∧ s.devClose p = ({ s.setSlot (s.heap p).idx { s.devices (s.heap p).idx with
      ref := (s.devices (s.heap p).idx).ref - 1 } with
      opened := s.opened.filter fun o => o.ptr ≠ p }, 0)) ∨
    ¬ Accepts s p ∧ ∃ e ≠ 0, s.devClose p = (s, e) := by
  have hinval : veInval ≠ 0 := by decide
  have hbadf : veBadf ≠ 0 := by decide
  unfold Devices.devClose Accepts Names
  dsimp only
  split_ifs with h₁ h₂ h₃
  · exact Or.inr ⟨by tauto, _, hinval, rfl⟩
  · exact Or.inr ⟨by omega, _, hbadf, rfl⟩
  · refine Or.inr ⟨fun hc => ?_, _, hbadf, rfl⟩
    simp_all
  · refine Or.inl ⟨?_, rfl⟩
    simp_all

theorem dispatch_ok {op : Ops → Option Fn} {f : Fn} {priv : ℕ} :
    Devices.dispatch op s p = .ok (f, priv) ↔
      Accepts s p ∧ op (s.devices (s.heap p).idx).ops = some f ∧ (s.heap p).priv = priv := by
  unfold Devices.dispatch
  rw [devInstSlot_eq, ← devInstValid_iff]
  cases s.devInstValid p with
  | false => simp
  | true =>
    cases hop : op (s.devices (s.heap p).idx).ops with
    | none => simp [hop]
    | some g => simp [hop]

theorem Inv.accepts_iff (h : Inv s) (hp : p ∈ s.minted) : Accepts s p ↔ s.IsOpen p := by
  constructor
  · rintro ⟨-, hnames, hidx, -, href⟩
    rw [h.counts _ hidx] at href
    obtain ⟨o, ho, hslot⟩ := openCount_pos.mp (Nat.pos_of_ne_zero href)
    by_contra hc
    exact h.stale p hp hc o ho (hslot ▸ hnames)
  · rintro ⟨o, ho, rfl⟩
    obtain ⟨h0, -, hmem⟩ := h.memory o ho
    obtain ⟨hslot, hlive⟩ := h.live o ho
    have hcount := openCount_pos.mpr ⟨o, ho, rfl⟩
    unfold Accepts Names
    rw [hmem]
    refine ⟨h0, ⟨rfl, rfl, rfl⟩, hslot, hlive, ?_⟩
    rw [h.counts _ hslot]
    omega

theorem Inv.opened_eq (h : Inv s) {o o' : Opened} (ho : o ∈ s.opened) (ho' : o' ∈ s.opened)
    (heq : o.ptr = o'.ptr) : o = o' :=
  List.inj_on_of_nodup_map h.nodup ho ho' heq

theorem Inv.dispatch_iff (h : Inv s) (hp : p ∈ s.minted) {op : Ops → Option Fn} {f : Fn}
    {priv : ℕ} : Devices.dispatch op s p = .ok (f, priv) ↔
      ∃ o ∈ s.opened, o.ptr = p ∧ o.priv = priv ∧ op (s.devices o.slot).ops = some f := by
  rw [dispatch_ok, h.accepts_iff hp]
  constructor
  · rintro ⟨⟨o, ho, rfl⟩, hop, hpriv⟩
    rw [(h.memory o ho).2.2] at hop hpriv
    exact ⟨o, ho, rfl, hpriv, hop⟩
  · rintro ⟨o, ho, rfl, hpriv, hop⟩
    rw [(h.memory o ho).2.2]
    exact ⟨⟨o, ho, rfl⟩, hop, hpriv⟩

theorem findName_some {name : List UInt8} (h : s.findName name = some k) :
    k < devMaxDevices ∧ (s.devices k).inuse = true ∧ (s.devices k).name = some name := by
  have hk := List.find?_some h
  rw [Bool.and_eq_true, decide_eq_true_eq] at hk
  exact ⟨List.mem_range.mp (List.mem_of_find?_eq_some h), hk⟩

theorem devLookup_some {name : Option (List UInt8)} (h : s.devLookup name = some k) :
    k < devMaxDevices ∧ (s.devices k).inuse = true := by
  cases name with
  | none => cases h
  | some name =>
    replace h : (if name = [] then none else s.findName name) = some k := h
    split_ifs at h
    exact ⟨(findName_some h).1, (findName_some h).2.1⟩

theorem devUnregister_cases (s : Devices) (name : Option (List UInt8)) :
    (∃ k, s.devLookup name = some k ∧ (s.devices k).ref = 0 ∧ s.devUnregister name =
      (s.setSlot k { s.devices k with name := none, data := 0, inuse := false, ref := 0 }, 0)) ∨
    ∃ e ≠ 0, s.devUnregister name = (s, e) := by
  have hinval : veInval ≠ 0 := by decide
  have hnoent : veNoent ≠ 0 := by decide
  have hbusy : veBusy ≠ 0 := by decide
  match name with
  | none => exact Or.inr ⟨_, hinval, rfl⟩
  | some [] => exact Or.inr ⟨_, hinval, rfl⟩
  | some (a :: name) =>
    have hlook : s.devLookup (some (a :: name)) = s.findName (a :: name) := rfl
    rw [hlook]
    unfold Devices.devUnregister
    dsimp only
    split
    · exact Or.inr ⟨_, hnoent, rfl⟩
    · rename_i k hk
      split_ifs with href
      · exact Or.inr ⟨_, hbusy, rfl⟩
      · exact Or.inl ⟨k, hk, not_not.mp href, rfl⟩

theorem devRegister_cases (s : Devices) (dev : Option Device) :
    (∃ k d, k < devMaxDevices ∧ (s.devices k).inuse = false ∧ d.magic = (s.devices k).magic ∧
      d.ref = 0 ∧ d.ops.read.isSome = true ∧ s.devRegister dev = (s.setSlot k d, 0)) ∨
    (s.devRegister dev).1 = s := by
  unfold Devices.devRegister
  split
  · exact Or.inr rfl
  rename_i dev
  split
  · exact Or.inr rfl
  rename_i name hname
  split_ifs
  · exact Or.inr rfl
  · exact Or.inr rfl
  · exact Or.inr rfl
  · exact Or.inr rfl
  split
  · exact Or.inr rfl
  · rename_i k hk
    have hfree : (s.devices k).inuse = false := by simpa using List.find?_some hk
    refine Or.inl ⟨k, ?_, List.mem_range.mp (List.mem_of_find?_eq_some hk), hfree, ?_⟩
    · exact { s.devices k with
        name := some name
        data := dev.data
        ops := { dev.ops with read := some (dev.ops.read.getD .devNoread) }
        inuse := true
        ref := 0 }
    · exact ⟨rfl, rfl, rfl, rfl⟩

theorem devOpen_cases (s : Devices) (name : Option (List UInt8)) (priv inst : ℕ) :
    (∃ k, s.devLookup name = some k ∧ devEntryLive (s.devices k) = true ∧ priv ≠ 0 ∧ inst ≠ 0 ∧
      s.devOpen name priv inst = ({ s.setSlot k { s.devices k with
        ref := ((s.devices k).ref + 1) % 2 ^ 8 } with
        heap := Function.update s.heap inst ⟨devInstanceMagic, k, (s.devices k).magic, priv⟩
        opened := ⟨inst, k, priv⟩ :: s.opened
        minted := inst :: s.minted }, inst)) ∨ (s.devOpen name priv inst).1 = s := by
  unfold Devices.devOpen
  split
  · exact Or.inr rfl
  · rename_i k hk
    dsimp only
    split_ifs with hlive hpriv hinst
    · exact Or.inr rfl
    · exact Or.inr rfl
    · exact Or.inr rfl
    · exact Or.inl ⟨k, hk, by simpa using hlive, hpriv, hinst, rfl⟩

theorem Inv.safe (h : Inv s) : Safe s := by
  refine ⟨fun k hk _ => h.counts k hk, fun name hname => ?_, fun p hp => ?_, fun p hp hz => ?_,
    fun p hp f priv => h.dispatch_iff hp, fun p hp f priv => h.dispatch_iff hp,
    fun p hp f priv => h.dispatch_iff hp, fun o ho => h.reads _ ?_⟩
  · rcases devUnregister_cases s name with ⟨k, hk, href, -⟩ | ⟨e, he, heq⟩
    · rw [h.counts k (devLookup_some hk).1] at href
      exact ⟨k, hk, href⟩
    · rw [heq] at hname
      exact absurd hname he
  · rcases devClose_cases s p with ⟨ha, heq⟩ | ⟨ha, e, he, heq⟩
    · simp [heq, ← h.accepts_iff hp, ha]
    · simp [heq, ← h.accepts_iff hp, ha, he]
  · rcases devClose_cases s p with ⟨ha, heq⟩ | ⟨ha, e, he, heq⟩
    · rw [heq]
      rintro ⟨o, ho, hptr⟩
      simp [hptr] at ho
    · rw [heq] at hz
      exact absurd hz he
  · exact inuse_of_live (h.live o ho).2

theorem devices_setSlot {d : Slot} (j : ℕ) :
    (s.setSlot k d).devices j = if j = k then d else s.devices j :=
  Function.update_apply s.devices k d j

theorem Inv.setSlot (h : Inv s) (hk : s.openCount k = 0) {d : Slot}
    (hmagic : d.magic = (s.devices k).magic) (href : d.ref = 0)
    (hread : d.inuse = true → d.ops.read.isSome = true) : Inv (s.setSlot k d) := by
  have hne := openCount_zero.mp hk
  have hsame : ∀ o ∈ s.opened, (s.setSlot k d).devices o.slot = s.devices o.slot := fun o ho => by
    rw [devices_setSlot, if_neg (hne o ho)]
  have hseed : ∀ j, ((s.setSlot k d).devices j).magic = (s.devices j).magic := by
    intro j
    rw [devices_setSlot]
    split_ifs with hj
    · rw [hj, hmagic]
    · rfl
  refine ⟨fun j hj => (hseed j).trans (h.magic j hj), fun j hj => ?_, fun j => ?_, fun o ho => ?_,
    fun o ho => ?_, h.nodup, fun p hp hc o ho hn => ?_⟩
  · rw [devices_setSlot]
    split_ifs with hjk
    · rw [href, hjk]
      exact hk.symm
    · exact h.counts j hj
  · rw [devices_setSlot]
    split_ifs
    · exact hread
    · exact h.reads j
  · rw [hsame o ho]
    exact h.live o ho
  · rw [hsame o ho]
    exact h.memory o ho
  · refine h.stale p hp hc o ho ⟨hn.1, hn.2.1, ?_⟩
    rw [← hseed]
    exact hn.2.2

theorem setSlot_ref (s : Devices) (k r j : ℕ) :
    ((s.setSlot k { s.devices k with ref := r }).devices j) =
      { s.devices j with ref := if j = k then r else (s.devices j).ref } := by
  rw [devices_setSlot]
  split_ifs with hj
  · rw [hj]
  · rfl

theorem Inv.devOpen (h : Inv s) {name : Option (List UInt8)} {priv inst : ℕ}
    (hl : ¬ s.IsOpen inst) (hc : Careful s (.open name priv inst)) :
    Inv (s.devOpen name priv inst).1 := by
  rcases devOpen_cases s name priv inst with ⟨k, hk, hlive, hpriv, hinst, heq⟩ | heq
  swap
  · rw [heq]
    exact h
  rw [heq]
  have hrow := setSlot_ref s k (((s.devices k).ref + 1) % 2 ^ 8)
  have hlt := (devLookup_some hk).1
  obtain ⟨hcount, hstale⟩ := hc hpriv hinst k hk
  have hptr : ∀ o ∈ s.opened, o.ptr ≠ inst := fun o ho hp => hl ⟨o, ho, hp⟩
  refine ⟨fun j hj => ?_, fun j hj => ?_, fun j => ?_, ?_, ?_, ?_, ?_⟩
  · dsimp only
    rw [hrow]
    exact h.magic j hj
  · -- the count of the slot is below 255, so it does not wrap
    dsimp only [Devices.openCount]
    rw [hrow, List.countP_cons]
    have hold := h.counts j hj
    unfold Devices.openCount at hold hcount
    by_cases hjk : j = k
    · subst hjk
      simp only [if_true, decide_true]
      omega
    · simp only [if_neg hjk, decide_eq_true_eq, if_neg (Ne.symm hjk)]
      exact hold
  · dsimp only
    rw [hrow]
    exact h.reads j
  · simp only [List.forall_mem_cons, hrow]
    exact ⟨⟨hlt, hlive⟩, h.live⟩
  · simp only [List.forall_mem_cons, hrow, Function.update_self]
    refine ⟨⟨hinst, List.mem_cons_self, trivial⟩, fun o ho => ?_⟩
    obtain ⟨h0, hp, hmem⟩ := h.memory o ho
    rw [Function.update_of_ne (hptr o ho)]
    exact ⟨h0, List.mem_cons_of_mem _ hp, hmem⟩
  · rw [List.map_cons, List.nodup_cons]
    refine ⟨fun hm => ?_, h.nodup⟩
    obtain ⟨o, ho, hp⟩ := List.mem_map.mp hm
    exact hptr o ho hp
  · intro p hp hopen
    have hne : p ≠ inst := fun hpi => hopen ⟨_, List.mem_cons_self, hpi.symm⟩
    have hclosed : ¬ s.IsOpen p := fun ⟨o, ho, hop⟩ => hopen ⟨o, List.mem_cons_of_mem _ ho, hop⟩
    have hmint : p ∈ s.minted := (List.mem_cons.mp hp).resolve_left hne
    simp only [List.forall_mem_cons, Names, hrow, Function.update_of_ne hne]
    exact ⟨hstale p hmint hne hclosed, h.stale p hmint hclosed⟩

theorem Inv.opened_perm (h : Inv s) (ho : o ∈ s.opened) :
    s.opened.Perm (o :: s.opened.filter fun x => x.ptr ≠ o.ptr) := by
  have hnd := List.Nodup.of_map _ h.nodup
  rw [List.perm_ext_iff_of_nodup hnd]
  · intro x
    simp only [List.mem_cons, List.mem_filter, decide_eq_true_eq]
    constructor
    · intro hx
      by_cases hp : x.ptr = o.ptr
      · exact Or.inl (h.opened_eq hx ho hp)
      · exact Or.inr ⟨hx, hp⟩
    · rintro (rfl | hx)
      · exact ho
      · exact hx.1
  · rw [List.nodup_cons]
    exact ⟨by simp, hnd.filter _⟩

theorem Inv.devClose (h : Inv s) (hl : p = 0 ∨ p ∈ s.minted) (hc : Careful s (.close p)) :
    Inv (s.devClose p).1 := by
  rcases devClose_cases s p with ⟨ha, heq⟩ | ⟨-, e, -, heq⟩
  swap
  · rw [heq]
    exact h
  have hp : p ∈ s.minted := hl.resolve_left ha.1
  obtain ⟨o, ho, rfl⟩ := (h.accepts_iff hp).mp ha
  have hone := hc o ho rfl
  have hidx : (s.heap o.ptr).idx = o.slot := congrArg Instance.idx (h.memory o ho).2.2
  have hcount : ∀ j, s.openCount j = (s.opened.filter fun x => x.ptr ≠ o.ptr).countP
      (fun x => x.slot = j) + if o.slot = j then 1 else 0 := by
    intro j
    unfold Devices.openCount
    rw [(h.opened_perm ho).countP_eq, List.countP_cons]
    simp
  rw [heq, hidx]
  have hrow := setSlot_ref s o.slot ((s.devices o.slot).ref - 1)
  have hmem : ∀ x ∈ s.opened.filter fun x => x.ptr ≠ o.ptr, x ∈ s.opened :=
    fun x hx => (List.mem_filter.mp hx).1
  refine ⟨fun j hj => ?_, fun j hj => ?_, fun j => ?_, fun x hx => ?_, fun x hx => ?_, ?_, ?_⟩
  · dsimp only
    rw [hrow]
    exact h.magic j hj
  · dsimp only [Devices.openCount]
    rw [hrow]
    have hold := h.counts j hj
    rw [hcount j] at hold
    by_cases hjo : j = o.slot
    · subst hjo
      simp only [if_true] at hold ⊢
      omega
    · simp only [if_neg hjo, if_neg (Ne.symm hjo)] at hold ⊢
      exact hold
  · dsimp only
    rw [hrow]
    exact h.reads j
  · dsimp only
    rw [hrow]
    exact h.live x (hmem x hx)
  · dsimp only
    rw [hrow]
    exact h.memory x (hmem x hx)
  · exact h.nodup.sublist (List.filter_sublist.map _)
  · -- the closed pointer names a slot that has no open instance any more
    intro q hq hclosed x hx hn
    rw [Names] at hn
    dsimp only at hn
    rw [hrow] at hn
    by_cases hqo : q = o.ptr
    · have hzero := hcount o.slot
      rw [hone, if_pos rfl] at hzero
      have hnone := List.countP_eq_zero.mp (Nat.succ.inj hzero.symm) x hx
      have hslot : (s.heap q).idx = x.slot := hn.2.1
      rw [hqo, hidx] at hslot
      exact hnone (decide_eq_true hslot.symm)
    · refine h.stale q hq (fun ⟨y, hy, hyq⟩ => hclosed ⟨y, ?_, hyq⟩) x (hmem x hx) hn
      exact List.mem_filter.mpr ⟨hy, decide_eq_true (hyq.trans_ne hqo)⟩

theorem Inv.heap (h : Inv s) {m : ℕ → Instance} (hl : ∀ o ∈ s.opened, m o.ptr = s.heap o.ptr)
    (hc : Careful s (.heap m)) : Inv { s with heap := m } := by
  refine ⟨h.magic, h.counts, h.reads, h.live, fun o ho => ?_, h.nodup, hc⟩
  obtain ⟨h0, hp, hmem⟩ := h.memory o ho
  exact ⟨h0, hp, (hl o ho).trans hmem⟩

theorem Inv.init (hs : Init s) : Inv s := by
  obtain ⟨heap, rfl⟩ := hs
  refine ⟨fun k hk => if_pos hk, fun k _ => rfl, ?_, ?_, ?_, List.nodup_nil, ?_⟩
  all_goals simp [Devices.devInit]

theorem Inv.step {op : Op} (h : Inv s) (hl : Legal s op) (hc : Careful s op)
    (hs : step s op = some s') : Inv s' := by
  cases op with
  | register dev =>
    cases hs
    rcases devRegister_cases s dev with ⟨k, d, -, hfree, hmagic, href, hread, heq⟩ | heq
    · rw [heq]
      refine h.setSlot (openCount_zero.mpr fun o ho hslot => ?_) hmagic href fun _ => hread
      have hlive := inuse_of_live (h.live o ho).2
      rw [hslot, hfree] at hlive
      cases hlive
    · rw [heq]
      exact h
  | unregister name =>
    cases hs
    rcases devUnregister_cases s name with ⟨k, hk, href, heq⟩ | ⟨e, -, heq⟩
    · rw [heq]
      rw [h.counts k (devLookup_some hk).1] at href
      exact h.setSlot href rfl rfl fun hc => nomatch hc
    · rw [heq]
      exact h
  | «open» name priv inst =>
    cases hs
    exact h.devOpen hl hc
  | close inst =>
    cases hs
    exact h.devClose hl hc
  | heap m =>
    cases hs
    exact h.heap hl hc

end Invariant

/-- In a run without a stale pointer beside an open instance the reference counts are right, and
exactly the open instances can be closed and used. -/
theorem device_refs {s : Devices}
    (h : Reach step (fun s op => Legal s op ∧ Careful s op) Init s) : Safe s := by
  apply Inv.safe
  exact h.invariant (fun s hs => Inv.init hs) fun s op s' hi hok hs => hi.step hok.1 hok.2 hs

/-- The device of the self test, and the registry over a heap of zeros. -/
def devc : Device := ⟨some [0x64, 0x65, 0x76, 0x63], 0,
  ⟨some (.driver 1), some (.driver 2), some (.driver 3), some (.driver 4), none⟩⟩

def devStart : Devices := Devices.devInit fun _ => ⟨0, 0, 0, 0⟩

/-- The device is registered, opened, closed and opened again at the same pointer. -/
def reopen : List Op :=
  [.register (some devc), .open devc.name 1 0x1000, .close 0x1000, .open devc.name 2 0x1000]

theorem device_refs_reopen : ∃ s,
    runIf step (fun s op => Legal s op ∧ Careful s op) devStart reopen = some s ∧
    s.minted = [0x1000, 0x1000] ∧ Safe s := by
  obtain ⟨s, hs⟩ := Option.isSome_iff_exists.mp
    (show (runIf step (fun s op => Legal s op ∧ Careful s op) devStart reopen).isSome by
      decide +kernel)
  refine ⟨s, hs, ?_, device_refs ((Reach.init ⟨_, rfl⟩).runIf hs)⟩
  have hm : (runIf step (fun s op => Legal s op ∧ Careful s op) devStart reopen).map
      Devices.minted = some [0x1000, 0x1000] := by decide +kernel
  rw [hs] at hm
  exact Option.some.inj hm

/-- The device is opened twice, and the first instance is closed twice. -/
def closeTwice : List Op :=
  [.register (some devc), .open devc.name 1 0x1000, .open devc.name 2 0x2000, .close 0x1000,
    .close 0x1000]

theorem close_twice_drops_ref : ∃ s, Reach step Legal Init s ∧
    runIf step Legal devStart closeTwice = some s ∧ (s.devices 0).inuse = true ∧
    (s.devices 0).ref = 0 ∧ s.openCount 0 = 1 ∧ (s.devUnregister devc.name).2 = 0 ∧ ¬ Safe s := by
  obtain ⟨s, hs⟩ := Option.isSome_iff_exists.mp
    (show (runIf step Legal devStart closeTwice).isSome by decide +kernel)
  have hv : (runIf step Legal devStart closeTwice).map (fun s => ((s.devices 0).inuse,
      (s.devices 0).ref, s.openCount 0, (s.devUnregister devc.name).2)) =
      some (true, 0, 1, 0) := by decide +kernel
  rw [hs] at hv
  simp only [Option.map_some, Option.some.injEq, Prod.mk.injEq] at hv
  obtain ⟨huse, href, hcount, hun⟩ := hv
  refine ⟨s, (Reach.init ⟨_, rfl⟩).runIf hs, hs, huse, href, hcount, hun, fun hsafe => ?_⟩
  have := hsafe.counts 0 (by decide) huse
  omega

end VoidOS.Dev
